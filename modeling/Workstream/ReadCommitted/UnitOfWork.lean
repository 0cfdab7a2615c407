import Workstream.ReadCommitted.Invariants

/-!
# Edits of a row that was loaded before

A session that has loaded a row and is given new values for some of its
columns sends an `UPDATE` of the columns in which the new values differ from
the loaded ones.  A value that it has found there is not sent, whatever another
transaction has made of the column since.
-/

namespace ReadCommitted

open World

variable {σ : Schema} {ρ κ υ : Type} [DecidableEq υ]

/-- The row `r'` is `r` with the columns to which `given` gives other values
than `loaded` has. -/
def Flushes (get : κ → ρ → υ) (given : κ → Option υ) (loaded r r' : ρ) :
    Prop :=
  ∀ x, get x r' =
    if given x = some (get x loaded) then get x r
    else (given x).getD (get x r)

section Flushes

variable {get : κ → ρ → υ} {given : κ → Option υ} {loaded r r' : ρ} {x : κ}
  {v : υ}

theorem Flushes.get_of_none (h : Flushes get given loaded r r')
    (hx : given x = none) : get x r' = get x r := by
  rw [h x, hx]
  simp

/-- A value that was given is in the column after the flush, unless it was not
sent and another one is there. -/
theorem Flushes.get_eq_iff (h : Flushes get given loaded r r')
    (hx : given x = some v) :
    get x r' = v ↔ (v = get x loaded → get x r = v) := by
  rw [h x, hx]
  by_cases hloaded : v = get x loaded
  · simp [hloaded]
  · simp [hloaded]

end Flushes

/-! ## Runs of edits -/

/-- A row with some of its columns, the values that commits give them, and the
row that a commit has loaded before. -/
structure Editing (σ : Schema) (ρ κ υ : Type) where
  row : Store σ → Option ρ
  get : κ → ρ → υ
  given : Commit σ → κ → Option υ
  loaded : Commit σ → Option ρ

namespace Editing

variable (e : Editing σ ρ κ υ)

/-- What a store has in the column. -/
def value (s : Store σ) (x : κ) : Option υ :=
  (e.row s).map (e.get x)

/-- The commit flushes the values that it gives, or leaves the row alone. -/
inductive Step (c : Commit σ) : Prop where
  | flushed (loaded r r' : ρ) (hloaded : e.loaded c = some loaded)
      (hbefore : e.row c.before = some r) (hafter : e.row c.after = some r')
      (h : Flushes e.get (e.given c) loaded r r')
  | aside (hgiven : ∀ x, e.given c x = none)
      (hrow : e.row c.after = e.row c.before)

/-- If the value that the commit gives is the one that it has loaded, it is in
the column when the commit is made. -/
def Current (c : Commit σ) (x : κ) : Prop :=
  e.given c x = (e.loaded c).map (e.get x) →
    e.value c.before x = e.given c x

instance (c : Commit σ) (x : κ) : Decidable (e.Current c x) :=
  inferInstanceAs (Decidable (_ = _ → _ = _))

/-- The last commit that gives the column a value. -/
def last (log : List (Commit σ)) (x : κ) : Option (Commit σ) :=
  log.find? fun c => (e.given c x).isSome

variable {e} {s₀ s : Store σ} {log : List (Commit σ)} {c : Commit σ} {x : κ}

theorem Step.value_of_none (h : e.Step c) (hx : e.given c x = none) :
    e.value c.after x = e.value c.before x := by
  cases h with
  | flushed loaded r r' _ hbefore hafter hflushes =>
      rw [value, value, hafter, hbefore, Option.map_some, Option.map_some,
        hflushes.get_of_none hx]
  | aside _ hrow => rw [value, hrow, value]

theorem Step.value_eq_iff (h : e.Step c) {v : υ} (hx : e.given c x = some v) :
    e.value c.after x = some v ↔ e.Current c x := by
  cases h with
  | flushed loaded r r' hloaded hbefore hafter hflushes =>
      rw [Current, value, value, hloaded, hbefore, hafter, hx]
      simp only [Option.map_some, Option.some.injEq]
      exact hflushes.get_eq_iff hx
  | aside hgiven _ =>
      rw [hgiven x] at hx
      cases hx

/-- A column keeps what the last commit has left in it that has given it a
value. -/
theorem value_of_last (hchain : Chain s₀ log s) (hsteps : ∀ c ∈ log, e.Step c)
    (hlast : e.last log x = some c) : e.value s x = e.value c.after x := by
  refine hchain.induction hsteps (P := fun log s => ∀ c,
    e.last log x = some c → e.value s x = e.value c.after x) ?_ ?_ c hlast
  · intro c hlast
    cases hlast
  · intro d older hd ih c hlast
    by_cases hx : (e.given d x).isSome
    · simp only [last, List.find?_cons, hx] at hlast
      rw [Option.some.inj hlast]
    · simp only [last, List.find?_cons, hx] at hlast
      rw [hd.value_of_none (Option.not_isSome_iff_eq_none.mp hx)]
      exact ih c hlast

/-- The value that was given last is the one that is stored, unless its commit
has not sent it and another one was there by then. -/
theorem value_eq_given_iff (hchain : Chain s₀ log s)
    (hsteps : ∀ c ∈ log, e.Step c) (hlast : e.last log x = some c) :
    e.value s x = e.given c x ↔ e.Current c x := by
  have hgiven := List.find?_some hlast
  obtain ⟨v, hv⟩ := Option.isSome_iff_exists.mp hgiven
  have hc := hsteps c (List.mem_of_find?_eq_some hlast)
  rw [value_of_last hchain hsteps hlast, hv]
  exact hc.value_eq_iff hv

end Editing

end ReadCommitted
