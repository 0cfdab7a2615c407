import Workstream.ReadCommitted.Discipline
import Workstream.ReadCommitted.Soundness

/-!
# Clients that leave tables alone

A contract is often about a few tables, and proved for the clients that write
to them.  A client whose discipline spares these tables keeps the contract as
well, whatever else it does, as long as a commit that leaves them alone does
no harm.
-/

namespace ReadCommitted

variable {σ : Schema} {ε α β φ : Type}

/-! ## Handlers -/

namespace Prog

/-- From a point where a handler is installed or not, the program returns with
`Q`; handlers themselves start without one. -/
def Bracketed (Q : Bool → α → Prop) : Prog σ ε α → Bool → Prop
  | .ret a, b => Q b a
  | .raise _, _ => True
  | .halt, _ => True
  | .query k, b => ∀ s, Bracketed Q (k s) b
  | .scan _ q k, b => ∀ rows, q.Picks rows → Bracketed Q (k rows) b
  | .visit _ q _ acc k, b =>
      q.Picks acc ∧ ∀ rows, q.Picks rows → Bracketed Q (k rows) b
  | .insert _ _ k, b => ∀ o, Bracketed Q (k o) b
  | .fresh k, b => ∀ n, Bracketed Q (k n) b
  | .call _ k, b => ∀ n, Bracketed Q (k n) b
  | .commit k, b => Bracketed Q k b
  | .rollback k, b => Bracketed Q k b
  | .guarded handler k, _ => Bracketed Q handler false ∧ Bracketed Q k true
  | .unguard k, _ => Bracketed Q k false

section Rules

variable {Q : Bool → α → Prop} {P : Bool → β → Prop} {b : Bool}

@[simp] theorem bracketed_bind (x : Prog σ ε β) (f : β → Prog σ ε α) :
    (x >>= f).Bracketed Q b ↔
      x.Bracketed (fun b a => (f a).Bracketed Q b) b := by
  change (x.bind f).Bracketed Q b ↔ _
  induction x generalizing b with
  | query k ih => exact forall_congr' fun s => ih s
  | scan t q k ih =>
      exact forall_congr' fun rows => forall_congr' fun _ => ih rows
  | visit t q todo acc k ih =>
      exact and_congr_right fun _ =>
        forall_congr' fun rows => forall_congr' fun _ => ih rows
  | insert t r k ih => exact forall_congr' fun o => ih o
  | fresh k ih => exact forall_congr' fun n => ih n
  | call c k ih => exact forall_congr' fun n => ih n
  | commit k ih => exact ih
  | rollback k ih => exact ih
  | guarded h k ihh ihk => exact and_congr ihh ihk
  | unguard k ih => exact ih
  | _ => exact Iff.rfl

@[simp] theorem bracketed_pure (a : α) :
    Bracketed (σ := σ) (ε := ε) Q (pure a) b ↔ Q b a := Iff.rfl

@[simp] theorem bracketed_map (f : β → α) (x : Prog σ ε β) :
    (f <$> x).Bracketed Q b ↔ x.Bracketed (fun b a => Q b (f a)) b :=
  bracketed_bind x fun b => pure (f b)

@[simp] theorem bracketed_halt :
    Bracketed (σ := σ) (ε := ε) Q .halt b ↔ True := Iff.rfl

@[simp] theorem bracketed_callOut (c : σ.Call) {P : Bool → ℕ → Prop} :
    Bracketed (ε := ε) P (callOut c) b ↔ ∀ n, P b n := Iff.rfl

@[simp] theorem bracketed_commitNow {P : Bool → Unit → Prop} :
    Bracketed (σ := σ) (ε := ε) P commitNow b ↔ P b () := Iff.rfl

@[simp] theorem bracketed_ret (a : α) :
    Bracketed (σ := σ) (ε := ε) Q (.ret a) b ↔ Q b a := Iff.rfl

@[simp] theorem bracketed_scan (t : σ.Table) (q : Scan σ t)
    (k : List (σ.Row t) → Prog σ ε α) :
    Bracketed Q (.scan t q k) b ↔
      ∀ rows, q.Picks rows → (k rows).Bracketed Q b := Iff.rfl

theorem bracketed_updateKey {t : σ.Table} (k : σ.Key)
    (f : σ.Row t → σ.Row t) {P : Bool → Unit → Prop} (h : P b ()) :
    Bracketed (ε := ε) P (updateKey t k f) b := by
  intro rows _
  cases rows with
  | nil => trivial
  | cons r rows => exact h

theorem bracketed_attempt {body handler : Prog σ ε α}
    (hhandler : handler.Bracketed Q false)
    (hbody : body.Bracketed (fun _ a => Q false a) true) :
    (Prog.attempt body handler).Bracketed Q b :=
  ⟨hhandler, (bracketed_bind body _).mpr hbody⟩

end Rules

end Prog

namespace Discipline

variable {A : Discipline σ ε φ} {S : Standing σ φ → α → Prop}

/-- A program that tries nothing. -/
theorem Follows.bracketed {prog : Prog σ ε α} {f : Standing σ φ}
    (h : A.Follows S prog f) (htries : ¬A.tries) :
    prog.Bracketed (fun b _ => b = false) false := by
  induction prog generalizing f with
  | ret => rfl
  | raise | halt => trivial
  | query k ih => exact fun s => ih s (h s)
  | scan t q k ih => exact fun rows hrows => ih rows (h.2 rows hrows)
  | visit t q todo acc k ih =>
      exact ⟨h.2.1, fun rows hrows => ih rows (h.2.2 rows hrows)⟩
  | insert t r k ih =>
      intro o
      cases o with
      | some e => exact ih (some e) (h.2.1 e)
      | none => exact ih none h.2.2
  | fresh k ih => exact fun n => ih n (h n)
  | call c k ih => exact fun n => ih n (h.2 n)
  | commit k ih => exact ih h.2
  | rollback k ih => exact ih h
  | guarded g k => exact absurd h.1 htries
  | unguard k ih => exact ih h

/-! ## Tables that are spared -/

/-- The discipline never writes to these tables. -/
structure Spares (A : Discipline σ ε φ) (T : σ.Table → Prop) : Prop where
  adds : ∀ {t : σ.Table} {r : σ.Row t}, A.adds r → ¬T t
  alters : ∀ {t : σ.Table} {r r' : σ.Row t}, A.alters r r' → ¬T t
  erases : ∀ {t : σ.Table} {r : σ.Row t}, A.erases r → ¬T t

/-- The writes leave the tables alone. -/
def Spared (T : σ.Table → Prop) (ws : List (Write σ)) : Prop :=
  ∀ x ∈ ws, ¬T x.ref.1

variable {T : σ.Table → Prop}

theorem Spared.append {ws ws' : List (Write σ)} (h : Spared T ws)
    (h' : Spared T ws') : Spared T (ws ++ ws') := by
  intro x hx
  exact (List.mem_append.mp hx).elim (h x) (h' x)

/-- A locking statement writes to its table, if it writes. -/
theorem Spares.visit (h : A.Spares T) {t : σ.Table} {q : Scan σ t}
    (hallows : A.Allows q) {s : Store σ} {key : σ.Key} {r : σ.Row t}
    {ws : List (Write σ)} {refs : List σ.Ref}
    (hvisit : q.visit s key = .keep r ws refs) : Spared T ws := by
  intro x hx hT
  have href := (World.visit_keep hvisit).1 x hx
  rw [href] at hT
  unfold Scan.visit at hvisit
  split at hvisit
  · cases hvisit
  · next r₀ _ =>
      split at hvisit
      · next hpred =>
          have hallowed := hallows r₀ hpred
          split at hvisit
          · cases hvisit
            cases hx
          · next heffect =>
              rw [heffect] at hallowed
              exact h.erases hallowed hT
          · cases hvisit
          · next heffect =>
              rw [heffect] at hallowed
              exact h.alters hallowed hT
      · cases hvisit

end Discipline

/-! ## The frame rule -/

namespace Contract

open Discipline

variable {C : Contract σ} {p : Pid} {T : σ.Table → Prop}

/-- A commit that leaves the tables alone keeps the contract. -/
def Frames (C : Contract σ) (p : Pid) (T : σ.Table → Prop) : Prop :=
  ∀ (l : Local σ) (s : Shared σ) (c : Commit σ), C.inv s → Makes p l s c →
    C.assume c → Spared T l.session.writes →
      C.guar c ∧ C.inv ⟨c.after, s.used⟩

/-- The handler may take over whenever nothing has been written. -/
def Ready (C : Contract σ) : Bool → Guard σ → Prop
  | false, H => H = none
  | true, H => ∃ h, H = some h ∧ ∀ (l : Local σ) (s : Shared σ), C.inv s →
      h l.rolledBack s

theorem Ready.fails {b : Bool} {H : Guard σ} (h : C.Ready b H) (l : Local σ)
    {s : Shared σ} (hinv : C.inv s) : Fails H l s := by
  cases b with
  | false =>
      rw [Ready] at h
      rw [h]
      trivial
  | true =>
      obtain ⟨g, rfl, hg⟩ := h
      exact hg l s hinv

theorem wpVisit_of_spared {φ : Type} {A : Discipline σ ε φ}
    (hA : A.Spares T) {t : σ.Table} {q : Scan σ t} (hallows : A.Allows q)
    {H : Guard σ} {b : Bool} (hready : C.Ready b H)
    {post : List (σ.Row t) → Local σ → Shared σ → Prop}
    (hpost : ∀ rows (l : Local σ) s, q.Picks rows →
      Spared T l.session.writes → post rows l s) (todo : List σ.Key)
    {acc : List (σ.Row t)} (hacc : q.Picks acc) {l : Local σ} {s : Shared σ}
    (hl : Spared T l.session.writes) :
    C.wpVisit p q H post todo acc l s := by
  induction todo generalizing acc l s with
  | nil =>
      exact fun s' _ hinv => ⟨hready.fails l hinv, hpost acc l s' hacc hl⟩
  | cons key todo ih =>
      intro s' _ hinv
      refine ⟨hready.fails l hinv, ?_⟩
      split
      · exact hpost acc l s' hacc hl
      · refine ⟨fun _ => ih hacc hl, ?_⟩
        cases hvisit : q.visit (l.view s') key with
        | skip => exact ih hacc hl
        | failed => trivial
        | keep r ws refs =>
            exact ih (hacc.append (Scan.picks_of_visit hvisit))
              (hl.append (hA.visit hallows hvisit))

/-- A client keeps a contract about tables that its discipline spares. -/
theorem wp_of_spared {A : Discipline σ ε φ} {S : Standing σ φ → α → Prop}
    (hA : A.Spares T) (hframes : C.Frames p T) {prog : Prog σ ε α}
    {f : Standing σ φ} (h : A.Follows S prog f) {b : Bool}
    (hbracketed : prog.Bracketed (fun b _ => b = false) b) {H : Guard σ}
    (hready : C.Ready b H) {l : Local σ} {s : Shared σ}
    (hl : Spared T l.session.writes) :
    C.wp p (fun _ _ _ => True) (fun _ _ _ => True) prog H l s := by
  have hnone : ∀ l : Local σ, Spared T l.rolledBack.session.writes :=
    fun _ x hx => nomatch hx
  induction prog generalizing f b H l s with
  | ret a =>
      change b = false at hbracketed
      subst hbracketed
      exact ⟨hready, fun _ _ _ => trivial⟩
  | raise e =>
      intro s' _ hinv
      cases H with
      | none => trivial
      | some g => exact hready.fails l hinv
  | halt => exact fun s' _ hinv => hready.fails l hinv
  | query k ih =>
      exact fun s' _ hinv => ⟨hready.fails l hinv,
        ih _ (h _) (hbracketed _) hready hl⟩
  | scan t q k ih =>
      refine fun s' _ hinv => ⟨hready.fails l hinv, fun keys _ => ?_⟩
      refine wpVisit_of_spared hA h.1 hready (fun rows l s hrows hl => ?_) keys
        (Scan.picks_nil q) hl
      exact ih rows (h.2 rows hrows) (hbracketed rows hrows) hready hl
  | visit t q todo acc k ih =>
      refine wpVisit_of_spared hA h.1 hready (fun rows l s hrows hl => ?_) todo
        h.2.1 hl
      exact ih rows (h.2.2 rows hrows) (hbracketed.2 rows hrows) hready hl
  | insert t r k ih =>
      rw [wp]
      intro s' _ hinv
      refine ⟨hready.fails l hinv, ?_⟩
      split
      · exact ih _ (h.2.1 _) (hbracketed _) hready hl
      · refine ih _ h.2.2 (hbracketed _) hready (hl.append ?_)
        simpa [Spared] using hA.adds h.1
  | fresh k ih =>
      exact fun s' _ hinv => ⟨hready.fails l hinv,
        fun n _ => ih n (h n) (hbracketed n) hready hl⟩
  | call c k ih =>
      exact fun s' _ hinv => ⟨hready.fails l hinv,
        fun n => ih n (h.2 n) (hbracketed n) hready hl⟩
  | commit k ih =>
      refine fun s' _ hinv => ⟨hready.fails l hinv, fun c hc hassume => ?_⟩
      obtain ⟨hguar, hafter⟩ := hframes l s' c hinv hc hassume hl
      exact ⟨hguar, hafter, hready.fails _ hafter,
        ih h.2 hbracketed hready (hnone l)⟩
  | rollback k ih =>
      exact fun s' _ hinv => ⟨hready.fails l hinv,
        ih h hbracketed hready (hnone l)⟩
  | guarded g k ihg ihk =>
      refine fun s' _ hinv => ⟨hready.fails l hinv,
        ihk h.2.2 hbracketed.2 ⟨_, rfl, fun l s _ => ?_⟩ hl⟩
      exact ihg (h.2.1 f.phase) hbracketed.1 rfl (hnone l)
  | unguard k ih =>
      exact fun s' _ hinv => ⟨hready.fails l hinv,
        ih h hbracketed rfl hl⟩

end Contract

end ReadCommitted
