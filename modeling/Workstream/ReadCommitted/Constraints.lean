import Mathlib.Data.Set.Insert
import Workstream.ReadCommitted.Invariants

/-!
# Constraints on rows

The rows of a table meet conditions on their columns and refer to rows of other
tables.  Nothing is deleted from a table that others refer to, so that a row
that a client has seen there stays: what it knows to be there only grows, until
it rolls back.  A program is checked against the constraints on its own,
whatever the other clients do, as long as they are checked as well.
-/

namespace ReadCommitted

variable {σ : Schema} {ε α β : Type}

/-- Conditions on the columns of a row, and the rows to which it refers. -/
structure Constraints (σ : Schema) where
  row : {t : σ.Table} → σ.Row t → Prop
  refs : {t : σ.Table} → σ.Row t → List σ.Ref
  permanent : σ.Table → Prop

namespace Constraints

variable (R : Constraints σ)

/-- The rows of `s` that stay. -/
def known (s : Store σ) : Set σ.Ref :=
  {ref | R.permanent ref.1 ∧ (s ref.1).lookup ref.2 ≠ none}

/-- `r` meets the constraints where the rows of `K` are there. -/
structure Admits (K : Set σ.Ref) {t : σ.Table} (r : σ.Row t) : Prop where
  row : R.row r
  refs : ∀ ref ∈ R.refs r, ref ∈ K

/-- All rows meet the constraints. -/
def Valid (s : Store σ) : Prop :=
  ∀ t (r : σ.Row t), r ∈ (s t).rows → R.Admits (R.known s) r

/-- What the constraints let a statement do to `r`. -/
def Allows (K : Set σ.Ref) {t : σ.Table} (r : σ.Row t) :
    Effect (σ.Row t) → Prop
  | .lock => True
  | .write r' => σ.key r' = σ.key r ∧ R.Admits K r'
  | .delete => ¬R.permanent t
  | .reject => False

/-- The next statement of the program meets the constraints on what it
writes. -/
def Meets (s : Store σ) : Prog σ ε α → Prop
  | .insert _ r _ => R.Admits (R.known s) r
  | .visit t q (key :: _) _ _ =>
      ∀ r, (s t).lookup key = some r → q.pred r = true →
        R.Allows (R.known s) r (q.effect r)
  | _ => True

/-- A statement that is turned down meets a unique index. -/
def OnlyClashes (s : Store σ) : Prog σ ε α → Prop
  | .visit t q (key :: _) _ _ => q.visit s key = .failed →
      ∃ r r', (s t).lookup key = some r ∧ q.effect r = .write r' ∧
        s.clash t r' ≠ none
  | _ => True

/-! ## Checking a program -/

structure Found (K : Set σ.Ref) {t : σ.Table} (r : σ.Row t) : Prop where
  admits : R.Admits K r
  known : R.permanent t → (t, σ.key r) ∈ K

/-- A locking statement keeps the constraints, whatever becomes known. -/
def Keeps (K : Set σ.Ref) {t : σ.Table} (q : Scan σ t) : Prop :=
  ∀ K', K ⊆ K' → ∀ r, R.Found K' r → q.pred r = true →
    R.Allows K' r (q.effect r)

/-- Where the rows of `K` are known, all that the program is going to write
meets the constraints, and it returns with `Q`. -/
def Sends (Q : Set σ.Ref → α → Prop) : Prog σ ε α → Set σ.Ref → Prop
  | .ret a, K => Q K a
  | .raise _, _ => True
  | .halt, _ => True
  | .query k, K =>
      ∀ s, R.Valid s → K ⊆ R.known s → Sends Q (k s) (R.known s)
  | .scan _ q k, K =>
      R.Keeps K q ∧ ∀ rows K', K ⊆ K' → (∀ r ∈ rows, R.Found K' r) →
        Sends Q (k rows) K'
  | .visit _ q _ acc k, K =>
      (∀ r ∈ acc, R.Found K r) ∧ R.Keeps K q ∧
        ∀ rows K', K ⊆ K' → (∀ r ∈ rows, R.Found K' r) →
          Sends Q (k rows) K'
  | .insert _ r k, K =>
      R.Admits K r ∧ (∀ e, Sends Q (k (some e)) K) ∧
        ∀ K', K ⊆ K' → R.Found K' r → Sends Q (k none) K'
  | .fresh k, K => ∀ n, Sends Q (k n) K
  | .call _ k, K => ∀ n, Sends Q (k n) K
  | .commit k, K => Sends Q k K
  | .rollback k, _ => Sends Q k ∅
  | .guarded handler k, K => Sends Q handler ∅ ∧ Sends Q k K
  | .unguard k, K => Sends Q k K

variable {R} {P Q : Set σ.Ref → α → Prop} {K K' : Set σ.Ref}

theorem Admits.mono {t : σ.Table} {r : σ.Row t} (h : R.Admits K r)
    (hK : K ⊆ K') : R.Admits K' r where
  row := h.row
  refs := fun ref href => hK (h.refs ref href)

theorem Found.mono {t : σ.Table} {r : σ.Row t} (h : R.Found K r)
    (hK : K ⊆ K') : R.Found K' r where
  admits := h.admits.mono hK
  known := fun ht => hK (h.known ht)

theorem Keeps.mono {t : σ.Table} {q : Scan σ t} (h : R.Keeps K q)
    (hK : K ⊆ K') : R.Keeps K' q :=
  fun K'' hK' => h K'' (hK.trans hK')

/-- The rows of a valid store. -/
theorem Valid.found {s : Store σ} (h : R.Valid s) {t : σ.Table} {r : σ.Row t}
    (hr : r ∈ (s t).rows) : R.Found (R.known s) r where
  admits := h t r hr
  known := by
    intro ht
    refine ⟨ht, ?_⟩
    rw [Relation.lookup_key hr]
    exact Option.some_ne_none r

theorem Valid.found_lookup {s : Store σ} (h : R.Valid s) {t : σ.Table}
    {k : σ.Key} {r : σ.Row t} (hr : (s t).lookup k = some r) :
    R.Found (R.known s) r :=
  h.found (Relation.mem_of_lookup hr)

theorem Meets.onlyClashes {s : Store σ} {prog : Prog σ ε α}
    (h : R.Meets s prog) : OnlyClashes s prog := by
  cases prog with
  | visit t q todo acc k =>
      cases todo with
      | nil => trivial
      | cons key todo =>
          intro hfailed
          unfold Scan.visit at hfailed
          split at hfailed
          · cases hfailed
          · next r hlook =>
              split at hfailed
              · next hpred =>
                  have hallows := h r hlook hpred
                  cases heffect : q.effect r with
                  | lock => simp [heffect] at hfailed
                  | delete => simp [heffect] at hfailed
                  | reject =>
                      rw [heffect] at hallows
                      exact hallows.elim
                  | write r' =>
                      simp only [heffect] at hfailed hallows
                      have hkey : σ.key r' = key :=
                        hallows.1.trans (Relation.key_of_lookup hlook)
                      refine ⟨r, r', hlook, heffect, fun hnone => ?_⟩
                      simp [hkey, hnone] at hfailed
              · cases hfailed
  | _ => trivial

section Rules

variable {P : Set σ.Ref → β → Prop} {f : β → Prog σ ε α}

theorem sends_bind {x : Prog σ ε β} (h : R.Sends P x K)
    (hf : ∀ b K', P K' b → R.Sends Q (f b) K') :
    R.Sends Q (x >>= f) K := by
  change R.Sends Q (x.bind f) K
  induction x generalizing K with
  | ret b => exact hf b K h
  | raise | halt => trivial
  | query k ih => exact fun s hs hK => ih s (h s hs hK)
  | scan t q k ih =>
      exact ⟨h.1, fun rows K' hK hrows => ih rows (h.2 rows K' hK hrows)⟩
  | visit t q todo acc k ih =>
      exact ⟨h.1, h.2.1, fun rows K' hK hrows =>
        ih rows (h.2.2 rows K' hK hrows)⟩
  | insert t r k ih =>
      exact ⟨h.1, fun e => ih (some e) (h.2.1 e),
        fun K' hK hr => ih none (h.2.2 K' hK hr)⟩
  | fresh k ih => exact fun n => ih n (h n)
  | call c k ih => exact fun n => ih n (h n)
  | commit k ih => exact ih h
  | rollback k ih => exact ih h
  | guarded g k ihg ihk => exact ⟨ihg h.1, ihk h.2⟩
  | unguard k ih => exact ih h

theorem sends_map {x : Prog σ ε β} {g : β → α}
    (h : R.Sends (fun K b => Q K (g b)) x K) : R.Sends Q (g <$> x) K :=
  sends_bind (P := fun K b => Q K (g b)) h fun _ _ hb => hb

theorem sends_select_bind {q : Store σ → β}
    (h : ∀ s, R.Valid s → K ⊆ R.known s → R.Sends Q (f (q s)) (R.known s)) :
    R.Sends Q (Prog.select q >>= f) K :=
  h

theorem sends_locking_bind {t : σ.Table} {q : Scan σ t}
    {f : List (σ.Row t) → Prog σ ε α} (hq : R.Keeps K q)
    (h : ∀ rows K', K ⊆ K' → (∀ r ∈ rows, R.Found K' r) →
      R.Sends Q (f rows) K') : R.Sends Q (Prog.locking q >>= f) K :=
  ⟨hq, h⟩

theorem sends_insertRow_bind {t : σ.Table} {r : σ.Row t}
    {f : Option σ.Key → Prog σ ε α} (hr : R.Admits K r)
    (hconflict : ∀ e, R.Sends Q (f (some e)) K)
    (h : ∀ K', K ⊆ K' → R.Found K' r → R.Sends Q (f none) K') :
    R.Sends Q (Prog.insertRow t r >>= f) K :=
  ⟨hr, hconflict, h⟩

theorem sends_insertOrHalt_bind {t : σ.Table} {r : σ.Row t}
    {f : Unit → Prog σ ε α} (hr : R.Admits K r)
    (h : ∀ K', K ⊆ K' → R.Found K' r → R.Sends Q (f ()) K') :
    R.Sends Q (Prog.insertOrHalt t r >>= f) K :=
  ⟨hr, fun _ => trivial, h⟩

theorem sends_freshId_bind {f : ℕ → Prog σ ε α}
    (h : ∀ n, R.Sends Q (f n) K) : R.Sends Q (Prog.freshId >>= f) K :=
  h

theorem sends_callOut_bind {c : σ.Call} {f : ℕ → Prog σ ε α}
    (h : ∀ n, R.Sends Q (f n) K) : R.Sends Q (Prog.callOut c >>= f) K :=
  h

theorem sends_commitNow_bind {f : Unit → Prog σ ε α}
    (h : R.Sends Q (f ()) K) : R.Sends Q (Prog.commitNow >>= f) K :=
  h

theorem sends_ensure_bind {c : Bool} {e : ε} {f : Unit → Prog σ ε α}
    (h : c = true → R.Sends Q (f ()) K) :
    R.Sends Q (Prog.ensure c e >>= f) K := by
  cases c with
  | true => exact h rfl
  | false => trivial

theorem sends_require_bind {o : Option β} {e : ε}
    (h : ∀ b, o = some b → R.Sends Q (f b) K) :
    R.Sends Q (Prog.require o e >>= f) K := by
  cases o with
  | none => trivial
  | some b => exact h b rfl

/-- A statement on one row by its primary key. -/
theorem sends_alterKey_bind {t : σ.Table} {k : σ.Key}
    {effect : σ.Row t → Effect (σ.Row t)} {f : Unit → Prog σ ε α}
    (heffect : ∀ K', K ⊆ K' → ∀ r, R.Found K' r → σ.key r = k →
      R.Allows K' r (effect r))
    (h : ∀ K', K ⊆ K' → R.Sends Q (f ()) K') :
    R.Sends Q (Prog.alterKey t k effect >>= f) K := by
  refine ⟨?_, ?_⟩
  · intro K' hK r hr hpred
    exact heffect K' hK r hr (of_decide_eq_true hpred)
  · intro rows K' hK hrows
    cases rows with
    | nil => trivial
    | cons r rows => exact h K' hK

theorem sends_updateKey_bind {t : σ.Table} {k : σ.Key}
    {g : σ.Row t → σ.Row t} {f : Unit → Prog σ ε α}
    (hkey : ∀ r, σ.key (g r) = σ.key r)
    (hg : ∀ K', K ⊆ K' → ∀ r, R.Admits K' r → R.Admits K' (g r))
    (h : ∀ K', K ⊆ K' → R.Sends Q (f ()) K') :
    R.Sends Q (Prog.updateKey t k g >>= f) K :=
  sends_alterKey_bind
    (fun K' hK r hr _ => ⟨hkey r, hg K' hK r hr.admits⟩) h

theorem sends_deleteKey_bind {t : σ.Table} {k : σ.Key}
    {f : Unit → Prog σ ε α} (ht : ¬R.permanent t)
    (h : ∀ K', K ⊆ K' → R.Sends Q (f ()) K') :
    R.Sends Q (Prog.deleteKey t k >>= f) K :=
  ⟨fun _ _ _ _ _ => ht, fun _ K' hK _ => h K' hK⟩

end Rules

/-! ## What stays -/

section Views

variable {s s' : Store σ} {ws : List (Write σ)}

/-- Writes that delete nothing that stays. -/
def Retain (R : Constraints σ) (ws : List (Write σ)) : Prop :=
  ∀ t k, .del t k ∈ ws → ¬R.permanent t

theorem known_subset_view (h : Retain R ws) :
    R.known s ⊆ R.known (Store.view ws s) := by
  rintro ⟨t, k⟩ ⟨ht, hk⟩
  refine ⟨ht, fun hnone => ?_⟩
  rcases Store.lookup_view_none hnone with hold | hdel
  · exact hk hold
  · exact h t k hdel ht

theorem known_view_mono (h : Retain R ws) (hs : R.known s ⊆ R.known s') :
    R.known (Store.view ws s) ⊆ R.known (Store.view ws s') := by
  rintro ⟨t, k⟩ ⟨ht, hk⟩
  refine ⟨ht, fun hnone => ?_⟩
  rcases Store.lookup_view_none hnone with hold | hdel
  · have hbefore : (s t).lookup k = none := by
      by_contra hsome
      exact (hs ⟨ht, hsome⟩).2 hold
    rw [Store.lookup_view_congr (hbefore.trans hold.symm)] at hk
    exact hk hnone
  · exact h t k hdel ht

theorem valid_view (hs : R.Valid s) (h : Retain R ws)
    (hws : ∀ t (r : σ.Row t), .put t r ∈ ws →
      R.Admits (R.known (Store.view ws s)) r) :
    R.Valid (Store.view ws s) := by
  intro t r hr
  rcases Store.lookup_view_cases (Relation.lookup_key hr) with hold | hput
  · exact (hs t r (Relation.mem_of_lookup hold)).mono (known_subset_view h)
  · exact hws t r hput

end Views

/-! ## Soundness -/

/-- A client has kept the constraints, and is going to. -/
structure Obeys (R : Constraints σ) (Q : Set σ.Ref → α → Prop)
    (s : Store σ) (P : Proc σ ε α) : Prop where
  admits : ∀ t (r : σ.Row t), .put t r ∈ P.session.writes →
    R.Admits (R.known (P.session.view s)) r
  retain : Retain R P.session.writes
  sends : ∃ K ⊆ R.known (P.session.view s), R.Sends Q P.prog K
  handler : ∀ h, P.guard = some h → R.Sends Q h ∅

namespace Obeys

variable {s s' : Store σ} {P : Proc σ ε α} {prog : Prog σ ε α}
  {guard : Option (Prog σ ε α)} {d : Session σ}

theorem valid (h : Obeys R Q s P) (hs : R.Valid s) :
    R.Valid (P.session.view s) :=
  valid_view hs h.retain h.admits

/-- Nothing that stays is taken from a client. -/
theorem mono (h : Obeys R Q s P) (hs : R.known s ⊆ R.known s') :
    Obeys R Q s' P where
  admits := fun t r hr =>
    (h.admits t r hr).mono (known_view_mono h.retain hs)
  retain := h.retain
  sends := by
    obtain ⟨K, hK, hsends⟩ := h.sends
    exact ⟨K, hK.trans (known_view_mono h.retain hs), hsends⟩
  handler := h.handler

theorem resume (h : Obeys R Q s P) (hd : d.writes = P.session.writes)
    (hguard : ∀ g, guard = some g → R.Sends Q g ∅)
    (hK : K ⊆ R.known (P.session.view s)) (hsends : R.Sends Q prog K) :
    Obeys R Q s { prog, guard, session := d } := by
  have hview : d.view s = P.session.view s := by
    unfold Session.view
    rw [hd]
  refine ⟨?_, ?_, ?_, hguard⟩
  · intro t r hr
    change .put t r ∈ d.writes at hr
    change R.Admits (R.known (d.view s)) r
    rw [hview]
    exact h.admits t r (hd ▸ hr)
  · change Retain R d.writes
    rw [hd]
    exact h.retain
  · change ∃ K ⊆ R.known (d.view s), R.Sends Q prog K
    rw [hview]
    exact ⟨K, hK, hsends⟩

theorem write (h : Obeys R Q s P) {ws : List (Write σ)}
    (hd : d.writes = P.session.writes ++ ws) (hws : Retain R ws)
    (hputs : ∀ t (r : σ.Row t), .put t r ∈ ws →
      R.Admits (R.known (P.session.view s)) r)
    (hguard : ∀ g, guard = some g → R.Sends Q g ∅)
    (hsends : R.Sends Q prog (R.known (d.view s))) :
    Obeys R Q s { prog, guard, session := d } := by
  have hview : d.view s = Store.view ws (P.session.view s) := by
    unfold Session.view
    rw [hd, Store.view_append]
  have hknown : R.known (P.session.view s) ⊆ R.known (d.view s) := by
    rw [hview]
    exact known_subset_view hws
  refine ⟨?_, ?_, ⟨_, Set.Subset.rfl, hsends⟩, hguard⟩
  · intro t r hr
    change .put t r ∈ d.writes at hr
    rw [hd] at hr
    rcases List.mem_append.mp hr with hold | hnew
    · exact (h.admits t r hold).mono hknown
    · exact (hputs t r hnew).mono hknown
  · intro t k hk
    change .del t k ∈ d.writes at hk
    rw [hd] at hk
    rcases List.mem_append.mp hk with hold | hnew
    · exact h.retain t k hold
    · exact hws t k hnew

/-- A client that has rolled back, or committed. -/
theorem fresh (hd : d.writes = [])
    (hguard : ∀ g, guard = some g → R.Sends Q g ∅)
    (hK : K ⊆ R.known s) (hsends : R.Sends Q prog K) :
    Obeys R Q s { prog, guard, session := d } := by
  have hview : d.view s = s := by
    unfold Session.view
    rw [hd]
    rfl
  refine ⟨?_, ?_, ?_, hguard⟩
  · intro t r hr
    change .put t r ∈ d.writes at hr
    rw [hd] at hr
    cases hr
  · intro t k hk
    change .del t k ∈ d.writes at hk
    rw [hd] at hk
    cases hk
  · change ∃ K ⊆ R.known (d.view s), R.Sends Q prog K
    rw [hview]
    exact ⟨K, hK, hsends⟩

/-- The next statement of such a client. -/
theorem meets (h : Obeys R Q s P) (hs : R.Valid s) :
    R.Meets (P.session.view s) P.prog := by
  obtain ⟨K, hK, hsends⟩ := h.sends
  cases hprog : P.prog with
  | insert t r k =>
      rw [hprog] at hsends
      exact hsends.1.mono hK
  | visit t q todo acc k =>
      rw [hprog] at hsends
      cases todo with
      | nil => trivial
      | cons key todo =>
          intro r hr hpred
          exact hsends.2.1 _ hK r ((h.valid hs).found_lookup hr) hpred
  | _ => trivial

end Obeys

open World

variable {w w' : World σ ε α} {p : Pid}

theorem obeys_rolledBack {guard : Option (Prog σ ε α)} {prog : Prog σ ε α}
    (hguard : ∀ g, guard = some g → R.Sends Q g ∅)
    (hsends : R.Sends Q prog ∅) :
    Obeys R Q w.store ((w.rolledBack p prog guard).procs p) := by
  have hproc : (w.rolledBack p prog guard).procs p =
      { prog, guard, session := (w.session p).discard } := by
    simp [rolledBack, setProc]
  rw [hproc]
  exact Obeys.fresh rfl hguard (Set.empty_subset _) hsends

/-- A handler takes over without knowing anything. -/
theorem obeys_failed
    (hguard : ∀ g, (w.procs p).guard = some g → R.Sends Q g ∅) :
    Obeys R Q w.store ((w.failed p).procs p) := by
  apply obeys_rolledBack
  · simp
  · cases hg : (w.procs p).guard with
    | none => trivial
    | some g => exact hguard g hg

theorem obeys_resume (h : Obeys R Q w.store (w.procs p)) {prog : Prog σ ε α}
    {d : Session σ} (hd : d.writes = (w.session p).writes)
    (hK : K ⊆ R.known (w.view p)) (hsends : R.Sends Q prog K) :
    Obeys R Q w.store ((w.resume p prog d).procs p) := by
  have hproc : (w.resume p prog d).procs p =
      { prog, guard := (w.procs p).guard, session := d } := by
    simp [World.resume, setProc]
  rw [hproc]
  exact h.resume hd h.handler hK hsends

theorem obeys_setProc (h : Obeys R Q w.store (w.procs p))
    {prog : Prog σ ε α} {guard : Option (Prog σ ε α)}
    (hguard : ∀ g, guard = some g → R.Sends Q g ∅)
    (hK : K ⊆ R.known (w.view p)) (hsends : R.Sends Q prog K) :
    Obeys R Q w.store
      ((w.setProc p { prog, guard, session := w.session p }).procs p) := by
  have hproc : (w.setProc p { prog, guard, session := w.session p }).procs p =
      { prog, guard, session := w.session p } := by
    simp [setProc]
  rw [hproc]
  exact h.resume rfl hguard hK hsends

/-- A statement that writes a row. -/
theorem obeys_put (h : Obeys R Q w.store (w.procs p)) {t : σ.Table}
    {r : σ.Row t} {refs : List σ.Ref} {prog : Prog σ ε α} {d : Session σ}
    (hd : d.writes = (w.session p).writes ++ [.put t r])
    (hr : R.Admits (R.known (w.view p)) r)
    (hsends : ∀ K', R.known (w.view p) ⊆ K' → R.Found K' r →
      R.Sends Q prog K') :
    Obeys R Q w.store ((w.lockAndResume p refs prog d).procs p) := by
  have hproc : (w.lockAndResume p refs prog d).procs p =
      { prog, guard := (w.procs p).guard, session := d } := by
    simp [lockAndResume, World.resume, setProc]
  have hretain : Retain R [.put t r] := by
    intro u j hj
    cases List.mem_singleton.mp hj
  have hview : d.view w.store = Store.view [.put t r] (w.view p) := by
    unfold Session.view
    rw [hd, Store.view_append]
    rfl
  have hknown : R.known (w.view p) ⊆ R.known (d.view w.store) := by
    rw [hview]
    exact known_subset_view hretain
  rw [hproc]
  refine h.write hd hretain ?_ h.handler (hsends _ hknown ?_)
  · intro u x hx
    cases List.mem_singleton.mp hx
    exact hr
  · refine ⟨hr.mono hknown, fun ht => ⟨ht, ?_⟩⟩
    rw [hview, Store.view_cons, Store.view_nil, Store.write_put_self,
      Relation.lookup_put_self]
    exact Option.some_ne_none r

/-- A statement that deletes a row. -/
theorem obeys_del (h : Obeys R Q w.store (w.procs p)) {t : σ.Table}
    {key : σ.Key} {refs : List σ.Ref} {prog : Prog σ ε α} {d : Session σ}
    (hd : d.writes = (w.session p).writes ++ [.del t key])
    (ht : ¬R.permanent t)
    (hsends : ∀ K', R.known (w.view p) ⊆ K' → R.Sends Q prog K') :
    Obeys R Q w.store ((w.lockAndResume p refs prog d).procs p) := by
  have hproc : (w.lockAndResume p refs prog d).procs p =
      { prog, guard := (w.procs p).guard, session := d } := by
    simp [lockAndResume, World.resume, setProc]
  have hretain : Retain R [.del t key] := by
    intro u j hj
    cases List.mem_singleton.mp hj
    exact ht
  have hknown : R.known (w.view p) ⊆ R.known (d.view w.store) := by
    unfold Session.view
    rw [hd, Store.view_append]
    exact known_subset_view hretain
  rw [hproc]
  exact h.write hd hretain (by simp) h.handler (hsends _ hknown)

/-- A visit adds the write of its statement, if there is one. -/
theorem obeys_keep (h : Obeys R Q w.store (w.procs p))
    (hs : R.Valid w.store) {t : σ.Table} {q : Scan σ t} {key : σ.Key}
    {todo : List σ.Key} {acc : List (σ.Row t)}
    {k : List (σ.Row t) → Prog σ ε α} {r : σ.Row t} {ws : List (Write σ)}
    {refs refs' : List σ.Ref} (hK : K ⊆ R.known (w.view p))
    (hsends : R.Sends Q (.visit t q (key :: todo) acc k) K)
    (hvisit : q.visit (w.view p) key = .keep r ws refs) :
    Obeys R Q w.store ((w.lockAndResume p refs'
      (.visit t q todo (acc ++ [r]) k)
      (((w.session p).add ws).observe (.kept t r))).procs p) := by
  obtain ⟨hacc, hkeeps, hk⟩ := hsends
  have hnext : ∀ K', R.known (w.view p) ⊆ K' → R.Found K' r →
      R.Sends Q (.visit t q todo (acc ++ [r]) k) K' := by
    intro K' hK' hr
    have hsub := hK.trans hK'
    refine ⟨?_, hkeeps.mono hsub, fun rows K'' hK'' => hk rows K'' (hsub.trans hK'')⟩
    intro x hx
    rcases List.mem_append.mp hx with hx | hx
    · exact (hacc x hx).mono hsub
    · rw [List.mem_singleton.mp hx]
      exact hr
  unfold Scan.visit at hvisit
  cases hlook : (w.view p t).lookup key with
  | none => simp [hlook] at hvisit
  | some x =>
      have hfound := (h.valid hs).found_lookup hlook
      by_cases hpred : q.pred x = true
      · have hallows := hkeeps _ hK x hfound hpred
        simp only [hlook, if_pos hpred] at hvisit
        cases heffect : q.effect x with
        | lock =>
            simp only [heffect] at hvisit
            cases hvisit
            exact obeys_resume h (List.append_nil _) Set.Subset.rfl
              (hnext _ Set.Subset.rfl hfound)
        | delete =>
            simp only [heffect] at hvisit hallows
            cases hvisit
            exact obeys_del h rfl hallows fun K' hK' =>
              hnext K' hK' (hfound.mono hK')
        | reject =>
            simp only [heffect] at hvisit
            cases hvisit
        | write r' =>
            simp only [heffect] at hvisit hallows
            split at hvisit
            · cases hvisit
              exact obeys_put h rfl hallows.2 hnext
            · cases hvisit
      · simp [hlook, hpred] at hvisit

theorem obeys_visitOne (h : Obeys R Q w.store (w.procs p))
    (hs : R.Valid w.store) {t : σ.Table} {q : Scan σ t} {key : σ.Key}
    {todo : List σ.Key} {acc : List (σ.Row t)}
    {k : List (σ.Row t) → Prog σ ε α} (hK : K ⊆ R.known (w.view p))
    (hsends : R.Sends Q (.visit t q (key :: todo) acc k) K)
    (hstep : w.visitOne p q key todo acc k = some w') :
    Obeys R Q w'.store (w'.procs p) := by
  unfold visitOne at hstep
  split at hstep
  · cases hvisit : q.visit (w.view p) key with
    | skip =>
        simp only [hvisit, Option.some.injEq] at hstep
        subst hstep
        exact obeys_resume h rfl hK hsends
    | failed =>
        simp only [hvisit, Option.some.injEq] at hstep
        subst hstep
        exact obeys_failed h.handler
    | keep r ws refs =>
        simp only [hvisit] at hstep
        split at hstep
        · cases hstep
          exact obeys_keep h hs hK hsends hvisit
        · cases hstep
  · split at hstep
    · cases hstep
      exact obeys_resume h rfl hK hsends
    · cases hstep

theorem obeys_committed (h : Obeys R Q w.store (w.procs p))
    {k : Prog σ ε α} (hK : K ⊆ R.known (w.view p)) (hsends : R.Sends Q k K) :
    Obeys R Q (w.view p) ((w.committed p k).procs p) := by
  have hproc : (w.committed p k).procs p =
      { prog := k, guard := (w.procs p).guard
        session := (w.session p).discard.observe .committed } := by
    simp [World.committed, World.resume, setProc]
  rw [hproc]
  exact Obeys.fresh rfl h.handler hK hsends

/-- What a client obeys now, it obeys after its next statement. -/
theorem obeys_advance (h : Obeys R Q w.store (w.procs p))
    (hs : R.Valid w.store) {x : Input σ} (hstep : w.advance p x = some w') :
    Obeys R Q w'.store (w'.procs p) := by
  obtain ⟨K, hK, hsends⟩ := h.sends
  change K ⊆ R.known (w.view p) at hK
  unfold advance at hstep
  generalize hprog : (w.procs p).prog = prog at hstep hsends
  have hcrash : Obeys R Q w.store ((w.rolledBack p .halt none).procs p) :=
    obeys_rolledBack (by simp) trivial
  unfold perform at hstep
  split at hstep
  all_goals try cases hstep
  all_goals try exact hcrash
  all_goals try exact obeys_failed h.handler
  · exact obeys_resume h rfl Set.Subset.rfl (hsends _ (h.valid hs) hK)
  · split at hstep
    · cases hstep
      exact obeys_resume h rfl hK ⟨by simp, hsends⟩
    · cases hstep
  · obtain ⟨hacc, hkeeps, hk⟩ := hsends
    split at hstep
    · cases hstep
      exact obeys_resume h rfl hK (hk _ K Set.Subset.rfl hacc)
    · split at hstep
      · cases hstep
        exact obeys_resume h rfl hK (hk _ K Set.Subset.rfl hacc)
      · exact obeys_visitOne h hs hK ⟨hacc, hkeeps, hk⟩ hstep
  · split at hstep
    · split at hstep
      · cases hstep
        exact obeys_resume h rfl hK (hsends.2.1 _)
      · cases hstep
        exact obeys_put h rfl (hsends.1.mono hK) fun K' hK' =>
          hsends.2.2 K' (hK.trans hK')
    · cases hstep
  · split at hstep
    · cases hstep
    · cases hstep
      exact obeys_resume h rfl hK (hsends _)
  · exact obeys_resume h rfl hK (hsends _)
  · exact obeys_committed h hK hsends
  · next k =>
      exact obeys_failed (w := w.committed p k)
        (obeys_committed (k := k) h hK hsends).handler
  · exact obeys_rolledBack (w := w) h.handler hsends
  · next g k =>
      refine obeys_setProc h (fun x hx => ?_) hK hsends.2
      rw [← Option.some.inj hx]
      exact hsends.1
  · exact obeys_setProc h (by simp) hK hsends

/-- The tables that others refer to only grow. -/
theorem known_of_advance (h : Obeys R Q w.store (w.procs p)) {x : Input σ}
    (hstep : w.advance p x = some w') : R.known w.store ⊆ R.known w'.store := by
  rcases (change_of_advance hstep).log with ⟨_, hstore⟩ | ⟨_, _, hstore⟩
  · rw [hstore]
  · rw [hstore]
    exact known_subset_view h.retain

theorem valid_of_advance (h : Obeys R Q w.store (w.procs p))
    (hs : R.Valid w.store) {x : Input σ} (hstep : w.advance p x = some w') :
    R.Valid w'.store := by
  rcases (change_of_advance hstep).log with ⟨_, hstore⟩ | ⟨_, _, hstore⟩
  · rw [hstore]
    exact hs
  · rw [hstore]
    exact h.valid hs

/-- Clients that are checked one at a time keep the constraints together. -/
theorem obeys_of_reachable {s₀ : Store σ} {code : Pid → Prog σ ε α}
    (hs : R.Valid s₀) (hcode : ∀ p, R.Sends Q (code p) (R.known s₀))
    (hreach : Reachable (World.start s₀ code) w) :
    R.Valid w.store ∧ ∀ p, Obeys R Q w.store (w.procs p) := by
  induction hreach with
  | start =>
      exact ⟨hs, fun p => Obeys.fresh rfl (by simp) Set.Subset.rfl (hcode p)⟩
  | @step w w' p x _ hstep ih =>
      obtain ⟨hvalid, hobeys⟩ := ih
      refine ⟨valid_of_advance (hobeys p) hvalid hstep, fun q => ?_⟩
      by_cases hq : q = p
      · exact hq ▸ obeys_advance (hobeys p) hvalid hstep
      · rw [((change_of_advance hstep).others hq).1]
        exact (hobeys q).mono (known_of_advance (hobeys p) hstep)

/-- Every statement of such clients meets the constraints. -/
theorem meets_of_reachable {s₀ : Store σ} {code : Pid → Prog σ ε α}
    (hs : R.Valid s₀) (hcode : ∀ p, R.Sends Q (code p) (R.known s₀))
    (hreach : Reachable (World.start s₀ code) w) (p : Pid) :
    R.Valid (w.view p) ∧ R.Meets (w.view p) (w.procs p).prog := by
  obtain ⟨hvalid, hobeys⟩ := obeys_of_reachable hs hcode hreach
  exact ⟨(hobeys p).valid hvalid, (hobeys p).meets hvalid⟩

end Constraints

end ReadCommitted
