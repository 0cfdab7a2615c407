import Mathlib.Logic.Relation
import Workstream.ReadCommitted.Invariants

/-!
# Disciplines

A discipline says of a client which rows it may add, alter and erase, what it
may call and raise in each phase of its run, and which rows a transaction must
have added when it commits.  A program is checked against its discipline
statement by statement, without a word about the other clients.  In every run
each commit then edits every row as the discipline of its client allows, and
the calls and commits of each client are lawful.
-/

namespace ReadCommitted

variable {σ : Schema} {ε φ α β : Type}

/-- What may be done to the rows. -/
structure Licence (σ : Schema) where
  adds : {t : σ.Table} → σ.Row t → Prop
  alters : {t : σ.Table} → σ.Row t → σ.Row t → Prop
  erases : {t : σ.Table} → σ.Row t → Prop

/-! ## Edits -/

namespace Licence

variable (L : Licence σ)

/-- What a statement does to the row with one key. -/
inductive Edit {t : σ.Table} : Option (σ.Row t) → Option (σ.Row t) → Prop where
  | add (r : σ.Row t) (h : L.adds r) : Edit none (some r)
  | alter (r r' : σ.Row t) (hkey : σ.key r' = σ.key r) (h : L.alters r r') :
      Edit (some r) (some r')
  | erase (r : σ.Row t) (h : L.erases r) : Edit (some r) none

/-- What several statements do to it. -/
abbrev Edits {t : σ.Table} : Option (σ.Row t) → Option (σ.Row t) → Prop :=
  Relation.ReflTransGen L.Edit

/-- A write that some row may have led to. -/
def Licenses : Write σ → Prop
  | .put _ r => L.adds r ∨ ∃ r₀, L.alters r₀ r
  | .del t k => ∃ r : σ.Row t, σ.key r = k ∧ L.erases r

variable {L} {t : σ.Table} {r : σ.Row t} {o : Option (σ.Row t)}

/-- A row that is not erased is altered step by step. -/
theorem Edits.kept (h : L.Edits (some r) o)
    (herases : ∀ x : σ.Row t, ¬L.erases x) :
    ∃ r', o = some r' ∧ Relation.ReflTransGen L.alters r r' := by
  induction h with
  | refl => exact ⟨r, rfl, .refl⟩
  | tail _ hedit ih =>
      obtain ⟨x, rfl, hx⟩ := ih
      cases hedit with
      | alter _ r' _ halters => exact ⟨r', rfl, hx.tail halters⟩
      | erase _ herase => exact absurd herase (herases x)

/-- A row that appears has been added, and then altered. -/
theorem Edits.born {r' : σ.Row t} (h : L.Edits o (some r'))
    (hnone : o = none) :
    ∃ r, L.adds r ∧ Relation.ReflTransGen L.alters r r' := by
  generalize ho' : some r' = o' at h
  induction h generalizing r' with
  | refl => exact absurd (hnone.symm.trans ho'.symm) (by simp)
  | tail _ hedit ih =>
      cases hedit with
      | add x hadds =>
          cases ho'
          exact ⟨r', hadds, .refl⟩
      | alter x y _ halters =>
          cases ho'
          obtain ⟨r, hadds, hr⟩ := ih rfl
          exact ⟨r, hadds, hr.tail halters⟩
      | erase => cases ho'

/-- A table to which rows are not added: what is gone stays gone. -/
theorem Edits.of_none {o' : Option (σ.Row t)} (h : L.Edits o o')
    (hadds : ∀ x : σ.Row t, ¬L.adds x) (hnone : o = none) : o' = none := by
  induction h with
  | refl => exact hnone
  | tail _ hedit ih =>
      cases hedit with
      | add x h => exact absurd h (hadds x)
      | alter x y _ h => exact absurd ih (by simp)
      | erase x h => rfl

theorem Edits.mono {M : Licence σ} {o' : Option (σ.Row t)}
    (h : L.Edits o o') (hadds : ∀ x : σ.Row t, L.adds x → M.adds x)
    (halters : ∀ x y : σ.Row t, L.alters x y → M.alters x y)
    (herases : ∀ x : σ.Row t, L.erases x → M.erases x) : M.Edits o o' := by
  refine Relation.ReflTransGen.mono (fun u v hedit => ?_) _ _ h
  cases hedit with
  | add x h => exact .add x (hadds x h)
  | alter x y hkey h => exact .alter x y hkey (halters x y h)
  | erase x h => exact .erase x (herases x h)

/-- A write edits one row. -/
theorem edits_write {s v : Store σ}
    (h : ∀ t k, L.Edits ((s t).lookup k) ((v t).lookup k)) (x : Write σ)
    (hx : L.Edit ((v x.ref.1).lookup x.ref.2)
      ((v.write x x.ref.1).lookup x.ref.2)) (t : σ.Table) (k : σ.Key) :
    L.Edits ((s t).lookup k) ((v.write x t).lookup k) := by
  by_cases href : x.ref = (t, k)
  · rw [href] at hx
    exact (h t k).tail hx
  · rw [Store.lookup_write_of_ne href]
    exact h t k

end Licence

/-! ## Writes to a table -/

namespace Store

theorem write_of_ne {s : Store σ} {t : σ.Table} {x : Write σ}
    (h : x.ref.1 ≠ t) : s.write x t = s t := by
  change view [x] s t = s t
  apply view_of_table_ne
  simpa using h

/-- What writes make of a table depends on that table only. -/
theorem view_congr_table {s s' : Store σ} {t : σ.Table} (h : s t = s' t)
    (ws : List (Write σ)) : view ws s t = view ws s' t := by
  induction ws generalizing s s' with
  | nil => exact h
  | cons x ws ih =>
      apply ih
      cases x with
      | put u r =>
          by_cases hu : t = u
          · subst hu
            rw [write_put_self, write_put_self, h]
          · rw [write_put_of_ne s r hu, write_put_of_ne s' r hu, h]
      | del u k =>
          by_cases hu : t = u
          · subst hu
            rw [write_del_self, write_del_self, h]
          · rw [write_del_of_ne s k hu, write_del_of_ne s' k hu, h]

theorem view_filter (ws : List (Write σ)) (s : Store σ) (t : σ.Table) :
    view (ws.filter fun x => x.ref.1 = t) s t = view ws s t := by
  induction ws generalizing s with
  | nil => rfl
  | cons x ws ih =>
      by_cases hx : x.ref.1 = t
      · rw [List.filter_cons_of_pos (by simpa using hx)]
        exact ih _
      · rw [List.filter_cons_of_neg (by simpa using hx), ih]
        exact view_congr_table (write_of_ne hx).symm ws

end Store

/-- The row that a write puts into a table. -/
def Write.rowIn (t : σ.Table) : Write σ → Option (σ.Row t)
  | .put u r => if h : u = t then some (h ▸ r) else none
  | .del _ _ => none

@[simp] theorem Write.rowIn_put_self {t : σ.Table} (r : σ.Row t) :
    (Write.put t r).rowIn t = some r := by
  simp [rowIn]

theorem Write.eq_put_of_rowIn {t : σ.Table} {x : Write σ} {r : σ.Row t}
    (h : x.rowIn t = some r) : x = .put t r := by
  cases x with
  | put u r' =>
      by_cases hu : u = t
      · subst hu
        rw [rowIn_put_self] at h
        rw [Option.some.inj h]
      · simp [rowIn, hu] at h
  | del u k => cases h

theorem Write.rowIn_of_ne {t : σ.Table} {x : Write σ} (h : x.ref.1 ≠ t) :
    x.rowIn t = none := by
  cases hx : x.rowIn t with
  | none => rfl
  | some r => exact absurd (congrArg (·.ref.1) (eq_put_of_rowIn hx)) h

/-- The rows that writes put into a table. -/
def Write.rowsIn (t : σ.Table) (ws : List (Write σ)) : List (σ.Row t) :=
  ws.filterMap (Write.rowIn t)

theorem Write.rowsIn_filter (t : σ.Table) (ws : List (Write σ)) :
    rowsIn t ws = rowsIn t (ws.filter fun x => x.ref.1 = t) := by
  rw [rowsIn, rowsIn, List.filterMap_filter]
  apply List.filterMap_congr
  intro x _
  by_cases hx : x.ref.1 = t
  · simp [hx]
  · simp [hx, rowIn_of_ne hx]

/-- One new row. -/
theorem Store.view_rows_of_one {s : Store σ} {t : σ.Table} {r : σ.Row t}
    {ws : List (Write σ)}
    (hone : (ws.filter fun x => x.ref.1 = t) = [.put t r])
    (hnew : (s t).lookup (σ.key r) = none) :
    (view ws s t).rows = (s t).rows ++ [r] := by
  rw [← view_filter, hone]
  change (s.write (.put t r) t).rows = _
  rw [write_put_self, Relation.put_rows_of_not_mem hnew]

/-- No row. -/
theorem Store.view_of_none {s : Store σ} {t : σ.Table} {ws : List (Write σ)}
    (hnone : (ws.filter fun x => x.ref.1 = t) = []) : view ws s t = s t := by
  rw [← view_filter, hnone]
  rfl

/-- A table to which the commits add rows holds them in the order of the
commits. -/
theorem World.Chain.rows_append {s₀ s : Store σ} {t : σ.Table}
    {log : List (Commit σ)} (h : World.Chain s₀ log s)
    (hadds : ∀ c ∈ log, (c.after t).rows =
      (c.before t).rows ++ Write.rowsIn t c.session.writes) :
    (s t).rows = (s₀ t).rows ++
      log.reverse.flatMap fun c => Write.rowsIn t c.session.writes := by
  induction log generalizing s with
  | nil =>
      obtain rfl : s = s₀ := h
      simp
  | cons c log ih =>
      obtain ⟨rfl, hchain⟩ := h
      rw [hadds c List.mem_cons_self,
        ih hchain fun d hd => hadds d (List.mem_cons_of_mem c hd)]
      simp

/-! ## Disciplines -/

/-- A statement that only locks returns rows that it has picked. -/
def Scan.Picks {t : σ.Table} (q : Scan σ t) (rows : List (σ.Row t)) : Prop :=
  (∀ r, q.effect r = .lock) → ∀ r ∈ rows, q.pred r = true

theorem Scan.picks_nil {t : σ.Table} (q : Scan σ t) : q.Picks [] := by
  intro _ r hr
  cases hr

@[simp] theorem Scan.picks_lock {t : σ.Table} (pred : σ.Row t → Bool)
    (skipLocked : Bool) (limit : Option ℕ) (order : σ.Row t → σ.Row t → Bool)
    (rows : List (σ.Row t)) :
    Scan.Picks ⟨pred, fun _ => .lock, skipLocked, limit, order⟩ rows ↔
      ∀ r ∈ rows, pred r = true :=
  ⟨fun h => h fun _ => rfl, fun h _ => h⟩

theorem Scan.Picks.append {t : σ.Table} {q : Scan σ t}
    {rows rows' : List (σ.Row t)} (h : q.Picks rows) (h' : q.Picks rows') :
    q.Picks (rows ++ rows') := by
  intro hlock r hr
  exact (List.mem_append.mp hr).elim (h hlock r) (h' hlock r)

/-- What a statement finds at a key, it returns. -/
theorem Scan.picks_of_visit {t : σ.Table} {q : Scan σ t} {s : Store σ}
    {k : σ.Key} {r : σ.Row t} {ws : List (Write σ)} {refs : List σ.Ref}
    (h : q.visit s k = .keep r ws refs) : q.Picks [r] := by
  intro hlock x hx
  rw [List.mem_singleton.mp hx]
  unfold Scan.visit at h
  cases hlook : (s t).lookup k with
  | none => simp [hlook] at h
  | some r₀ =>
      by_cases hpred : q.pred r₀ = true
      · simp only [hlook, if_pos hpred, hlock] at h
        cases h
        exact hpred
      · simp [hlook, hpred] at h

@[simp] theorem Write.ref_put {t : σ.Table} (r : σ.Row t) :
    (Write.put t r).ref = (t, σ.key r) := rfl

/-- What a client may do.  A phase is what it remembers of its calls and
commits; of its writes it notes some that add rows, and it may try what it
handles itself when it fails. -/
structure Discipline (σ : Schema) (ε φ : Type) extends Licence σ where
  notes : Write σ → Bool
  asks : φ → σ.Call → Prop
  answered : φ → σ.Call → ℕ → φ
  commits : φ → List (Write σ) → Prop
  committed : φ → φ
  raises : φ → ε → Prop
  tries : Prop
  alters_unnoted : ∀ {t : σ.Table} {r r' : σ.Row t}, alters r r' →
    notes (.put t r') = false
  erases_unnoted : ∀ {t : σ.Table} {r : σ.Row t}, erases r →
    notes (.del t (σ.key r)) = false
  noted_kept : ∀ {t : σ.Table} {r : σ.Row t}, notes (.put t r) = true →
    ∀ x : σ.Row t, ¬erases x

/-- Where a client stands: its phase, and what it has noted of its
transaction. -/
structure Standing (σ : Schema) (φ : Type) where
  phase : φ
  noted : List (Write σ) := []

namespace Discipline

/-! ## Checking a program -/

section Follows

variable (A : Discipline σ ε φ)

/-- What a locking statement does to the rows that it picks is allowed. -/
def Allows {t : σ.Table} (q : Scan σ t) : Prop :=
  ∀ r, q.pred r = true →
    match q.effect r with
    | .lock => True
    | .write r' => A.alters r r'
    | .delete => A.erases r
    | .reject => True

/-- Where a client stands after a write. -/
def note (f : Standing σ φ) (x : Write σ) : Standing σ φ :=
  { f with noted := f.noted ++ [x].filter A.notes }

/-- From here on all that the program does is allowed, and it returns with
`Q`. -/
def Follows (Q : Standing σ φ → α → Prop) : Prog σ ε α → Standing σ φ → Prop
  | .ret a, f => Q f a
  | .raise e, f => A.raises f.phase e
  | .halt, _ => True
  | .query k, f => ∀ s, Follows Q (k s) f
  | .scan _ q k, f =>
      A.Allows q ∧ ∀ rows, q.Picks rows → Follows Q (k rows) f
  | .visit _ q _ acc k, f =>
      A.Allows q ∧ q.Picks acc ∧ ∀ rows, q.Picks rows → Follows Q (k rows) f
  | .insert t r k, f =>
      A.adds r ∧ (∀ e, Follows Q (k (some e)) f) ∧
        Follows Q (k none) (A.note f (.put t r))
  | .fresh k, f => ∀ n, Follows Q (k n) f
  | .call c k, f =>
      A.asks f.phase c ∧
        ∀ n, Follows Q (k n) { f with phase := A.answered f.phase c n }
  | .commit k, f =>
      A.commits f.phase f.noted ∧ Follows Q k ⟨A.committed f.phase, []⟩
  | .rollback k, f => Follows Q k ⟨f.phase, []⟩
  | .guarded handler k, f =>
      A.tries ∧ (∀ phase, Follows Q handler ⟨phase, []⟩) ∧ Follows Q k f
  | .unguard k, f => Follows Q k f

end Follows

section Rules

variable {A : Discipline σ ε φ} {Q : Standing σ φ → α → Prop} {f : Standing σ φ}

@[simp] theorem follows_bind (x : Prog σ ε β) (g : β → Prog σ ε α) :
    A.Follows Q (x >>= g) f ↔
      A.Follows (fun f b => A.Follows Q (g b) f) x f := by
  change A.Follows Q (x.bind g) f ↔ _
  induction x generalizing f with
  | ret | raise | halt => exact Iff.rfl
  | query k ih => exact forall_congr' fun s => ih s
  | scan t q k ih =>
      exact and_congr_right fun _ =>
        forall_congr' fun rows => forall_congr' fun _ => ih rows
  | visit t q todo acc k ih =>
      exact and_congr_right fun _ => and_congr_right fun _ =>
        forall_congr' fun rows => forall_congr' fun _ => ih rows
  | insert t r k ih =>
      exact and_congr_right fun _ =>
        and_congr (forall_congr' fun e => ih (some e)) (ih none)
  | fresh k ih => exact forall_congr' fun n => ih n
  | call c k ih => exact and_congr_right fun _ => forall_congr' fun n => ih n
  | commit k ih => exact and_congr_right fun _ => ih
  | rollback k ih => exact ih
  | guarded h k ihh ihk =>
      exact and_congr_right fun _ =>
        and_congr (forall_congr' fun _ => ihh) ihk
  | unguard k ih => exact ih

@[simp] theorem follows_map (g : β → α) (x : Prog σ ε β) :
    A.Follows Q (g <$> x) f ↔ A.Follows (fun f b => Q f (g b)) x f :=
  follows_bind x fun b => pure (g b)

theorem Follows.mono {P : Standing σ φ → α → Prop} {prog : Prog σ ε α}
    (h : A.Follows P prog f) (hPQ : ∀ f a, P f a → Q f a) :
    A.Follows Q prog f := by
  induction prog generalizing f with
  | ret a => exact hPQ f a h
  | raise | halt => exact h
  | query k ih => exact fun s => ih s (h s)
  | scan t q k ih =>
      exact ⟨h.1, fun rows hrows => ih rows (h.2 rows hrows)⟩
  | visit t q todo acc k ih =>
      exact ⟨h.1, h.2.1, fun rows hrows => ih rows (h.2.2 rows hrows)⟩
  | insert t r k ih =>
      exact ⟨h.1, fun e => ih (some e) (h.2.1 e), ih none h.2.2⟩
  | fresh k ih => exact fun n => ih n (h n)
  | call c k ih => exact ⟨h.1, fun n => ih n (h.2 n)⟩
  | commit k ih => exact ⟨h.1, ih h.2⟩
  | rollback k ih => exact ih h
  | guarded g k ihg ihk =>
      exact ⟨h.1, fun phase => ihg (h.2.1 phase), ihk h.2.2⟩
  | unguard k ih => exact ih h

/-! One rule for each statement, for `simp` to walk through a program. -/

@[simp] theorem follows_pure (a : α) :
    A.Follows Q (pure a) f ↔ Q f a := Iff.rfl

@[simp] theorem follows_ret (a : α) :
    A.Follows Q (.ret a) f ↔ Q f a := Iff.rfl

@[simp] theorem follows_raise (e : ε) :
    A.Follows Q (.raise e) f ↔ A.raises f.phase e := Iff.rfl

@[simp] theorem follows_halt : A.Follows Q .halt f ↔ True := Iff.rfl

@[simp] theorem follows_ite (c : Prop) [Decidable c]
    (x y : Prog σ ε α) : A.Follows Q (if c then x else y) f ↔
      (c → A.Follows Q x f) ∧ (¬c → A.Follows Q y f) := by
  split <;> simp [*]

variable {P : Standing σ φ → β → Prop}

@[simp] theorem follows_select (q : Store σ → β) :
    A.Follows P (Prog.select q) f ↔ ∀ s, P f (q s) := Iff.rfl

@[simp] theorem follows_scan {t : σ.Table} (q : Scan σ t)
    (k : List (σ.Row t) → Prog σ ε α) :
    A.Follows Q (.scan t q k) f ↔
      A.Allows q ∧ ∀ rows, q.Picks rows → A.Follows Q (k rows) f := Iff.rfl

@[simp] theorem follows_insert {t : σ.Table} (r : σ.Row t)
    (k : Option σ.Key → Prog σ ε α) :
    A.Follows Q (.insert t r k) f ↔ A.adds r ∧
      (∀ e, A.Follows Q (k (some e)) f) ∧
        A.Follows Q (k none) (A.note f (.put t r)) := Iff.rfl

@[simp] theorem follows_insertOrHalt {t : σ.Table} (r : σ.Row t)
    {P : Standing σ φ → Unit → Prop} :
    A.Follows P (Prog.insertOrHalt t r) f ↔
      A.adds r ∧ P (A.note f (.put t r)) () :=
  and_congr_right fun _ => and_iff_right fun _ => trivial

@[simp] theorem follows_freshId {P : Standing σ φ → ℕ → Prop} :
    A.Follows P Prog.freshId f ↔ ∀ n, P f n := Iff.rfl

@[simp] theorem follows_callOut (c : σ.Call) {P : Standing σ φ → ℕ → Prop} :
    A.Follows P (Prog.callOut c) f ↔ A.asks f.phase c ∧
      ∀ n, P { f with phase := A.answered f.phase c n } n := Iff.rfl

@[simp] theorem follows_commitNow {P : Standing σ φ → Unit → Prop} :
    A.Follows P Prog.commitNow f ↔
      A.commits f.phase f.noted ∧ P ⟨A.committed f.phase, []⟩ () :=
  Iff.rfl

@[simp] theorem follows_rollbackNow {P : Standing σ φ → Unit → Prop} :
    A.Follows P Prog.rollbackNow f ↔ P ⟨f.phase, []⟩ () := Iff.rfl

@[simp] theorem follows_ensure (c : Bool) (e : ε)
    {P : Standing σ φ → Unit → Prop} :
    A.Follows P (Prog.ensure c e) f ↔
      (c = true → P f ()) ∧ (c = false → A.raises f.phase e) := by
  cases c with
  | true => simp [Prog.ensure]
  | false => simp [Prog.ensure]

@[simp] theorem follows_require (o : Option β) (e : ε) :
    A.Follows P (Prog.require o e) f ↔
      (∀ b, o = some b → P f b) ∧ (o = none → A.raises f.phase e) := by
  cases o with
  | none => simp [Prog.require]
  | some b => simp [Prog.require]

/-- A statement on a row by its primary key goes on where there are rows. -/
@[simp] theorem follows_alterKey {t : σ.Table} (k : σ.Key)
    (effect : σ.Row t → Effect (σ.Row t)) {P : Standing σ φ → Unit → Prop} :
    A.Follows P (Prog.alterKey t k effect) f ↔
      A.Allows (Prog.byKey k effect) ∧
        ((∃ r, (Prog.byKey k effect).Picks [r]) → P f ()) := by
  refine and_congr_right fun _ => ⟨fun h hrow => ?_, fun h rows hrows => ?_⟩
  · obtain ⟨r, hr⟩ := hrow
    exact h [r] hr
  · cases rows with
    | nil => trivial
    | cons r rows =>
        refine h ⟨r, fun hlock x hx => hrows hlock x ?_⟩
        rw [List.mem_singleton.mp hx]
        exact List.mem_cons_self

@[simp] theorem follows_updateKey {t : σ.Table} (k : σ.Key)
    (g : σ.Row t → σ.Row t) {P : Standing σ φ → Unit → Prop} :
    A.Follows P (Prog.updateKey t k g) f ↔
      (∀ r, σ.key r = k → A.alters r (g r)) ∧
        (Nonempty (σ.Row t) → P f ()) := by
  have hallows : A.Allows (Prog.byKey k fun r => .write (g r)) ↔
      ∀ r, σ.key r = k → A.alters r (g r) :=
    forall_congr' fun r => by simp [Prog.byKey]
  have hpicks : (∃ r, (Prog.byKey k fun r => .write (g r)).Picks [r]) ↔
      Nonempty (σ.Row t) := by
    constructor
    · rintro ⟨r, _⟩
      exact ⟨r⟩
    · rintro ⟨r⟩
      refine ⟨r, fun hlock => ?_⟩
      cases hlock r
  rw [Prog.updateKey, follows_alterKey, hallows, hpicks]

@[simp] theorem follows_deleteKey {t : σ.Table} (k : σ.Key)
    {P : Standing σ φ → Unit → Prop} :
    A.Follows P (Prog.deleteKey t k) f ↔
      (∀ r : σ.Row t, σ.key r = k → A.erases r) ∧ P f () := by
  have hallows : A.Allows (Prog.byKey (t := t) k fun _ => .delete) ↔
      ∀ r : σ.Row t, σ.key r = k → A.erases r :=
    forall_congr' fun r => by simp [Prog.byKey]
  change A.Allows _ ∧ (∀ rows : List (σ.Row t), _ → P f ()) ↔ _
  rw [hallows]
  exact and_congr_right fun _ =>
    ⟨fun h => h [] (Scan.picks_nil _), fun h _ _ => h⟩

theorem follows_attempt (body handler : Prog σ ε α) :
    A.Follows Q (Prog.attempt body handler) f ↔
      A.tries ∧ (∀ phase, A.Follows Q handler ⟨phase, []⟩) ∧
        A.Follows Q body f :=
  and_congr_right fun _ => and_congr_right fun _ =>
    follows_bind body fun a => .unguard (.ret a)

@[simp] theorem allows_lock {t : σ.Table} (pred : σ.Row t → Bool)
    (skipLocked : Bool) (limit : Option ℕ) (order : σ.Row t → σ.Row t → Bool) :
    A.Allows ⟨pred, fun _ => .lock, skipLocked, limit, order⟩ ↔ True :=
  iff_true_intro fun _ _ => trivial

@[simp] theorem allows_byKey_lock {t : σ.Table} (k : σ.Key) :
    A.Allows (Prog.byKey (t := t) k fun _ => .lock) ↔ True :=
  iff_true_intro fun _ _ => trivial

@[simp] theorem allows_write {t : σ.Table} (pred : σ.Row t → Bool)
    (g : σ.Row t → σ.Row t) (skipLocked : Bool) (limit : Option ℕ)
    (order : σ.Row t → σ.Row t → Bool) :
    A.Allows ⟨pred, fun r => .write (g r), skipLocked, limit, order⟩ ↔
      ∀ r, pred r = true → A.alters r (g r) := Iff.rfl

@[simp] theorem allows_delete {t : σ.Table} (pred : σ.Row t → Bool)
    (skipLocked : Bool) (limit : Option ℕ)
    (order : σ.Row t → σ.Row t → Bool) :
    A.Allows ⟨pred, fun _ => .delete, skipLocked, limit, order⟩ ↔
      ∀ r, pred r = true → A.erases r := Iff.rfl

end Rules

/-! ## Histories -/

section Histories

variable (A : Discipline σ ε φ) (start : φ)

/-- The phase after these observations, newest first. -/
def phase : List (Obs σ) → φ
  | [] => start
  | .answered c n :: os => A.answered (phase os) c n
  | .committed :: os => A.committed (phase os)
  | _ :: os => phase os

/-- Each call was allowed in its phase. -/
def Lawful : List (Obs σ) → Prop
  | [] => True
  | .answered c _ :: os => A.asks (A.phase start os) c ∧ Lawful os
  | _ :: os => Lawful os

/-- Where the client of a session stands. -/
def standing (d : Session σ) : Standing σ φ where
  phase := A.phase start d.seen
  noted := d.writes.filter A.notes

/-- What a commit does and may do. -/
structure Keeps (c : Commit σ) : Prop where
  edits : ∀ t k, A.Edits ((c.before t).lookup k) ((c.after t).lookup k)
  licensed : ∀ x ∈ c.session.writes, A.Licenses x
  fresh : ∀ x ∈ c.session.writes, A.notes x = true →
    (c.before x.ref.1).lookup x.ref.2 = none
  commits : A.commits (A.phase start c.session.seen)
    (c.session.writes.filter A.notes)

end Histories

/-! ## Soundness -/

open World

/-- A client has followed its discipline, and is going to. -/
structure Obeys (A : Discipline σ ε φ) (start : φ)
    (Q : Standing σ φ → α → Prop) (s : Store σ) (P : Proc σ ε α) : Prop where
  lawful : A.Lawful start P.session.seen
  follows : A.Follows Q P.prog (A.standing start P.session)
  handler : ∀ h, P.guard = some h → ∀ phase, A.Follows Q h ⟨phase, []⟩
  licensed : ∀ x ∈ P.session.writes, A.Licenses x
  new : ∀ x ∈ P.session.writes, A.notes x = true →
    (s x.ref.1).lookup x.ref.2 = none
  edits : ∀ t k, A.Edits ((s t).lookup k) ((P.session.view s t).lookup k)

namespace Obeys

variable {A : Discipline σ ε φ} {start : φ} {Q : Standing σ φ → α → Prop}

/-- A client that goes on without writing. -/
theorem resume {s : Store σ} {P : Proc σ ε α} {prog : Prog σ ε α}
    {guard : Option (Prog σ ε α)} {d : Session σ} (h : Obeys A start Q s P)
    (hd : d.writes = P.session.writes) (hlawful : A.Lawful start d.seen)
    (hfollows : A.Follows Q prog (A.standing start d))
    (hguard : ∀ g, guard = some g → ∀ phase, A.Follows Q g ⟨phase, []⟩) :
    Obeys A start Q s { prog, guard, session := d } where
  lawful := hlawful
  follows := hfollows
  handler := hguard
  licensed := by
    change ∀ x ∈ d.writes, A.Licenses x
    rw [hd]
    exact h.licensed
  new := by
    change ∀ x ∈ d.writes, _
    rw [hd]
    exact h.new
  edits := by
    have hview : d.view s = P.session.view s := by
      unfold Session.view
      rw [hd]
    intro t k
    change A.Edits _ ((d.view s t).lookup k)
    rw [hview]
    exact h.edits t k

/-- A client without writes. -/
theorem fresh {s : Store σ} {prog : Prog σ ε α}
    {guard : Option (Prog σ ε α)} {d : Session σ} (hd : d.writes = [])
    (hlawful : A.Lawful start d.seen)
    (hfollows : A.Follows Q prog ⟨A.phase start d.seen, []⟩)
    (hguard : ∀ g, guard = some g → ∀ phase, A.Follows Q g ⟨phase, []⟩) :
    Obeys A start Q s { prog, guard, session := d } where
  lawful := hlawful
  follows := by
    change A.Follows Q prog (A.standing start d)
    rw [standing, hd]
    exact hfollows
  handler := hguard
  licensed := by
    change ∀ x ∈ d.writes, A.Licenses x
    simp [hd]
  new := by
    change ∀ x ∈ d.writes, _
    simp [hd]
  edits := by
    have hview : d.view s = s := by
      unfold Session.view
      rw [hd]
      rfl
    intro t k
    change A.Edits _ ((d.view s t).lookup k)
    rw [hview]

/-- A row that a client does not see, and may not have erased, is not there. -/
theorem lookup_none {s : Store σ} {P : Proc σ ε α} (h : Obeys A start Q s P)
    {t : σ.Table} {r : σ.Row t} {k : σ.Key}
    (hnone : (P.session.view s t).lookup k = none)
    (hnotes : A.notes (.put t r) = true) : (s t).lookup k = none := by
  cases hlook : (s t).lookup k with
  | none => rfl
  | some x =>
      have hedits := h.edits t k
      rw [hlook, hnone] at hedits
      obtain ⟨r', hr', _⟩ := hedits.kept (A.noted_kept hnotes)
      cases hr'

end Obeys

variable {A : Discipline σ ε φ} {start : φ} {Q : Standing σ φ → α → Prop}
  {w w' : World σ ε α} {p : Pid}

theorem obeys_rolledBack {prog : Prog σ ε α} {guard : Option (Prog σ ε α)}
    (h : Obeys A start Q w.store (w.procs p))
    (hfollows : A.Follows Q prog ⟨A.phase start (w.session p).seen, []⟩)
    (hguard : ∀ g, guard = some g → ∀ phase, A.Follows Q g ⟨phase, []⟩) :
    Obeys A start Q w.store ((w.rolledBack p prog guard).procs p) := by
  have hproc : (w.rolledBack p prog guard).procs p =
      { prog, guard, session := (w.session p).discard } := by
    simp [rolledBack, setProc]
  rw [hproc]
  exact Obeys.fresh rfl h.lawful hfollows hguard

/-- The handler takes over, in whatever phase. -/
theorem obeys_failed (h : Obeys A start Q w.store (w.procs p)) :
    Obeys A start Q w.store ((w.failed p).procs p) := by
  apply obeys_rolledBack h
  · cases hg : (w.procs p).guard with
    | none => trivial
    | some g => exact h.handler g hg _
  · simp

theorem obeys_resume (h : Obeys A start Q w.store (w.procs p))
    {prog : Prog σ ε α} {d : Session σ}
    (hd : d.writes = (w.session p).writes) (hlawful : A.Lawful start d.seen)
    (hfollows : A.Follows Q prog (A.standing start d)) :
    Obeys A start Q w.store ((w.resume p prog d).procs p) := by
  have hproc : (w.resume p prog d).procs p =
      { prog, guard := (w.procs p).guard, session := d } := by
    simp [World.resume, setProc]
  rw [hproc]
  exact h.resume hd hlawful hfollows h.handler

theorem obeys_setProc (h : Obeys A start Q w.store (w.procs p))
    {prog : Prog σ ε α} {guard : Option (Prog σ ε α)}
    (hfollows : A.Follows Q prog (A.standing start (w.session p)))
    (hguard : ∀ g, guard = some g → ∀ phase, A.Follows Q g ⟨phase, []⟩) :
    Obeys A start Q w.store
      ((w.setProc p { prog, guard, session := w.session p }).procs p) := by
  have hproc : (w.setProc p { prog, guard, session := w.session p }).procs p =
      { prog, guard, session := w.session p } := by
    simp [setProc]
  rw [hproc]
  exact h.resume rfl h.lawful hfollows hguard

/-- A statement that writes one row. -/
theorem obeys_write (h : Obeys A start Q w.store (w.procs p)) (x : Write σ)
    (hx : A.Edit ((w.view p x.ref.1).lookup x.ref.2)
      (((w.view p).write x x.ref.1).lookup x.ref.2))
    (hlicense : A.Licenses x)
    (hnew : A.notes x = true → (w.store x.ref.1).lookup x.ref.2 = none)
    {refs : List σ.Ref} {prog : Prog σ ε α} {d : Session σ}
    (hd : d.writes = (w.session p).writes ++ [x])
    (hlawful : A.Lawful start d.seen)
    (hfollows : A.Follows Q prog
      (A.note ⟨A.phase start d.seen, (w.session p).writes.filter A.notes⟩ x)) :
    Obeys A start Q w.store ((w.lockAndResume p refs prog d).procs p) := by
  have hproc : (w.lockAndResume p refs prog d).procs p =
      { prog, guard := (w.procs p).guard, session := d } := by
    simp [lockAndResume, World.resume, setProc]
  have hview : d.view w.store = (w.view p).write x := by
    unfold Session.view
    rw [hd, Store.view_append]
    rfl
  have hstanding : A.standing start d =
      A.note ⟨A.phase start d.seen, (w.session p).writes.filter A.notes⟩ x := by
    rw [standing, note, hd, List.filter_append]
  rw [hproc]
  refine ⟨hlawful, hstanding ▸ hfollows, h.handler, fun y hy => ?_,
    fun y hy hnotes => ?_, fun t k => ?_⟩
  · rw [hd, List.mem_append, List.mem_singleton] at hy
    rcases hy with hy | rfl
    · exact h.licensed y hy
    · exact hlicense
  · rw [hd, List.mem_append, List.mem_singleton] at hy
    rcases hy with hy | rfl
    · exact h.new y hy hnotes
    · exact hnew hnotes
  · change A.Edits _ ((d.view w.store t).lookup k)
    rw [hview]
    exact Licence.edits_write h.edits x hx t k

theorem note_of_unnoted (f : Standing σ φ) {x : Write σ}
    (hx : A.notes x = false) : A.note f x = f := by
  simp [note, hx]

theorem obeys_keep (h : Obeys A start Q w.store (w.procs p))
    {t : σ.Table} {q : Scan σ t} {key : σ.Key} {todo : List σ.Key}
    {acc : List (σ.Row t)} {k : List (σ.Row t) → Prog σ ε α} {r : σ.Row t}
    {ws : List (Write σ)} {refs refs' : List σ.Ref} (hallows : A.Allows q)
    (hacc : q.Picks acc)
    (hk : ∀ rows, q.Picks rows →
      A.Follows Q (k rows) (A.standing start (w.session p)))
    (hvisit : q.visit (w.view p) key = .keep r ws refs) :
    Obeys A start Q w.store ((w.lockAndResume p refs'
      (.visit t q todo (acc ++ [r]) k)
      (((w.session p).add ws).observe (.kept t r))).procs p) := by
  have hlawful : A.Lawful start
      (((w.session p).add ws).observe (.kept t r)).seen := h.lawful
  have hacc' : q.Picks (acc ++ [r]) :=
    hacc.append (Scan.picks_of_visit hvisit)
  unfold Scan.visit at hvisit
  cases hlook : (w.view p t).lookup key with
  | none => simp [hlook] at hvisit
  | some x =>
      have hxkey := Relation.key_of_lookup hlook
      by_cases hpred : q.pred x = true
      · have hx := hallows x hpred
        simp only [hlook, if_pos hpred] at hvisit
        cases heffect : q.effect x with
        | lock =>
            simp only [heffect] at hvisit
            cases hvisit
            have hnil : (((w.session p).add []).observe (.kept t r)).writes =
              (w.session p).writes := List.append_nil _
            refine obeys_resume h hnil hlawful ⟨hallows, hacc', ?_⟩
            rw [standing, hnil]
            exact hk
        | delete =>
            simp only [heffect] at hvisit hx
            cases hvisit
            have hunnoted := A.erases_unnoted hx
            rw [hxkey] at hunnoted
            refine obeys_write h (.del t key) ?_ ⟨r, hxkey, hx⟩
              (by simp [hunnoted]) rfl hlawful ?_
            · simp only [Write.ref, Store.write_del_self, hlook,
                Relation.lookup_del_self]
              exact .erase r hx
            · rw [note_of_unnoted _ hunnoted]
              exact ⟨hallows, hacc', hk⟩
        | reject =>
            simp only [heffect] at hvisit
            cases hvisit
        | write r' =>
            simp only [heffect] at hvisit hx
            split at hvisit
            · next hok =>
                cases hvisit
                have hkey : σ.key r = σ.key x := hok.1.trans hxkey.symm
                have hunnoted := A.alters_unnoted hx
                refine obeys_write h (.put t r) ?_ (.inr ⟨x, hx⟩)
                  (by simp [hunnoted]) rfl hlawful ?_
                · simp only [Write.ref, Store.write_put_self, hok.1, hlook]
                  rw [← hok.1, Relation.lookup_put_self]
                  exact .alter x r hkey hx
                · rw [note_of_unnoted _ hunnoted]
                  exact ⟨hallows, hacc', hk⟩
            · cases hvisit
      · simp [hlook, hpred] at hvisit

theorem obeys_visitOne (h : Obeys A start Q w.store (w.procs p))
    {t : σ.Table} {q : Scan σ t} {key : σ.Key} {todo : List σ.Key}
    {acc : List (σ.Row t)} {k : List (σ.Row t) → Prog σ ε α}
    (hallows : A.Allows q) (hacc : q.Picks acc)
    (hk : ∀ rows, q.Picks rows →
      A.Follows Q (k rows) (A.standing start (w.session p)))
    (hstep : w.visitOne p q key todo acc k = some w') :
    Obeys A start Q w'.store (w'.procs p) := by
  unfold visitOne at hstep
  split at hstep
  · cases hvisit : q.visit (w.view p) key with
    | skip =>
        simp only [hvisit, Option.some.injEq] at hstep
        subst hstep
        exact obeys_resume h rfl h.lawful ⟨hallows, hacc, hk⟩
    | failed =>
        simp only [hvisit, Option.some.injEq] at hstep
        subst hstep
        exact obeys_failed h
    | keep r ws refs =>
        simp only [hvisit] at hstep
        split at hstep
        · cases hstep
          exact obeys_keep h hallows hacc hk hvisit
        · cases hstep
  · split at hstep
    · cases hstep
      exact obeys_resume h rfl h.lawful ⟨hallows, hacc, hk⟩
    · cases hstep

theorem obeys_committed (h : Obeys A start Q w.store (w.procs p))
    {k : Prog σ ε α}
    (hfollows : A.Follows Q k
      ⟨A.committed (A.phase start (w.session p).seen), []⟩) :
    Obeys A start Q (w.view p) ((w.committed p k).procs p) := by
  have hproc : (w.committed p k).procs p =
      { prog := k, guard := (w.procs p).guard
        session := (w.session p).discard.observe .committed } := by
    simp [World.committed, World.resume, setProc]
  rw [hproc]
  exact Obeys.fresh rfl h.lawful hfollows h.handler

/-- What a client obeys now, it obeys after its next statement. -/
theorem obeys_advance (h : Obeys A start Q w.store (w.procs p)) {x : Input σ}
    (hstep : w.advance p x = some w') :
    Obeys A start Q w'.store (w'.procs p) := by
  have hfollows := h.follows
  change A.Follows Q _ (A.standing start (w.session p)) at hfollows
  unfold advance at hstep
  generalize hprog : (w.procs p).prog = prog at hstep hfollows
  have hcrash : Obeys A start Q w.store ((w.rolledBack p .halt none).procs p) :=
    obeys_rolledBack h trivial (by simp)
  unfold perform at hstep
  split at hstep
  all_goals try cases hstep
  all_goals try exact hcrash
  all_goals try exact obeys_failed h
  · exact obeys_resume h rfl h.lawful (hfollows _)
  · split at hstep
    · cases hstep
      exact obeys_resume h rfl h.lawful
        ⟨hfollows.1, Scan.picks_nil _, hfollows.2⟩
    · cases hstep
  · obtain ⟨hallows, hacc, hk⟩ := hfollows
    split at hstep
    · cases hstep
      exact obeys_resume h rfl h.lawful (hk _ hacc)
    · split at hstep
      · cases hstep
        exact obeys_resume h rfl h.lawful (hk _ hacc)
      · exact obeys_visitOne h hallows hacc hk hstep
  · next t r k =>
      obtain ⟨hadds, hsome, hnone⟩ := hfollows
      split at hstep
      · split at hstep
        · cases hstep
          exact obeys_resume h rfl h.lawful (hsome _)
        · next hconflict =>
            cases hstep
            have hnew := Store.lookup_of_conflict_none hconflict
            refine obeys_write h (.put t r) ?_ (.inl hadds)
              (h.lookup_none hnew) rfl h.lawful hnone
            simp only [Write.ref, Store.write_put_self,
              Relation.lookup_put_self, hnew]
            exact .add r hadds
      · cases hstep
  · split at hstep
    · cases hstep
    · cases hstep
      exact obeys_resume h rfl h.lawful (hfollows _)
  · exact obeys_resume h rfl ⟨hfollows.1, h.lawful⟩ (hfollows.2 _)
  · exact obeys_committed h hfollows.2
  · next k =>
      exact obeys_failed (w := w.committed p k)
        (obeys_committed h hfollows.2)
  · exact obeys_rolledBack h hfollows h.handler
  · next g k =>
      refine obeys_setProc h hfollows.2.2 fun g' hg' => ?_
      rw [← Option.some.inj hg']
      exact hfollows.2.1
  · exact obeys_setProc h hfollows (by simp)

/-- A client that commits keeps to its discipline. -/
theorem keeps_of_commit (h : Obeys A start Q w.store (w.procs p))
    {k : Prog σ ε α} (hprog : (w.procs p).prog = .commit k) :
    A.Keeps start (w.commitOf p) where
  edits := h.edits
  licensed := h.licensed
  fresh := h.new
  commits := by
    have hfollows := h.follows
    rw [hprog] at hfollows
    exact hfollows.1

/-- The commit of another client leaves alone what a client has written. -/
theorem Obeys.others {s₀ : Store σ} {q : Pid}
    (h : Obeys A start Q w.store (w.procs q)) (hw : WellFormed s₀ w)
    (hchange : Change w p w') (hq : q ≠ p) :
    Obeys A start Q w'.store (w'.procs q) := by
  rw [(hchange.others hq).1]
  have hsame : ∀ x ∈ (w.session q).writes,
      (w'.store x.ref.1).lookup x.ref.2 =
        (w.store x.ref.1).lookup x.ref.2 := by
    intro x hx
    rcases hchange.log with ⟨_, hstore⟩ | ⟨_, _, hstore⟩
    · rw [hstore]
    · rw [hstore]
      refine Commit.Framed.lookup_eq (c := w.commitOf p) (hw.locked p) ?_
      intro hheld
      exact hq (Option.some.inj ((hw.locked q x hx).symm.trans hheld))
  refine ⟨h.lawful, h.follows, h.handler, h.licensed,
    fun x hx hnotes => (hsame x hx).trans (h.new x hx hnotes), fun t k => ?_⟩
  by_cases htouch : ∃ x ∈ (w.session q).writes, x.ref = (t, k)
  · obtain ⟨x, hx, href⟩ := htouch
    have hsame := hsame x hx
    rw [href] at hsame
    have hview : ((w.session q).view w'.store t).lookup k =
        ((w.session q).view w.store t).lookup k :=
      Store.lookup_view_congr hsame
    have hedits := h.edits t k
    rw [← hsame] at hedits
    exact hview ▸ hedits
  · push Not at htouch
    have hview := Store.lookup_view_of_not_mem (s := w'.store) htouch
    change Relation.ReflTransGen _ _
      ((Store.view (w.session q).writes w'.store t).lookup k)
    rw [hview]

/-- All clients have followed their disciplines. -/
structure Disciplined (A : Pid → Discipline σ ε φ) (start : φ)
    (Q : Pid → Standing σ φ → α → Prop) (w : World σ ε α) : Prop where
  clients : ∀ p, Obeys (A p) start (Q p) w.store (w.procs p)
  log : ∀ c ∈ w.log, (A c.pid).Keeps start c

section Runs

variable {A : Pid → Discipline σ ε φ} {Q : Pid → Standing σ φ → α → Prop}
  {s₀ : Store σ} {code : Pid → Prog σ ε α}

/-- Clients that are checked one at a time follow their disciplines in every
run. -/
theorem disciplined_of_reachable
    (hcode : ∀ p, (A p).Follows (Q p) (code p) ⟨start, []⟩)
    (hreach : Reachable (World.start s₀ code) w) :
    Disciplined A start Q w := by
  induction hreach with
  | start =>
      exact ⟨fun p => Obeys.fresh rfl trivial (hcode p) (by simp),
        by simp [World.start]⟩
  | @step w w' p x hprev hstep ih =>
      have hchange := change_of_advance hstep
      refine ⟨fun q => ?_, ?_⟩
      · by_cases hq : q = p
        · exact hq ▸ obeys_advance (ih.clients p) hstep
        · exact (ih.clients q).others (wellFormed_of_reachable hprev) hchange hq
      · rcases hchange.log with ⟨hlog, _⟩ | ⟨⟨k, hprog⟩, hlog, _⟩
        · rw [hlog]
          exact ih.log
        · rw [hlog]
          intro c hc
          rcases List.mem_cons.mp hc with rfl | hc
          · exact keeps_of_commit (ih.clients p) hprog
          · exact ih.log c hc

/-- The error of a client is one that it may raise. -/
theorem Disciplined.raised (h : Disciplined A start Q w) {e : ε}
    (he : (w.procs p).error = some e) :
    (A p).raises ((A p).phase start (w.session p).seen) e := by
  have hfollows := (h.clients p).follows
  rw [(Proc.error_eq_some he).1] at hfollows
  exact hfollows

theorem Disciplined.returned (h : Disciplined A start Q w) {a : α}
    (ha : (w.procs p).prog = .ret a) :
    Q p ((A p).standing start (w.session p)) a := by
  have hfollows := (h.clients p).follows
  rw [ha] at hfollows
  exact hfollows

/-- What the commits between two states of a run do to a row, if `L` allows
what the disciplines allow. -/
theorem edits_of_reachable {L : Licence σ}
    (hcode : ∀ p, (A p).Follows (Q p) (code p) ⟨start, []⟩)
    (hadds : ∀ p t (x : σ.Row t), (A p).adds x → L.adds x)
    (halters : ∀ p t (x y : σ.Row t), (A p).alters x y → L.alters x y)
    (herases : ∀ p t (x : σ.Row t), (A p).erases x → L.erases x)
    (hreach : Reachable (World.start s₀ code) w) (hlater : Reachable w w')
    (t : σ.Table) (k : σ.Key) :
    L.Edits ((w.store t).lookup k) ((w'.store t).lookup k) := by
  suffices Reachable (World.start s₀ code) w' ∧
      L.Edits ((w.store t).lookup k) ((w'.store t).lookup k) from this.2
  induction hlater with
  | start => exact ⟨hreach, .refl⟩
  | @step v v' p x _ hstep ih =>
      obtain ⟨hv, hedits⟩ := ih
      refine ⟨hv.step p x hstep, ?_⟩
      rcases (change_of_advance hstep).log with ⟨_, hstore⟩ | ⟨_, _, hstore⟩
      · rw [hstore]
        exact hedits
      · rw [hstore]
        have hcommit :=
          ((disciplined_of_reachable hcode hv).clients p).edits t k
        exact hedits.trans
          (hcommit.mono (hadds p t) (halters p t) (herases p t))

end Runs

end Discipline

/-! ## Commits are observed -/

namespace World

variable {w w' : World σ ε α} {p : Pid}

/-- How many times a client has committed. -/
def commits (w : World σ ε α) (p : Pid) : ℕ :=
  w.log.countP fun c => c.pid = p

/-- How many of its commits a client remembers. -/
def observed (w : World σ ε α) (p : Pid) : ℕ :=
  (w.session p).seen.countP Obs.isCommit

theorem observed_visitOne {t : σ.Table} {q : Scan σ t} {key : σ.Key}
    {todo : List σ.Key} {acc : List (σ.Row t)}
    {k : List (σ.Row t) → Prog σ ε α}
    (h : w.visitOne p q key todo acc k = some w') :
    w'.log = w.log ∧ w'.observed p = w.observed p := by
  unfold visitOne at h
  split at h
  · split at h
    · cases h
      exact ⟨rfl, by simp [observed, session, World.resume, setProc]⟩
    · cases h
      exact ⟨rfl, by simp [observed, session, failed, rolledBack, setProc,
        Session.discard]⟩
    · split at h
      · cases h
        exact ⟨rfl, by simp [observed, session, lockAndResume, World.resume,
          setProc, Session.observe, Session.add, Obs.isCommit]⟩
      · cases h
  · split at h
    · cases h
      exact ⟨rfl, by simp [observed, session, World.resume, setProc]⟩
    · cases h

/-- A client observes a commit when it commits, and only then. -/
theorem observed_of_advance {x : Input σ} (h : w.advance p x = some w') :
    w'.log = w.log ∧ w'.observed p = w.observed p ∨
      w'.log = w.commitOf p :: w.log ∧ w'.observed p = w.observed p + 1 := by
  have hrolled : ∀ prog guard,
      (w.rolledBack p prog guard).observed p = w.observed p := by
    simp [observed, session, rolledBack, setProc, Session.discard]
  unfold advance at h
  generalize (w.procs p).prog = prog at h
  unfold perform at h
  split at h
  all_goals try cases h
  all_goals try exact Or.inl ⟨rfl, hrolled _ _⟩
  · left
    exact ⟨rfl, by simp [observed, session, World.resume, setProc,
      Session.observe, Obs.isCommit]⟩
  · left
    split at h
    · cases h
      exact ⟨rfl, by simp [observed, session, World.resume, setProc,
        Session.observe, Obs.isCommit]⟩
    · cases h
  · left
    split at h
    · cases h
      exact ⟨rfl, by simp [observed, session, World.resume, setProc]⟩
    · split at h
      · cases h
        exact ⟨rfl, by simp [observed, session, World.resume, setProc]⟩
      · exact observed_visitOne h
  · left
    split at h
    · split at h
      · cases h
        exact ⟨rfl, by simp [observed, session, World.resume, setProc]⟩
      · cases h
        exact ⟨rfl, by simp [observed, session, lockAndResume, World.resume,
          setProc, Session.add]⟩
    · cases h
  · left
    split at h
    · cases h
    · cases h
      exact ⟨rfl, by simp [observed, session, World.resume, setProc,
        Session.draw]⟩
  · left
    exact ⟨rfl, by simp [observed, session, World.resume, setProc,
      Session.observe, Obs.isCommit]⟩
  · right
    exact ⟨rfl, by simp [observed, session, World.committed, World.resume,
      setProc, Session.observe, Session.discard, List.countP_cons,
      Obs.isCommit]⟩
  · right
    exact ⟨rfl, by simp [observed, session, World.committed, World.resume,
      failed, rolledBack, setProc, Session.observe, Session.discard,
      List.countP_cons, Obs.isCommit]⟩
  · left
    exact ⟨rfl, by simp [observed, session, setProc]⟩
  · left
    exact ⟨rfl, by simp [observed, session, setProc]⟩

/-- Every client remembers all its commits. -/
theorem commits_eq_observed {s₀ : Store σ} {code : Pid → Prog σ ε α}
    (h : Reachable (start s₀ code) w) (p : Pid) :
    w.commits p = w.observed p := by
  induction h with
  | start => simp [commits, observed, start, session]
  | @step w w' q x _ hstep ih =>
      rcases observed_of_advance hstep with ⟨hlog, hobs⟩ | ⟨hlog, hobs⟩
      · by_cases hq : p = q
        · subst q
          rw [commits, hlog, hobs]
          exact ih
        · rw [commits, hlog, observed,
            (change_of_advance hstep).session_of_ne hq]
          exact ih
      · by_cases hq : p = q
        · subst q
          rw [commits, hlog, hobs, List.countP_cons, ← ih]
          simp [commits, commitOf]
        · rw [commits, hlog, observed, List.countP_cons,
            (change_of_advance hstep).session_of_ne hq]
          have hpid : (w.commitOf q).pid ≠ p := fun h => hq h.symm
          simp only [hpid, decide_false, Bool.false_eq_true, if_false]
          exact ih

end World

end ReadCommitted
