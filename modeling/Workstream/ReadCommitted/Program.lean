import Workstream.ReadCommitted.Store

/-!
# Database clients as programs

A client is a tree of statements whose branches are indexed by the answers of
the database.  It says nothing about other clients: how the statements of
several clients interleave is the business of the world in which they run.

A locking statement (`UPDATE`, `DELETE`, `SELECT ... FOR UPDATE`) takes place
in two phases.  It first picks its candidates from a snapshot and then visits
them one by one, waiting for each row's lock and re-checking the predicate on
the row as it is then.  Rows that appear in between are not visited.
-/

namespace ReadCommitted

variable {σ : Schema} {ε α β : Type}

/-! ## Locking statements -/

/-- What a locking statement does to a row that it has locked.  `reject` is a
constraint of the table that the new row would violate. -/
inductive Effect (ρ : Type) where
  | lock
  | write (r : ρ)
  | delete
  | reject

/-- A locking statement on one table. -/
structure Scan (σ : Schema) (t : σ.Table) where
  pred : σ.Row t → Bool
  effect : σ.Row t → Effect (σ.Row t) := fun _ => .lock
  skipLocked : Bool := false
  limit : Option ℕ := none
  order : σ.Row t → σ.Row t → Bool := fun _ _ => true

namespace Scan

variable {t : σ.Table}

def full (q : Scan σ t) (acc : List (σ.Row t)) : Bool :=
  q.limit = some acc.length

/-- The keys that the statement is going to visit, as its snapshot has them. -/
def candidates (q : Scan σ t) (s : Store σ) : List σ.Key :=
  ((s t).rows.filter q.pred).map σ.key

/-- A visiting order is any order of the candidates that the `ORDER BY` clause
allows. -/
def Visits (q : Scan σ t) (s : Store σ) (keys : List σ.Key) : Prop :=
  keys.Perm (q.candidates s) ∧
    (keys.filterMap (s t).lookup).Pairwise fun x y => q.order x y = true

instance (q : Scan σ t) (s : Store σ) (keys : List σ.Key) :
    Decidable (q.Visits s keys) :=
  inferInstanceAs (Decidable (_ ∧ _))

theorem Visits.mem_candidates {q : Scan σ t} {s : Store σ}
    {keys : List σ.Key} (h : q.Visits s keys) {k : σ.Key} :
    k ∈ keys ↔ ∃ r, (s t).lookup k = some r ∧ q.pred r = true := by
  rw [h.1.mem_iff, candidates, List.mem_map]
  constructor
  · rintro ⟨r, hr, rfl⟩
    obtain ⟨hmem, hpred⟩ := List.mem_filter.mp hr
    exact ⟨r, Relation.lookup_key hmem, hpred⟩
  · rintro ⟨r, hr, hpred⟩
    exact ⟨r, List.mem_filter.mpr ⟨Relation.mem_of_lookup hr, hpred⟩,
      Relation.key_of_lookup hr⟩

theorem nodup_candidates (q : Scan σ t) (s : Store σ) :
    (q.candidates s).Nodup :=
  (s t).nodup.sublist (List.filter_sublist.map σ.key)

theorem Visits.nodup {q : Scan σ t} {s : Store σ} {keys : List σ.Key}
    (h : q.Visits s keys) : keys.Nodup :=
  h.1.nodup_iff.mpr (q.nodup_candidates s)

/-- A statement whose predicate holds on one row visits that row. -/
theorem visits_one {q : Scan σ t} {s : Store σ} {k : σ.Key} {r : σ.Row t}
    (hr : (s t).lookup k = some r) (hpred : q.pred r = true)
    (hone : ∀ x ∈ (s t).rows, q.pred x = true → x = r) {keys : List σ.Key} :
    q.Visits s keys ↔ keys = [k] := by
  have hcandidates : q.candidates s = [k] := by
    refine eq_singleton (q.nodup_candidates s) fun j => ?_
    simp only [candidates, List.mem_map, List.mem_filter]
    constructor
    · rintro ⟨x, ⟨hx, hpred⟩, rfl⟩
      rw [hone x hx hpred]
      exact Relation.key_of_lookup hr
    · rintro rfl
      exact ⟨r, ⟨Relation.mem_of_lookup hr, hpred⟩, Relation.key_of_lookup hr⟩
  unfold Visits
  rw [hcandidates, List.perm_singleton]
  constructor
  · exact fun h => h.1
  · rintro rfl
    simp [hr]

/-- A visiting order is an order of the rows. -/
theorem Visits.rows {q : Scan σ t} {s : Store σ} {keys : List σ.Key}
    (h : q.Visits s keys) :
    ∃ rows : List (σ.Row t), keys = rows.map σ.key ∧
      rows.Perm ((s t).rows.filter q.pred) ∧
      rows.Pairwise fun x y => q.order x y = true := by
  have hperm : (keys.filterMap (s t).lookup).Perm
      ((s t).rows.filter q.pred) := by
    have hrows := h.1.filterMap (s t).lookup
    rw [candidates, Relation.filterMap_lookup
      fun r hr => (List.mem_filter.mp hr).1] at hrows
    exact hrows
  refine ⟨keys.filterMap (s t).lookup, ?_, hperm, h.2⟩
  rw [List.map_filterMap]
  calc
    keys = keys.filterMap some := List.filterMap_some.symm
    _ = keys.filterMap fun k => ((s t).lookup k).map σ.key := by
      apply List.filterMap_congr
      intro k hk
      obtain ⟨r, hr, _⟩ := h.mem_candidates.mp hk
      rw [hr, Option.map_some, Relation.key_of_lookup hr]

/-- What a visit does once it holds the lock of the row. -/
inductive Outcome (σ : Schema) (t : σ.Table) where
  | skip
  | failed
  | keep (r : σ.Row t) (ws : List (Write σ)) (refs : List σ.Ref)

/-- Re-check the row on the store that the visitor sees now, and apply the
statement to it. -/
def visit (q : Scan σ t) (s : Store σ) (k : σ.Key) : Outcome σ t :=
  match (s t).lookup k with
  | none => .skip
  | some r =>
      if q.pred r then
        match q.effect r with
        | .lock => .keep r [] []
        | .delete => .keep r [.del t k] []
        | .reject => .failed
        | .write r' =>
            if σ.key r' = k ∧ s.clash t r' = none then
              .keep r' [.put t r'] ((σ.unique r').map fun e => (t, e))
            else .failed
      else .skip

end Scan

/-! ## Programs -/

/-- The rest of a client's run.  `halt` is a failure that nobody in the request
answers, and the client that is gone after it; `visit` is a locking statement
under way. -/
inductive Prog (σ : Schema) (ε α : Type) where
  | ret (a : α)
  | raise (e : ε)
  | halt
  | query (k : Store σ → Prog σ ε α)
  | scan (t : σ.Table) (q : Scan σ t) (k : List (σ.Row t) → Prog σ ε α)
  | visit (t : σ.Table) (q : Scan σ t) (todo : List σ.Key)
      (acc : List (σ.Row t)) (k : List (σ.Row t) → Prog σ ε α)
  | insert (t : σ.Table) (r : σ.Row t) (k : Option σ.Key → Prog σ ε α)
  | fresh (k : ℕ → Prog σ ε α)
  | call (c : σ.Call) (k : ℕ → Prog σ ε α)
  | commit (k : Prog σ ε α)
  | rollback (k : Prog σ ε α)
  | guarded (handler k : Prog σ ε α)
  | unguard (k : Prog σ ε α)

namespace Prog

def bind (f : α → Prog σ ε β) : Prog σ ε α → Prog σ ε β
  | .ret a => f a
  | .raise e => .raise e
  | .halt => .halt
  | .query k => .query fun s => (k s).bind f
  | .scan t q k => .scan t q fun rows => (k rows).bind f
  | .visit t q todo acc k => .visit t q todo acc fun rows => (k rows).bind f
  | .insert t r k => .insert t r fun e => (k e).bind f
  | .fresh k => .fresh fun n => (k n).bind f
  | .call c k => .call c fun n => (k n).bind f
  | .commit k => .commit (k.bind f)
  | .rollback k => .rollback (k.bind f)
  | .guarded h k => .guarded (h.bind f) (k.bind f)
  | .unguard k => .unguard (k.bind f)

instance : Monad (Prog σ ε) where
  pure := .ret
  bind x f := x.bind f

theorem bind_ret (x : Prog σ ε α) : x.bind .ret = x := by
  induction x with
  | ret | raise | halt => rfl
  | query k ih => exact congrArg _ (funext ih)
  | scan t q k ih => exact congrArg _ (funext ih)
  | visit t q todo acc k ih => exact congrArg _ (funext ih)
  | insert t r k ih => exact congrArg _ (funext ih)
  | fresh k ih => exact congrArg _ (funext ih)
  | call c k ih => exact congrArg _ (funext ih)
  | commit k ih => exact congrArg _ ih
  | rollback k ih => exact congrArg _ ih
  | guarded h k ihh ihk => exact congrArg₂ _ ihh ihk
  | unguard k ih => exact congrArg _ ih

theorem bind_bind {γ : Type} (x : Prog σ ε α) (f : α → Prog σ ε β)
    (g : β → Prog σ ε γ) :
    (x.bind f).bind g = x.bind fun a => (f a).bind g := by
  induction x with
  | ret | raise | halt => rfl
  | query k ih => exact congrArg _ (funext ih)
  | scan t q k ih => exact congrArg _ (funext ih)
  | visit t q todo acc k ih => exact congrArg _ (funext ih)
  | insert t r k ih => exact congrArg _ (funext ih)
  | fresh k ih => exact congrArg _ (funext ih)
  | call c k ih => exact congrArg _ (funext ih)
  | commit k ih => exact congrArg _ ih
  | rollback k ih => exact congrArg _ ih
  | guarded h k ihh ihk => exact congrArg₂ _ ihh ihk
  | unguard k ih => exact congrArg _ ih

instance : LawfulMonad (Prog σ ε) :=
  LawfulMonad.mk' _ bind_ret (fun _ _ => rfl) bind_bind

/-! ## Statements -/

/-- A plain `SELECT`: the answer is a function of the visible store. -/
def select (q : Store σ → β) : Prog σ ε β :=
  .query fun s => .ret (q s)

/-- An `UPDATE`, `DELETE` or `SELECT ... FOR UPDATE`; the answer is the list
of rows as it leaves them. -/
def locking {t : σ.Table} (q : Scan σ t) : Prog σ ε (List (σ.Row t)) :=
  .scan t q .ret

/-- An `INSERT`; the answer is the entry of a unique index that prevents it. -/
def insertRow (t : σ.Table) (r : σ.Row t) : Prog σ ε (Option σ.Key) :=
  .insert t r .ret

/-- An identifier that has not been handed out before. -/
def freshId : Prog σ ε ℕ :=
  .fresh .ret

/-- An external call, answered by any number. -/
def callOut (c : σ.Call) : Prog σ ε ℕ :=
  .call c .ret

def commitNow : Prog σ ε Unit :=
  .commit (.ret ())

def rollbackNow : Prog σ ε Unit :=
  .rollback (.ret ())

/-- Go on if `c` holds and raise `e` otherwise. -/
def ensure (c : Bool) (e : ε) : Prog σ ε Unit :=
  if c then .ret () else .raise e

/-- The value of an optional result; `none` raises `e`. -/
def require (o : Option β) (e : ε) : Prog σ ε β :=
  match o with
  | some b => .ret b
  | none => .raise e

/-- An `INSERT` that nobody expects to fail. -/
def insertOrHalt (t : σ.Table) (r : σ.Row t) : Prog σ ε Unit :=
  .insert t r fun e =>
    match e with
    | none => .ret ()
    | some _ => .halt

/-- The statement that locks the row with key `k` and applies `effect` to
it. -/
def byKey {t : σ.Table} (k : σ.Key)
    (effect : σ.Row t → Effect (σ.Row t)) : Scan σ t where
  pred := fun r => σ.key r = k
  effect := effect

/-- A statement that names a primary key visits the row that has it. -/
theorem visits_byKey {t : σ.Table} {s : Store σ} {k : σ.Key} {r : σ.Row t}
    {effect : σ.Row t → Effect (σ.Row t)} (hr : (s t).lookup k = some r)
    {keys : List σ.Key} : (byKey k effect).Visits s keys ↔ keys = [k] := by
  have hkey := Relation.key_of_lookup hr
  apply Scan.visits_one hr (by simpa [byKey] using hkey)
  intro x hx hpred
  have hx' : σ.key x = k := by simpa [byKey] using hpred
  exact (s t).eq_of_key_eq hx (Relation.mem_of_lookup hr) (hx'.trans hkey.symm)

/-- A statement on one row by its primary key, which has to be there. -/
def alterKey (t : σ.Table) (k : σ.Key)
    (effect : σ.Row t → Effect (σ.Row t)) : Prog σ ε Unit :=
  .scan t (byKey k effect) fun rows =>
    match rows with
    | [] => .halt
    | _ => .ret ()

/-- An `UPDATE` of one row by its primary key. -/
def updateKey (t : σ.Table) (k : σ.Key) (f : σ.Row t → σ.Row t) :
    Prog σ ε Unit :=
  alterKey t k fun r => .write (f r)

/-- A `DELETE` of one row by its primary key. -/
def deleteKey (t : σ.Table) (k : σ.Key) : Prog σ ε Unit :=
  .scan t (byKey k fun _ => .delete) fun _ => .ret ()

/-- Run `body`; whatever fails in it is rolled back and answered by
`handler`. -/
def attempt (body handler : Prog σ ε α) : Prog σ ε α :=
  .guarded handler (body.bind fun a => .unguard (.ret a))

end Prog

end ReadCommitted
