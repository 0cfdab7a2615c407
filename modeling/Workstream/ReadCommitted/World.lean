import Workstream.ReadCommitted.Program

/-!
# Interleaved clients at READ COMMITTED

A world holds the committed store, the row locks, and one program for every
client.  The scheduler names a client and answers its statement; nothing else
is assumed about the order in which clients move.  A client sees the committed
store of the moment through its own uncommitted writes.  Row locks are held
from the statement that takes them to the end of the transaction, which may
end in a failure or in a crash at any statement.

Locks that only order clients further (table locks, the shared locks behind
foreign keys) are left out: they remove schedules and add none.
-/

namespace ReadCommitted

variable {σ : Schema} {ε α : Type}

abbrev Pid : Type := ℕ

/-- What a client has learnt from the database and from its calls: the stores
that its statements have read, and the rows that a locking statement has kept
under their locks. -/
inductive Obs (σ : Schema) where
  | saw (s : Store σ)
  | scanning (s : Store σ)
  | kept (t : σ.Table) (r : σ.Row t)
  | answered (c : σ.Call) (n : ℕ)
  | committed

/-- An answer of the database, as opposed to one of an external call. -/
def Obs.isRead : Obs σ → Bool
  | .saw _ => true
  | .scanning _ => true
  | .kept _ _ => true
  | .answered _ _ => false
  | .committed => false

def Obs.isCommit : Obs σ → Bool
  | .committed => true
  | _ => false

/-- The data of a client's session: uncommitted writes, the identifiers that
it has drawn, and its observations, newest first. -/
structure Session (σ : Schema) where
  writes : List (Write σ) := []
  ids : List ℕ := []
  seen : List (Obs σ) := []

namespace Session

def view (d : Session σ) (s : Store σ) : Store σ :=
  Store.view d.writes s

def observe (d : Session σ) (o : Obs σ) : Session σ :=
  { d with seen := o :: d.seen }

def add (d : Session σ) (ws : List (Write σ)) : Session σ :=
  { d with writes := d.writes ++ ws }

def draw (d : Session σ) (n : ℕ) : Session σ :=
  { d with ids := n :: d.ids }

def discard (d : Session σ) : Session σ :=
  { d with writes := [] }

/-- The external calls and the commits of a client, newest first. -/
def calls (d : Session σ) : List (Obs σ) :=
  d.seen.filter fun o => !o.isRead

theorem calls_observe_read (d : Session σ) {o : Obs σ}
    (h : o.isRead = true) : (d.observe o).calls = d.calls := by
  simp [calls, observe, h]

theorem calls_observe (d : Session σ) {o : Obs σ}
    (h : o.isRead = false) : (d.observe o).calls = o :: d.calls := by
  simp [calls, observe, h]

end Session

/-- One client. -/
structure Proc (σ : Schema) (ε α : Type) where
  prog : Prog σ ε α
  guard : Option (Prog σ ε α) := none
  session : Session σ := {}

/-- The error that a client raises to its caller. -/
def Proc.error (P : Proc σ ε α) : Option ε :=
  match P.prog, P.guard with
  | .raise e, none => some e
  | _, _ => none

theorem Proc.error_eq_some {P : Proc σ ε α} {e : ε}
    (h : P.error = some e) : P.prog = .raise e ∧ P.guard = none := by
  unfold Proc.error at h
  split at h
  · next hprog hguard =>
      cases h
      exact ⟨hprog, hguard⟩
  · cases h

/-- A committed transaction: who committed, with which session and locks, and
on which store. -/
structure Commit (σ : Schema) where
  pid : Pid
  session : Session σ
  locks : σ.Ref → Option Pid
  before : Store σ

namespace Commit

/-- The calls that the client has made since its last commit. -/
def transaction (c : Commit σ) : List (Obs σ) :=
  c.session.calls.takeWhile fun o => !o.isCommit

def after (c : Commit σ) : Store σ :=
  c.session.view c.before

def Held (c : Commit σ) (r : σ.Ref) : Prop :=
  c.locks r = some c.pid

/-- The committer writes only what it has locked. -/
def Framed (c : Commit σ) : Prop :=
  ∀ w ∈ c.session.writes, c.Held w.ref

theorem Framed.lookup_eq {c : Commit σ} (h : c.Framed) {t : σ.Table}
    {k : σ.Key} (hk : ¬ c.Held (t, k)) :
    (c.after t).lookup k = (c.before t).lookup k := by
  apply Store.lookup_view_of_not_mem
  intro w hw href
  exact hk (href ▸ h w hw)

end Commit

/-- The state of the database and of all its clients. -/
structure World (σ : Schema) (ε α : Type) where
  store : Store σ
  locks : σ.Ref → Option Pid
  used : List ℕ
  procs : Pid → Proc σ ε α
  log : List (Commit σ)

/-- The scheduler's answer to the statement of the client that it names. -/
inductive Input (σ : Schema) where
  | go
  | order (keys : List σ.Key)
  | value (n : ℕ)
  | lostAck
  | fail
  | crash

/-! ## Locks -/

/-- `p` would not have to wait for any of `refs`. -/
def Free (locks : σ.Ref → Option Pid) (p : Pid) (refs : List σ.Ref) : Prop :=
  ∀ r ∈ refs, locks r = none ∨ locks r = some p

instance (locks : σ.Ref → Option Pid) (p : Pid) (refs : List σ.Ref) :
    Decidable (Free locks p refs) :=
  inferInstanceAs (Decidable (∀ r ∈ refs, _ ∨ _))

def acquire (locks : σ.Ref → Option Pid) (p : Pid) (refs : List σ.Ref) :
    σ.Ref → Option Pid :=
  fun r => if r ∈ refs then some p else locks r

def release (locks : σ.Ref → Option Pid) (p : Pid) : σ.Ref → Option Pid :=
  fun r => if locks r = some p then none else locks r

theorem release_eq_some_iff {locks : σ.Ref → Option Pid} {p q : Pid}
    {r : σ.Ref} : release locks p r = some q ↔ locks r = some q ∧ q ≠ p := by
  unfold release
  split
  · next h =>
      constructor
      · intro hq
        cases hq
      · rintro ⟨hq, hne⟩
        rw [h] at hq
        exact absurd (Option.some.inj hq).symm hne
  · next h =>
      constructor
      · intro hq
        exact ⟨hq, fun he => h (he ▸ hq)⟩
      · exact fun hq => hq.1

theorem acquire_eq_some_of_ne {locks : σ.Ref → Option Pid} {p q : Pid}
    {refs : List σ.Ref} (hfree : Free locks p refs) (hne : q ≠ p) {r : σ.Ref} :
    acquire locks p refs r = some q ↔ locks r = some q := by
  unfold acquire
  split
  · next hr =>
      constructor
      · intro hq
        exact absurd (Option.some.inj hq).symm hne
      · intro hq
        rcases hfree r hr with h | h
        · rw [h] at hq
          cases hq
        · rw [h] at hq
          exact absurd (Option.some.inj hq).symm hne
  · exact Iff.rfl

theorem acquire_self {locks : σ.Ref → Option Pid} {p : Pid}
    {refs : List σ.Ref} {r : σ.Ref} :
    acquire locks p refs r = some p ↔ r ∈ refs ∨ locks r = some p := by
  unfold acquire
  split
  · next h => simp [h]
  · next h => simp [h]

/-! ## Steps -/

namespace World

/-- The world in which every client is about to run its program. -/
def start (s : Store σ) (code : Pid → Prog σ ε α) : World σ ε α where
  store := s
  locks := fun _ => none
  used := []
  procs := fun p => { prog := code p }
  log := []

variable (w : World σ ε α) (p : Pid)

def session : Session σ := (w.procs p).session

/-- The store as client `p` sees it. -/
def view : Store σ := (w.session p).view w.store

def setProc (P : Proc σ ε α) : World σ ε α :=
  { w with procs := Function.update w.procs p P }

/-- Client `p` goes on with `prog` and session `d`. -/
def resume (prog : Prog σ ε α) (d : Session σ) : World σ ε α :=
  w.setProc p { prog, guard := (w.procs p).guard, session := d }

/-- Client `p` takes locks and goes on. -/
def lockAndResume (refs : List σ.Ref) (prog : Prog σ ε α) (d : Session σ) :
    World σ ε α :=
  { w.resume p prog d with locks := acquire w.locks p refs }

/-- Client `p` rolls back and goes on, with a handler for failures or none. -/
def rolledBack (prog : Prog σ ε α) (guard : Option (Prog σ ε α)) :
    World σ ε α :=
  { w.setProc p { prog, guard, session := (w.session p).discard } with
    locks := release w.locks p }

/-- The current transaction of `p` fails: its handler takes over, if it has
one. -/
def failed : World σ ε α :=
  w.rolledBack p ((w.procs p).guard.getD .halt) none

def commitOf : Commit σ where
  pid := p
  session := w.session p
  locks := w.locks
  before := w.store

/-- Client `p` commits and goes on. -/
def committed (prog : Prog σ ε α) : World σ ε α :=
  { w.resume p prog ((w.session p).discard.observe .committed) with
    store := w.view p
    locks := release w.locks p
    log := w.commitOf p :: w.log }

/-- The visit of one candidate of a locking statement.  A row that fails the
re-check is waited for and not locked. -/
def visitOne {t : σ.Table} (q : Scan σ t) (key : σ.Key) (todo : List σ.Key)
    (acc : List (σ.Row t)) (k : List (σ.Row t) → Prog σ ε α) :
    Option (World σ ε α) :=
  if Free w.locks p [(t, key)] then
    match q.visit (w.view p) key with
    | .skip =>
        some (w.resume p (.visit t q todo acc k) (w.session p))
    | .failed => some (w.failed p)
    | .keep r ws refs =>
        if Free w.locks p refs then
          some (w.lockAndResume p ((t, key) :: refs)
            (.visit t q todo (acc ++ [r]) k)
            (((w.session p).add ws).observe (.kept t r)))
        else none
  else if q.skipLocked then
    some (w.resume p (.visit t q todo acc k) (w.session p))
  else none

/-- The locks that an insertion of `r` needs: its key and its entries in
unique indexes. -/
def insertRefs (t : σ.Table) (r : σ.Row t) : List σ.Ref :=
  (t, σ.key r) :: (σ.unique r).map fun e => (t, e)

/-- One statement of client `p`.  A client that has returned closes its
session, which ends a transaction that is still open. -/
def perform : Prog σ ε α → Input σ → Option (World σ ε α)
  | .ret _, .go => some (w.rolledBack p .halt none)
  | .raise _, .go => some (w.failed p)
  | .halt, .go => some (w.failed p)
  | .query k, .go =>
      some (w.resume p (k (w.view p))
        ((w.session p).observe (.saw (w.view p))))
  | .scan t q k, .order keys =>
      if q.Visits (w.view p) keys then
        some (w.resume p (.visit t q keys [] k)
          ((w.session p).observe (.scanning (w.view p))))
      else none
  | .visit _ q todo acc k, .go =>
      match todo with
      | [] => some (w.resume p (k acc) (w.session p))
      | key :: rest =>
          if q.full acc then some (w.resume p (k acc) (w.session p))
          else w.visitOne p q key rest acc k
  | .insert t r k, .go =>
      if Free w.locks p (insertRefs t r) then
        match (w.view p).conflict t r with
        | some e => some (w.resume p (k (some e)) (w.session p))
        | none =>
            some (w.lockAndResume p (insertRefs t r) (k none)
              ((w.session p).add [.put t r]))
      else none
  | .fresh k, .value n =>
      if n ∈ w.used then none
      else some { w.resume p (k n) ((w.session p).draw n) with
        used := n :: w.used }
  | .call c k, .value n =>
      some (w.resume p (k n) ((w.session p).observe (.answered c n)))
  | .commit k, .go => some (w.committed p k)
  | .commit k, .lostAck => some ((w.committed p k).failed p)
  | .rollback k, .go => some (w.rolledBack p k (w.procs p).guard)
  | .guarded h k, .go =>
      some (w.setProc p { w.procs p with prog := k, guard := some h })
  | .unguard k, .go =>
      some (w.setProc p { w.procs p with prog := k, guard := none })
  | .ret _, _ => none
  | .raise _, _ => none
  | .halt, _ => none
  | _, .fail => some (w.failed p)
  | _, .crash => some (w.rolledBack p .halt none)
  | _, _ => none

/-- Client `p` moves. -/
def advance (x : Input σ) : Option (World σ ε α) :=
  w.perform p (w.procs p).prog x

/-- Run a schedule. -/
def run (w : World σ ε α) : List (Pid × Input σ) → Option (World σ ε α)
  | [] => some w
  | (p, x) :: rest => (w.advance p x).bind fun w' => w'.run rest

end World

/-- The worlds that some schedule leads to. -/
inductive Reachable (w₀ : World σ ε α) : World σ ε α → Prop where
  | start : Reachable w₀ w₀
  | step {w w' : World σ ε α} (p : Pid) (x : Input σ) :
      Reachable w₀ w → w.advance p x = some w' → Reachable w₀ w'

theorem Reachable.run {w₀ w w' : World σ ε α} (h : Reachable w₀ w)
    {xs : List (Pid × Input σ)} (hrun : w.run xs = some w') :
    Reachable w₀ w' := by
  induction xs generalizing w with
  | nil =>
      cases hrun
      exact h
  | cons x xs ih =>
      obtain ⟨w₁, hstep, hrest⟩ := Option.bind_eq_some_iff.mp hrun
      exact ih (h.step x.1 x.2 hstep) hrest

/-- A schedule whose last world passes a test leads to such a world. -/
theorem exists_reachable {w₀ : World σ ε α} {xs : List (Pid × Input σ)}
    {P : World σ ε α → Prop} [DecidablePred P]
    (h : (w₀.run xs).any (fun w => P w) = true) :
    ∃ w, Reachable w₀ w ∧ P w := by
  obtain ⟨w, hrun, hP⟩ := (Option.any_eq_true _ _).mp h
  exact ⟨w, Reachable.start.run hrun, by simpa using hP⟩

end ReadCommitted
