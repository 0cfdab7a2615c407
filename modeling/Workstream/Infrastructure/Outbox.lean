import Mathlib.Algebra.Group.Nat.Defs
import Workstream.Api.Dependencies

/-!
# The transactional outbox

A dispatcher leases events in one transaction, delivers each of them outside
any transaction, and finalizes it in another one.  A failed delivery, and a
failed finalization, goes to `mark_failed`.
-/

namespace Workstream.Outbox

open ReadCommitted

/-- The settings that the dispatcher reads. -/
structure DispatchSettings where
  outboxClaimSeconds : ℕ := 120
  outboxMaxAttempts : ℕ := 10
  maxAttempts_pos : 1 ≤ outboxMaxAttempts := by decide

/-- What a dispatcher keeps of an event that it has claimed. -/
structure ClaimedEvent where
  id : Uuid
  topic : String
  payload : Payload

/-! ## Claims -/

/-- The `WHERE` clause of a claim. -/
def Eligible (time staleBefore : Instant) (e : OutboxEvent) : Prop :=
  e.processedAt = none ∧ e.failedAt = none ∧ e.availableAt ≤ time ∧
    ∀ lockedAt ∈ e.lockedAt, lockedAt < staleBefore

instance (time staleBefore : Instant) (e : OutboxEvent) :
    Decidable (Eligible time staleBefore e) :=
  inferInstanceAs (Decidable (_ ∧ _ ∧ _ ∧ _))

/-- The `ORDER BY` clause of a claim. -/
def inOrder (a b : OutboxEvent) : Bool :=
  a.occurredAt < b.occurredAt ∨ a.occurredAt = b.occurredAt ∧ a.id ≤ b.id

/-- `SELECT ... FOR UPDATE SKIP LOCKED` of a claim. -/
def claimScan (time staleBefore : Instant) (batchSize : ℕ) :
    Scan schema .outboxEvents where
  pred := fun e => Eligible time staleBefore e
  skipLocked := true
  limit := some batchSize
  order := inOrder

def lease (worker : String) (time : Instant) (e : OutboxEvent) :
    OutboxEvent :=
  { e with lockedAt := some time, lockedBy := some worker }

/-- The flush of the leases. -/
def leaseAll (worker : String) (time : Instant) : List OutboxEvent → Tx Unit
  | [] => pure ()
  | e :: rest => do
      Prog.updateKey (σ := schema) .outboxEvents (.id e.id) (lease worker time)
      leaseAll worker time rest

def claimEvents (worker : String) (batchSize leaseSeconds : ℕ) :
    Tx (List ClaimedEvent) := do
  let time ← now
  let staleBefore := time - seconds leaseSeconds
  let events ← Prog.locking (claimScan time staleBefore batchSize)
  leaseAll worker time events
  Prog.commitNow
  return events.map fun e => { id := e.id, topic := e.topic, payload := e.payload }

/-! ## Finalization -/

/-- The row of `event`, as long as `worker` holds its lease. -/
def Leased (event : ClaimedEvent) (worker : String) (e : OutboxEvent) : Prop :=
  e.id = event.id ∧ e.lockedBy = some worker

instance (event : ClaimedEvent) (worker : String) (e : OutboxEvent) :
    Decidable (Leased event worker e) :=
  inferInstanceAs (Decidable (_ ∧ _))

/-- The columns that `mark_processed` sets. -/
def process (topic : String) (time : Instant) (e : OutboxEvent) :
    OutboxEvent :=
  { e with
    processedAt := some time, lockedAt := none, lockedBy := none
    lastError := none
    payload := [("delivered", .bool true), ("topic", .text topic)] }

def markProcessed (event : ClaimedEvent) (worker : String) : Tx Unit := do
  let processedAt ← now
  let _ ← Prog.locking (σ := schema) (t := .outboxEvents)
    { pred := fun e => Leased event worker e
      effect := fun e => .write (process event.topic processedAt e) }
  Prog.commitNow

/-- The back-off after so many attempts, in seconds and without jitter. -/
def backoff (attempts : ℕ) : ℕ := min 3600 (2 ^ attempts)

/-- The delay after so many attempts; `extra` is the jitter in microseconds, at
most a fifth of the back-off. -/
def delay (attempts : ℕ) (extra : Instant) : Instant :=
  seconds (backoff attempts) + min extra (backoff attempts * 200000)

/-- The columns that `mark_failed` sets. -/
def fail (maxAttempts : ℕ) (error : String) (time extra : Instant)
    (e : OutboxEvent) : OutboxEvent :=
  let attempts := e.attempts + 1
  let row := { e with
    attempts, lockedAt := none, lockedBy := none
    lastError := some ((error ++ ": delivery failed").take 2000).toString }
  if maxAttempts ≤ attempts then { row with failedAt := some time }
  else { row with availableAt := time + delay attempts extra }

def markFailed (event : ClaimedEvent) (worker error : String)
    (maxAttempts : ℕ) : Tx Unit := do
  let time ← now
  let rows ← Prog.locking (σ := schema) (t := .outboxEvents)
    { pred := fun e => Leased event worker e }
  match rows with
  | [] => Prog.commitNow
  | row :: _ => do
      let extra ← if maxAttempts ≤ row.attempts + 1 then pure 0
        else Prog.callOut (.jitter (backoff (row.attempts + 1)))
      Prog.updateKey (σ := schema) .outboxEvents (.id row.id)
        (fail maxAttempts error time extra)
      Prog.commitNow

/-! ## The dispatcher -/

def deliveryPath : String → Option String
  | "email.verification" => some "verify-email"
  | "email.password_reset" => some "reset-password"
  | "email.invitation" => some "accept-invitation"
  | _ => none

/-- An entry of a payload; there is no answer without it. -/
def entry (payload : Payload) (key : String) : Tx PayloadValue :=
  match payload.lookup key with
  | some value => pure value
  | none => .halt

/-- `deliver`.  The answer zero stands for an exception of the mail server. -/
def deliver (event : ClaimedEvent) : Tx Unit := do
  let token ← entry event.payload "token"
  match deliveryPath event.topic with
  | none => .halt
  | some path => do
      let recipient ← entry event.payload "email"
      let sent ← Prog.callOut (.sendEmail event.id recipient token path)
      if sent = 0 then .halt else pure ()

section Dispatch

variable (settings : DispatchSettings) (className : ℕ → String)

/-- One event; the answer is what it adds to the count. -/
def dispatchEvent (worker : String) (event : ClaimedEvent) : Tx ℕ :=
  Prog.attempt
    (do
      deliver event
      markProcessed event worker
      return 1)
    (do
      let error ← Prog.callOut (.caught event.id)
      markFailed event worker (className error) settings.outboxMaxAttempts
      return 0)

def dispatchEvents (worker : String) : List ClaimedEvent → Tx ℕ
  | [] => pure 0
  | event :: rest => do
      let processed ← dispatchEvent settings className worker event
      let count ← dispatchEvents worker rest
      return processed + count

def dispatchOutbox (worker : String) (batchSize : ℕ) : Tx ℕ := do
  let events ← claimEvents worker batchSize settings.outboxClaimSeconds
  dispatchEvents settings className worker events

/-- The `db.add` of an outbox event, and the commit of its producer. -/
def produce (topic recipient : String) (token : Token) : Tx Unit := do
  let id ← Prog.freshId
  let occurredAt ← now
  Prog.insertOrHalt (σ := schema) .outboxEvents
    { id, topic, payload := [("email", .text recipient), ("token", .token token)]
      occurredAt, availableAt := occurredAt }
  Prog.commitNow

/-! ## Clients -/

/-- A run of `dispatch_outbox`, whose worker name is made of the host and of
the task, or the end of a request that adds an event. -/
inductive Request where
  | dispatch (worker : String) (batchSize : ℕ)
  | produce (topic recipient : String) (token : Token)

inductive Response where
  | count (processed : ℕ)
  | done

def serve : Request → Tx Response
  | .dispatch worker batchSize =>
      .count <$> dispatchOutbox settings className worker batchSize
  | .produce topic recipient token =>
      (fun _ => .done) <$> produce topic recipient token

end Dispatch

end Workstream.Outbox
