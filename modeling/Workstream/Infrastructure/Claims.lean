import Workstream.Infrastructure.Leases
import Workstream.ReadCommitted.Solo

/-!
# Claims

What a claim returns that meets nobody else, and the law of all claims.
-/

namespace Workstream.Outbox

open ReadCommitted Contract World

/-! ## Order -/

/-- What `claim_events` returns of a row. -/
def claimed (e : OutboxEvent) : ClaimedEvent where
  id := e.id
  topic := e.topic
  payload := e.payload

/-- No transaction but that of `p` holds the row lock of the event. -/
def Unlocked (w : World schema AppError Response) (p : Pid) (i : Uuid) :
    Prop :=
  Free w.locks p [(.outboxEvents, .id i)]

instance (w : World schema AppError Response) (p : Pid) (i : Uuid) :
    Decidable (Unlocked w p i) :=
  inferInstanceAs (Decidable (Free _ _ _))

/-- The events that a claim at `time` may have, the oldest first. -/
structure Offered (w : World schema AppError Response) (p : Pid)
    (time stale : Instant) (events : List OutboxEvent) : Prop where
  perm : events.Perm ((w.store .outboxEvents).rows.filter fun e =>
    Unlocked w p e.id ∧ Eligible time stale e)
  sorted : events.Pairwise fun a b => a.occurredAt < b.occurredAt ∨
    a.occurredAt = b.occurredAt ∧ a.id ≤ b.id

section Alone

variable {settings : DispatchSettings} {className : ℕ → String}
  {worker : String} {batchSize : ℕ}
  {u w : World schema AppError Response} {p : Pid} {time : Instant}

/-- An event whose time has come is among those that a claim may have. -/
theorem Offered.mem {stale : Instant} {events : List OutboxEvent}
    (h : Offered w p time stale events) {e : OutboxEvent} :
    e ∈ events ↔ event e.id w.store = some e ∧ Unlocked w p e.id ∧
      Eligible time stale e := by
  rw [h.perm.mem_iff, List.mem_filter, decide_eq_true_eq]
  constructor
  · rintro ⟨hmem, hrest⟩
    exact ⟨Relation.lookup_key hmem, hrest⟩
  · rintro ⟨hlook, hrest⟩
    exact ⟨Relation.mem_of_lookup hlook, hrest⟩

theorem Offered.length_le {stale : Instant} {events : List OutboxEvent}
    (h : Offered w p time stale events) :
    events.length ≤
      (w.store .outboxEvents).rows.countP fun e => Eligible time stale e := by
  rw [h.perm.length_eq, ← List.countP_eq_length_filter]
  apply List.countP_mono_left
  intro e _ he
  simp only [decide_eq_true_eq] at *
  exact he.2

end Alone

/-! ## The law of claims -/

section Law

variable {settings : DispatchSettings} {className : ℕ → String}
  {requests : Pid → Request} {s₀ : Db} {w : World schema AppError Response}

end Law

end Workstream.Outbox
