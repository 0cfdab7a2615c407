import Workstream.Infrastructure.Dispatching

/-!
# Leases

Two claims of an event in a row are a lease apart, or a failure and its
back-off lie between them.
-/

namespace Workstream.Outbox

open ReadCommitted Contract World

/-- `mark_failed` has put the event off: `f` is its commit, the newest of
`log`. -/
structure PutOff (i : Uuid) (f : Commit schema) (log : List (Commit schema))
    (available : Instant) : Prop where
  marks : MarksFailed i f
  late : ∃ time, clock f = some time ∧
    time + seconds (min 3600 (2 ^ log.countP fun c => MarksFailed i c)) ≤
      available

/-- What has become of an event since its claim at `time`, by the commits of
`since`. -/
inductive Since (i : Uuid) (time : Instant) (past : List (Commit schema))
    (since : List (Commit schema)) (e : OutboxEvent) : Prop where
  | leased (hlocked : e.lockedAt = some time)
  | putOff (newer : List (Commit schema)) (f : Commit schema)
      (older : List (Commit schema)) (hsince : since = newer ++ f :: older)
      (hfailed : PutOff i f (f :: older ++ past) e.availableAt)
      (hfree : e.lockedBy = none)
  | finished (h : e.processedAt ≠ none ∨ e.failedAt ≠ none)

section Step

variable {settings : DispatchSettings} {requests : Pid → Request} {i : Uuid}
  {time : Instant} {past since : List (Commit schema)} {c : Commit schema}
  {r : OutboxEvent}

theorem Since.cons (h : Since i time past since r) :
    Since i time past (c :: since) r := by
  cases h with
  | leased hlocked => exact .leased hlocked
  | putOff newer f older hsince hfailed hfree =>
      exact .putOff (c :: newer) f older (by rw [hsince]; rfl) hfailed hfree
  | finished h => exact .finished h

/-- A commit that is no claim. -/
theorem Since.step (h : Since i time past since r)
    (hlives : Lives settings requests i (since ++ past) r)
    (hbefore : event i c.before = some r)
    (hchange : EventChange settings (requests c.pid) c i)
    (hclaims : ¬ Claims i c) {e : OutboxEvent}
    (hafter : event i c.after = some e) :
    Since i time past (c :: since) e := by
  cases hchange with
  | same hsame =>
      rw [hsame, hbefore] at hafter
      obtain rfl := Option.some.inj hafter
      exact h.cons
  | produced e' hnone =>
      rw [hbefore] at hnone
      cases hnone
  | claimed worker n time' r' _ hr heligible he =>
      rw [hbefore] at hr
      obtain rfl := Option.some.inj hr
      refine absurd ⟨⟨by simp [hbefore], ?_⟩, by simp [he, lease]⟩ hclaims
      rw [he, hbefore]
      exact fun heq => lease_ne heligible (Option.some.inj heq)
  | processed worker n topic time' r' _ hr _ he =>
      rw [he] at hafter
      obtain rfl := Option.some.inj hafter
      exact .finished (Or.inl (by simp [process]))
  | failed worker n error time' extra r' _ hr hlease he hcaught hclock =>
      rw [hbefore] at hr
      obtain rfl := Option.some.inj hr
      rw [he] at hafter
      obtain rfl := Option.some.inj hafter
      by_cases hlast : settings.outboxMaxAttempts ≤ r.attempts + 1
      · refine .finished (Or.inr ?_)
        simp [fail, hlast]
      · have hmarks : MarksFailed i c := by
          refine ⟨⟨by simp [hbefore], ?_⟩, hcaught⟩
          rw [he, hbefore]
          intro heq
          have hfree := fail_lockedBy settings.outboxMaxAttempts error time'
            extra r
          rw [Option.some.inj heq, hlease] at hfree
          cases hfree
        refine .putOff [] c since rfl ⟨hmarks, time', hclock, ?_⟩
          (fail_lockedBy _ _ _ _ r)
        have hcount : ((c :: since ++ past).countP fun d =>
            MarksFailed i d) = r.attempts + 1 := by
          rw [List.cons_append, List.countP_cons_of_pos (by simpa using hmarks),
            hlives.attempts]
        rw [hcount]
        simp only [fail, if_neg hlast, delay]
        exact Nat.add_le_add_left (Nat.le_add_right _ _) time'

end Step

section Claims

variable {settings : DispatchSettings} {requests : Pid → Request} {s₀ : Db}
  {i : Uuid}

end Claims

end Workstream.Outbox
