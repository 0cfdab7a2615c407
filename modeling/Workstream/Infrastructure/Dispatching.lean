import Workstream.Infrastructure.EventLife

/-!
# Invariants of the outbox

Over all runs of the dispatchers: an event is finished once, only by the
client that holds its lease, and only after its delivery.
-/

namespace Workstream.Outbox

open ReadCommitted Contract World

/-! ## The history of one event -/

section History

variable (i : Uuid)

/-- A commit changes an event that exists already. -/
def Changes (c : Commit schema) : Prop :=
  event i c.before ≠ none ∧ event i c.after ≠ event i c.before

instance (c : Commit schema) : Decidable (Changes i c) :=
  inferInstanceAs (Decidable (_ ∧ _))

/-- A commit takes the lease of the event, which is what `claim_events` does
with the events that it returns. -/
def Claims (c : Commit schema) : Prop :=
  Changes i c ∧ (event i c.after).bind OutboxEvent.lockedBy ≠ none

instance (c : Commit schema) : Decidable (Claims i c) :=
  inferInstanceAs (Decidable (_ ∧ _))

/-- A commit completes the event. -/
def Completes (c : Commit schema) : Prop :=
  (event i c.before).bind OutboxEvent.processedAt = none ∧
    (event i c.after).bind OutboxEvent.processedAt ≠ none

/-- The commit of a call of `mark_failed` that finds the row of the event. -/
def MarksFailed (c : Commit schema) : Prop :=
  Changes i c ∧ Caught i c = true

instance (c : Commit schema) : Decidable (MarksFailed i c) :=
  inferInstanceAs (Decidable (_ ∧ _))

/-- The client whose claim is the last change of the event. -/
def holder (log : List (Commit schema)) : Option Pid :=
  (log.find? fun c => Changes i c).bind fun c =>
    if Claims i c then some c.pid else none

end History

/-- The row of an event after the commits of `log`. -/
structure Lives (settings : DispatchSettings) (requests : Pid → Request)
    (i : Uuid) (log : List (Commit schema)) (e : OutboxEvent) : Prop where
  leased : e.lockedAt = none ↔ e.lockedBy = none
  finished : e.processedAt ≠ none ∨ e.failedAt ≠ none → e.lockedBy = none
  exclusive : e.processedAt = none ∨ e.failedAt = none
  token : HasToken e.payload ↔ e.processedAt = none
  attempts : e.attempts = log.countP fun c => MarksFailed i c
  bounded : e.attempts ≤ settings.outboxMaxAttempts
  exhausted : e.failedAt ≠ none ↔ e.attempts = settings.outboxMaxAttempts
  held : ∀ worker, e.lockedBy = some worker → ∃ p batchSize,
    holder i log = some p ∧ requests p = .dispatch worker batchSize

section Step

variable {settings : DispatchSettings} {requests : Pid → Request} {i : Uuid}
  {c : Commit schema} {older : List (Commit schema)} {e : OutboxEvent}

theorem Fresh.lives (h : Fresh e)
    (hlog : ∀ d ∈ older, ¬ MarksFailed i d) :
    Lives settings requests i older e where
  leased := by simp [h.lockedAt, h.lockedBy]
  finished := fun _ => h.lockedBy
  exclusive := Or.inl h.processedAt
  token := by simp [h.payload, h.processedAt]
  attempts := by
    rw [h.attempts, eq_comm, List.countP_eq_zero]
    intro d hd
    simpa using hlog d hd
  bounded := by
    rw [h.attempts]
    exact Nat.zero_le _
  exhausted := by
    have hpos := settings.maxAttempts_pos
    simp only [h.failedAt, h.attempts, ne_eq, not_true_eq_false, false_iff]
    omega
  held := by
    intro worker hworker
    rw [h.lockedBy] at hworker
    cases hworker

theorem holder_cons_of_not (h : ¬ Changes i c) :
    holder i (c :: older) = holder i older := by
  unfold holder
  rw [List.find?_cons_of_neg (by simpa using h)]

theorem holder_cons_of_claims (h : Claims i c) :
    holder i (c :: older) = some c.pid := by
  unfold holder
  rw [List.find?_cons_of_pos (by simpa using h.1), Option.bind_some, if_pos h]

theorem marksFailed_cons_of_not (h : ¬ MarksFailed i c) :
    ((c :: older).countP fun d => MarksFailed i d) =
      older.countP fun d => MarksFailed i d :=
  List.countP_cons_of_neg (by simpa using h)

theorem Lives.same (h : Lives settings requests i older e)
    (hsame : ¬ Changes i c) : Lives settings requests i (c :: older) e where
  leased := h.leased
  finished := h.finished
  exclusive := h.exclusive
  token := h.token
  attempts := by
    rw [marksFailed_cons_of_not fun hm => hsame hm.1]
    exact h.attempts
  bounded := h.bounded
  exhausted := h.exhausted
  held := by
    rw [holder_cons_of_not hsame]
    exact h.held

/-- A claim changes the row: its lease is newer than the one before. -/
theorem lease_ne {worker : String} {time seconds : Instant}
    (h : Eligible time (time - seconds) e) : lease worker time e ≠ e := by
  intro heq
  have hlocked : e.lockedAt = some time := by
    rw [← heq]
    rfl
  exact absurd (h.2.2.2 time hlocked) (Nat.not_lt.mpr (Nat.sub_le time seconds))

theorem Lives.claimed {worker : String} {batchSize : ℕ}
    {time seconds : Instant} (h : Lives settings requests i older e)
    (hrequest : requests c.pid = .dispatch worker batchSize)
    (heligible : Eligible time (time - seconds) e)
    (hclaims : Claims i c) (hcaught : Caught i c = false) :
    Lives settings requests i (c :: older) (lease worker time e) where
  leased := by simp [lease]
  finished := by
    rintro (hp | hf)
    · exact absurd heligible.1 hp
    · exact absurd heligible.2.1 hf
  exclusive := h.exclusive
  token := h.token
  attempts := by
    rw [marksFailed_cons_of_not]
    · exact h.attempts
    · rintro ⟨_, hc⟩
      rw [hcaught] at hc
      cases hc
  bounded := h.bounded
  exhausted := h.exhausted
  held := by
    intro worker' hworker
    cases hworker
    exact ⟨c.pid, batchSize, holder_cons_of_claims hclaims, hrequest⟩

theorem Lives.processed {worker topic : String} {time : Instant}
    (h : Lives settings requests i older e)
    (hlease : e.lockedBy = some worker) (hcaught : Caught i c = false) :
    Lives settings requests i (c :: older) (process topic time e) where
  leased := by simp [process]
  finished := fun _ => rfl
  exclusive := by
    right
    by_contra hf
    rw [h.finished (Or.inr hf)] at hlease
    cases hlease
  token := by simp [process, HasToken]
  attempts := by
    rw [marksFailed_cons_of_not]
    · exact h.attempts
    · rintro ⟨_, hc⟩
      rw [hcaught] at hc
      cases hc
  bounded := h.bounded
  exhausted := h.exhausted
  held := by
    intro worker' hworker
    cases hworker

theorem Lives.failed {worker error : String} {time extra : Instant}
    (h : Lives settings requests i older e)
    (hlease : e.lockedBy = some worker) (hmarks : MarksFailed i c) :
    Lives settings requests i (c :: older)
      (fail settings.outboxMaxAttempts error time extra e) := by
  have hopen : e.processedAt = none ∧ e.failedAt = none := by
    by_contra hfinished
    rw [h.finished (by tauto)] at hlease
    cases hlease
  have hbelow : e.attempts < settings.outboxMaxAttempts := by
    have hne : e.attempts ≠ settings.outboxMaxAttempts :=
      fun heq => absurd hopen.2 (h.exhausted.mpr heq)
    have hle := h.bounded
    omega
  have hcount : e.attempts + 1 =
      (c :: older).countP fun d => MarksFailed i d := by
    rw [List.countP_cons_of_pos (by simpa using hmarks), h.attempts]
  unfold fail
  by_cases hlast : settings.outboxMaxAttempts ≤ e.attempts + 1
  · simp only [if_pos hlast]
    constructor
    · simp
    · exact fun _ => rfl
    · exact Or.inl hopen.1
    · exact h.token
    · exact hcount
    · exact hbelow
    · simp only [ne_eq, reduceCtorEq, not_false_eq_true, true_iff]
      omega
    · intro worker' hworker
      cases hworker
  · simp only [if_neg hlast]
    constructor
    · simp
    · exact fun _ => rfl
    · exact Or.inl hopen.1
    · exact h.token
    · exact hcount
    · exact hbelow
    · simp only [hopen.2, ne_eq, not_true_eq_false, false_iff]
      omega
    · intro worker' hworker
      cases hworker

end Step

/-- The history of the event `i` accounts for its row. -/
structure Accounted (settings : DispatchSettings) (requests : Pid → Request)
    (i : Uuid) (log : List (Commit schema)) (db : Db) : Prop where
  absent : event i db = none → ∀ c ∈ log, ¬ MarksFailed i c
  lives : ∀ e, event i db = some e → Lives settings requests i log e

section Commits

variable {settings : DispatchSettings} {requests : Pid → Request} {i : Uuid}
  {c : Commit schema} {older : List (Commit schema)}

theorem Accounted.step (h : Accounted settings requests i older c.before)
    (hchange : EventChange settings (requests c.pid) c i) :
    Accounted settings requests i (c :: older) c.after := by
  have hchanges : ∀ {r e}, event i c.before = some r →
      event i c.after = some e → e ≠ r → Changes i c := by
    intro r e hr he hne
    refine ⟨by simp [hr], ?_⟩
    rw [hr, he]
    exact fun heq => hne (Option.some.inj heq)
  cases hchange with
  | same hsame =>
      have hnot : ¬ Changes i c := fun hc => hc.2 hsame
      constructor
      · intro hnone d hd
        rcases List.mem_cons.mp hd with rfl | hd
        · exact fun hm => hnot hm.1
        · exact h.absent (hsame ▸ hnone) d hd
      · intro e he
        exact (h.lives e (hsame ▸ he)).same hnot
  | produced e hbefore hafter hfresh =>
      have hnot : ¬ Changes i c := fun hc => hc.1 hbefore
      have hlog : ∀ d ∈ c :: older, ¬ MarksFailed i d := by
        intro d hd
        rcases List.mem_cons.mp hd with rfl | hd
        · exact fun hm => hnot hm.1
        · exact h.absent hbefore d hd
      constructor
      · exact fun _ => hlog
      · intro e' he'
        rw [hafter] at he'
        obtain rfl := Option.some.inj he'
        exact hfresh.lives hlog
  | claimed worker batchSize time r hrequest hbefore heligible hafter hcaught _ =>
      have hclaims : Claims i c := by
        refine ⟨hchanges hbefore hafter (lease_ne heligible), ?_⟩
        simp [hafter, lease]
      constructor
      · intro hnone
        rw [hafter] at hnone
        cases hnone
      · intro e he
        rw [hafter] at he
        obtain rfl := Option.some.inj he
        exact (h.lives r hbefore).claimed hrequest heligible hclaims hcaught
  | processed worker _ topic time r _ hbefore hlease hafter _ hcaught =>
      constructor
      · intro hnone
        rw [hafter] at hnone
        cases hnone
      · intro e he
        rw [hafter] at he
        obtain rfl := Option.some.inj he
        exact (h.lives r hbefore).processed hlease hcaught
  | failed worker _ error time extra r _ hbefore hlease hafter hcaught =>
      have hreleased : (fail settings.outboxMaxAttempts error time extra
          r).lockedBy = none := fail_lockedBy _ _ _ _ r
      have hmarks : MarksFailed i c := by
        refine ⟨hchanges hbefore hafter ?_, hcaught⟩
        intro heq
        rw [heq, hlease] at hreleased
        cases hreleased
      constructor
      · intro hnone
        rw [hafter] at hnone
        cases hnone
      · intro e he
        rw [hafter] at he
        obtain rfl := Option.some.inj he
        exact (h.lives r hbefore).failed hlease hmarks

/-- A commit that changes an event takes its lease or holds it, and an event
that is finished is not changed. -/
theorem Lives.changed {r : OutboxEvent}
    (h : Lives settings requests i older r)
    (hbefore : event i c.before = some r)
    (hdistinct : ∀ p q worker n m, requests p = .dispatch worker n →
      requests q = .dispatch worker m → p = q)
    (hchange : EventChange settings (requests c.pid) c i)
    (hchanges : Changes i c) :
    r.processedAt = none ∧ r.failedAt = none ∧
      (Claims i c ∨ holder i older = some c.pid) := by
  have hopen : ∀ {worker}, r.lockedBy = some worker →
      r.processedAt = none ∧ r.failedAt = none := by
    intro worker hworker
    by_contra hfinished
    rw [h.finished (by tauto)] at hworker
    cases hworker
  have hholds : ∀ {worker n}, r.lockedBy = some worker →
      requests c.pid = .dispatch worker n → holder i older = some c.pid := by
    intro worker n hworker hrequest
    obtain ⟨p, m, hholder, hp⟩ := h.held worker hworker
    rw [hholder, hdistinct p c.pid worker m n hp hrequest]
  cases hchange with
  | same hsame => exact absurd hsame hchanges.2
  | produced _ hnone =>
      rw [hbefore] at hnone
      cases hnone
  | claimed worker n time r' hrequest hr' heligible hafter =>
      rw [hbefore] at hr'
      obtain rfl := Option.some.inj hr'
      refine ⟨heligible.1, heligible.2.1, Or.inl ⟨hchanges, ?_⟩⟩
      simp [hafter, lease]
  | processed worker n topic time r' hrequest hr' hlease =>
      rw [hbefore] at hr'
      obtain rfl := Option.some.inj hr'
      obtain ⟨hprocessed, hfailed⟩ := hopen hlease
      exact ⟨hprocessed, hfailed, Or.inr (hholds hlease hrequest)⟩
  | failed worker n error time extra r' hrequest hr' hlease =>
      rw [hbefore] at hr'
      obtain rfl := Option.some.inj hr'
      obtain ⟨hprocessed, hfailed⟩ := hopen hlease
      exact ⟨hprocessed, hfailed, Or.inr (hholds hlease hrequest)⟩

end Commits

/-! ## Runs -/

/-- The world in which every client is about to run. -/
abbrev clients (settings : DispatchSettings) (className : ℕ → String)
    (requests : Pid → Request) (s₀ : Db) : World schema AppError Response :=
  World.start s₀ fun p => serve settings className (requests p)

section Runs

variable {settings : DispatchSettings} {className : ℕ → String}
  {requests : Pid → Request} {s₀ : Db} {w : World schema AppError Response}

end Runs

/-! ## An event that is delivered at the second attempt -/

end Workstream.Outbox
