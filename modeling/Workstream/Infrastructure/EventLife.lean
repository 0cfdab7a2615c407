import Workstream.Infrastructure.Outbox

/-!
# The life of an outbox event

What a commit of a dispatcher does to an event, under interference by all the
others: it is one step of a small state machine, or none.
-/

namespace Workstream.Outbox

open ReadCommitted Contract

/-- The row of the event `i`. -/
def event (i : Uuid) (db : Db) : Option OutboxEvent :=
  (db .outboxEvents).lookup (.id i)

/-- The delivery of `i` has ended in an exception, which goes to
`mark_failed`. -/
def Caught (i : Uuid) (c : Commit schema) : Bool :=
  c.transaction.any fun o =>
    match o with
    | .answered (.caught j) _ => j = i
    | _ => false

/-- `deliver` has returned normally. -/
def Delivered (i : Uuid) (c : Commit schema) : Bool :=
  c.transaction.any fun o =>
    match o with
    | .answered (.sendEmail j _ _ _) n => j = i ∧ n ≠ 0
    | _ => false

/-- The last reading of the clock. -/
def clock (c : Commit schema) : Option Instant :=
  c.transaction.findSome? fun o =>
    match o with
    | .answered .now time => some time
    | _ => none

def HasToken (payload : Payload) : Prop :=
  ∃ raw, ("token", .token raw) ∈ payload

/-- An event as its producer adds it. -/
structure Fresh (e : OutboxEvent) : Prop where
  attempts : e.attempts = 0
  lockedAt : e.lockedAt = none
  lockedBy : e.lockedBy = none
  processedAt : e.processedAt = none
  failedAt : e.failedAt = none
  payload : HasToken e.payload

/-- What a commit does to the event `i`. -/
inductive EventChange (settings : DispatchSettings) (request : Request)
    (c : Commit schema) (i : Uuid) : Prop where
  | same (h : event i c.after = event i c.before)
  | produced (e : OutboxEvent) (hbefore : event i c.before = none)
      (hafter : event i c.after = some e) (hfresh : Fresh e)
  | claimed (worker : String) (batchSize : ℕ) (time : Instant)
      (r : OutboxEvent) (hrequest : request = .dispatch worker batchSize)
      (hbefore : event i c.before = some r)
      (heligible : Eligible time
        (time - seconds settings.outboxClaimSeconds) r)
      (hafter : event i c.after = some (lease worker time r))
      (hcaught : Caught i c = false) (hclock : clock c = some time)
  | processed (worker : String) (batchSize : ℕ) (topic : String)
      (time : Instant) (r : OutboxEvent)
      (hrequest : request = .dispatch worker batchSize)
      (hbefore : event i c.before = some r)
      (hlease : r.lockedBy = some worker)
      (hafter : event i c.after = some (process topic time r))
      (hdelivered : Delivered i c = true) (hcaught : Caught i c = false)
  | failed (worker : String) (batchSize : ℕ) (error : String)
      (time extra : Instant) (r : OutboxEvent)
      (hrequest : request = .dispatch worker batchSize)
      (hbefore : event i c.before = some r)
      (hlease : r.lockedBy = some worker)
      (hafter : event i c.after =
        some (fail settings.outboxMaxAttempts error time extra r))
      (hcaught : Caught i c = true) (hclock : clock c = some time)

/-- Every commit takes every event at most one step further. -/
def dispatching (settings : DispatchSettings) (requests : Pid → Request) :
    Contract schema where
  inv := fun _ => True
  assume := fun _ => True
  guar := fun c => ∀ i, EventChange settings (requests c.pid) c i
  inv_draw := fun _ _ _ h => h

/-! ## Rules -/

section Rules

variable {α : Type} {C : Contract schema} {p : Pid}
  {Q : α → Local schema → Shared schema → Prop}
  {E : AppError → Local schema → Shared schema → Prop}
  {l : Local schema} {s : Shared schema}

section Fail

variable (maxAttempts : ℕ) (error : String) (time extra : Instant)
  (e : OutboxEvent)

theorem fail_id : (fail maxAttempts error time extra e).id = e.id := by
  unfold fail
  dsimp only
  split <;> rfl

theorem fail_lockedBy :
    (fail maxAttempts error time extra e).lockedBy = none := by
  unfold fail
  dsimp only
  split <;> rfl

theorem fail_processedAt :
    (fail maxAttempts error time extra e).processedAt = e.processedAt := by
  unfold fail
  dsimp only
  split <;> rfl

theorem fail_topic : (fail maxAttempts error time extra e).topic = e.topic := by
  unfold fail
  dsimp only
  split <;> rfl

theorem fail_payload :
    (fail maxAttempts error time extra e).payload = e.payload := by
  unfold fail
  dsimp only
  split <;> rfl

end Fail

/-- The leases of rows that are held are all that is written. -/
theorem wp_leaseAll_bind {worker : String} {time : Instant}
    {events : List OutboxEvent} {f : Unit → Tx α}
    (hrows : ∀ e ∈ events,
      (l.view s .outboxEvents).lookup (.id (OutboxEvent.id e)) = some e ∧
        l.locks (.outboxEvents, .id e.id))
    (hnodup : (events.map OutboxEvent.id).Nodup) (hinv : C.inv s)
    (h : ∀ l' s', C.Rely p l s s' → C.inv s' →
      Grows l l' (events.map fun e =>
        .put (σ := schema) .outboxEvents (lease worker time e)) →
      l'.session.calls = l.session.calls → C.wp p Q E (f ()) none l' s') :
    C.wp p Q E (leaseAll worker time events >>= f) none l s := by
  induction events generalizing l s with
  | nil => exact h l s .refl hinv (Grows.refl l) rfl
  | cons e rest ih =>
      simp only [leaseAll, bind_assoc]
      obtain ⟨hlook, hlock⟩ := hrows e List.mem_cons_self
      obtain ⟨hnew, hrest⟩ := List.nodup_cons.mp hnodup
      refine wp_updateHeld_bind hlook hlock
        fun l₁ s₁ h₁ hinv₁ _ hg₁ hcalls₁ => ?_
      refine ih (fun e' he' => ?_) hrest hinv₁
        fun l₂ s₂ h₂ hinv₂ hg₂ hcalls₂ => ?_
      · obtain ⟨hlook', hlock'⟩ := hrows e' (List.mem_cons_of_mem e he')
        refine ⟨?_, hg₁.locks _ hlock'⟩
        have hne : Key.id e.id ≠ .id e'.id := by
          intro heq
          exact hnew (Key.id.inj heq ▸ List.mem_map_of_mem he')
        rw [hg₁.view, Store.lookup_view_of_not_mem, h₁.lookup_view_eq hlock',
          hlook']
        intro w hw
        obtain rfl := List.mem_singleton.mp hw
        exact fun href => hne (Prod.mk.inj href).2
      · exact h l₂ s₂ (h₁.trans (h₂.of_grows hg₁)) hinv₂ (hg₁.trans hg₂)
          (hcalls₂.trans hcalls₁)

end Rules

/-! ## Commits -/

/-- Nothing but events is written, and none that is not there. -/
def OldEvents (c : Commit schema) : Prop :=
  ∀ w ∈ c.session.writes, ∃ e : OutboxEvent,
    w.ref = (.outboxEvents, .id e.id) ∧ event e.id c.before = some e

/-- The contract accepts every commit of a dispatcher. -/
def Dispatches (settings : DispatchSettings) (C : Contract schema) (p : Pid)
    (worker : String) (batchSize : ℕ) : Prop :=
  ∀ l s c, C.inv s → Makes p l s c → C.assume c → OldEvents c →
    (∀ i, EventChange settings (.dispatch worker batchSize) c i) →
    C.guar c ∧ C.inv ⟨c.after, s.used⟩

section Commits

variable {settings : DispatchSettings} {className : ℕ → String}
  {C : Contract schema} {p : Pid} {α : Type} {l : Local schema}
  {s : Shared schema} {worker : String} {batchSize : ℕ}
  {Q : α → Local schema → Shared schema → Prop}
  {E : AppError → Local schema → Shared schema → Prop}

/-- The client is between two transactions. -/
structure Begun (l : Local schema) : Prop where
  writes : l.session.writes = []
  calls : ∀ o ∈ l.session.calls.head?, o = .committed

theorem begun_start : Begun {} where
  writes := rfl
  calls := by
    intro o ho
    cases ho

theorem begun_committed (l : Local schema) : Begun l.committed where
  writes := rfl
  calls := by
    have hcalls : l.committed.session.calls =
        .committed :: l.session.discard.calls :=
      Session.calls_observe _ rfl
    intro o ho
    rw [hcalls] at ho
    exact (Option.mem_some.mp ho).symm

/-- The transaction of a commit begins where its client was between two
transactions. -/
theorem transaction_eq {c : Commit schema} {os : List (Obs schema)}
    (hl : Begun l) (hcalls : c.session.calls = os ++ l.session.calls)
    (hos : ∀ o ∈ os, ∃ call n, o = .answered call n) :
    c.transaction = os := by
  have hbegun := hl.calls
  rw [Commit.transaction, hcalls, List.takeWhile_append_of_pos]
  · cases hrest : l.session.calls with
    | nil => simp
    | cons o rest =>
        rw [hrest] at hbegun
        obtain rfl : o = .committed := hbegun o rfl
        rw [List.takeWhile_cons_of_neg (by simp [Obs.isCommit]),
          List.append_nil]
  · intro o ho
    obtain ⟨call, n, rfl⟩ := hos o ho
    rfl

theorem wp_dispatched_bind (hC : Dispatches settings C p worker batchSize)
    {f : Unit → Tx α}
    (hchange : ∀ s' c, C.Rely p l s s' → Makes p l s' c → OldEvents c ∧
      ∀ i, EventChange settings (.dispatch worker batchSize) c i)
    (hf : ∀ l' s', Begun l' → C.inv s' → C.wp p Q E (f ()) none l' s') :
    C.wp p Q E (Prog.commitNow >>= f) none l s := by
  refine wp_commitNow_bind fun s' c h' hinv hc hassume => ?_
  obtain ⟨hold, hsteps⟩ := hchange s' c h' hc
  obtain ⟨hguar, hafter⟩ := hC l s' c hinv hc hassume hold hsteps
  exact ⟨hguar, hafter, hf _ _ (begun_committed l) hafter⟩

/-- A row of the table of events, after one of them has been replaced. -/
theorem event_put {c : Commit schema} {e : OutboxEvent}
    (hwrites : c.session.writes = [.put .outboxEvents e]) (i : Uuid) :
    event i c.after = if i = e.id then some e else event i c.before := by
  have hafter : c.after .outboxEvents = (c.before .outboxEvents).put e := by
    rw [Commit.after, Session.view, hwrites, Store.view_cons, Store.view_nil,
      Store.write_put_self]
  have hlook : event i c.after = if Key.id i = .id e.id then some e
      else event i c.before := by
    unfold event
    rw [hafter]
    exact Relation.lookup_put (σ := schema) (t := .outboxEvents) _ e _
  rw [hlook]
  simp

theorem event_same {c : Commit schema} (hwrites : c.session.writes = [])
    (i : Uuid) : event i c.after = event i c.before := by
  rw [Commit.after, Session.view, hwrites, Store.view_nil]

/-- An event that `claim_events` returns is one that is not processed. -/
theorem wp_claimEvents_bind (hC : Dispatches settings C p worker batchSize)
    {f : List ClaimedEvent → Tx α} (hl : Begun l)
    (h : ∀ events l' s', Begun l' → C.inv s' →
      (∀ x ∈ events, ∃ (r : OutboxEvent) (u : Shared schema), C.inv u ∧
        event r.id u.store = some r ∧ r.processedAt = none ∧
        x = { id := r.id, topic := r.topic, payload := r.payload }) →
      C.wp p Q E (f events) none l' s') :
    C.wp p Q E
      (claimEvents worker batchSize settings.outboxClaimSeconds >>= f)
      none l s := by
  simp only [claimEvents, bind_assoc, pure_bind]
  refine wp_now_bind fun time s₁ h₁ _ => ?_
  refine wp_lockSome_bind (fun _ => rfl)
    fun events l₂ s₂ h₂ hinv₂ hg₂ hcalls₂ hrows hnodup => ?_
  have hids : (events.map OutboxEvent.id).Nodup := by
    refine List.Nodup.of_map Key.id ?_
    rw [List.map_map]
    exact hnodup
  have hg := (Grows.observe l (.answered Call.now time)).trans hg₂
  have hview : l₂.view s₂ = s₂.store :=
    view_of_writes_nil (by rw [hg.writes, hl.writes]; rfl) s₂
  refine wp_leaseAll_bind (fun e he => ?_) hids hinv₂
    fun l₃ s₃ h₃ hinv₃ hg₃ hcalls₃ => ?_
  · obtain ⟨hlook, _, hlock⟩ := hrows e he
    exact ⟨hlook, hlock⟩
  refine wp_dispatched_bind hC (fun s' c h' hc => ?_) fun l' s' hl' hinv' => ?_
  swap
  · refine h _ l' s' hl' hinv' fun x hx => ?_
    obtain ⟨r, hr, rfl⟩ := List.mem_map.mp hx
    obtain ⟨hlook, hpred, _⟩ := hrows r hr
    rw [hview] at hlook
    have heligible : Eligible time
        (time - seconds settings.outboxClaimSeconds) r := by
      simpa [claimScan] using hpred
    exact ⟨r, s₂, hinv₂, hlook, heligible.1, rfl⟩
  have hwrites : c.session.writes = events.map fun e =>
      .put (σ := schema) .outboxEvents (lease worker time e) := by
    rw [hc.session, (hg.trans hg₃).writes, hl.writes]
    rfl
  have hbefore : ∀ e ∈ events, event (OutboxEvent.id e) c.before = some e := by
    intro e he
    obtain ⟨hlook, _, hlock⟩ := hrows e he
    rw [hview] at hlook
    exact (hc.lookup_before (h₃.trans (h'.of_grows hg₃)) hlock).trans hlook
  have htransaction : c.transaction = [.answered Call.now time] := by
    refine transaction_eq hl ?_ ?_
    · rw [hc.session, hcalls₃, hcalls₂]
      exact Session.calls_observe _ rfl
    · intro o ho
      exact ⟨_, _, List.mem_singleton.mp ho⟩
  refine ⟨?_, fun i => ?_⟩
  · intro w hw
    rw [hwrites] at hw
    obtain ⟨x, hx, rfl⟩ := List.mem_map.mp hw
    exact ⟨x, rfl, hbefore x hx⟩
  by_cases hi : ∃ e ∈ events, e.id = i
  · obtain ⟨e, he, rfl⟩ := hi
    refine .claimed worker batchSize time e rfl (hbefore e he) ?_ ?_
      (by simp [Caught, htransaction]) (by simp [clock, htransaction])
    · obtain ⟨_, hpred, _⟩ := hrows e he
      simpa [claimScan] using hpred
    · have hputs : ∀ w ∈ c.session.writes, ∃ r,
          w = .put (σ := schema) .outboxEvents (lease worker time r) ∧
          Key.id (lease worker time r).id = .id r.id ∧
          (c.before .outboxEvents).lookup (.id r.id) = some r := by
        intro w hw
        rw [hwrites] at hw
        obtain ⟨x, hx, rfl⟩ := List.mem_map.mp hw
        exact ⟨x, rfl, rfl, hbefore x hx⟩
      rcases Store.lookup_view_map (σ := schema) (t := .outboxEvents)
        (g := lease worker time) hputs (.id e.id) with
        ⟨hnot, _⟩ | ⟨r, hr, hafter⟩
      · refine absurd rfl (hnot (.put .outboxEvents (lease worker time e)) ?_)
        rw [hwrites]
        exact List.mem_map_of_mem he
      · obtain rfl := Option.some.inj (hr.symm.trans (hbefore e he))
        exact hafter
  · refine .same (Store.lookup_view_of_not_mem fun w hw href => ?_)
    rw [hwrites] at hw
    obtain ⟨x, hx, rfl⟩ := List.mem_map.mp hw
    exact hi ⟨x, hx, Key.id.inj (Prod.mk.inj href).2⟩

theorem wp_markProcessed_bind (hC : Dispatches settings C p worker batchSize)
    {f : Unit → Tx α} {claimed : ClaimedEvent}
    {n : ℕ} {recipient token : PayloadValue} {path : String}
    {l₀ : Local schema} (hl : Begun l₀) (hwrites : l.session.writes = [])
    (hcalls : l.session.calls =
      .answered (.sendEmail claimed.id recipient token path) n ::
        l₀.session.calls)
    (hsent : n ≠ 0)
    (h : ∀ l' s', Begun l' → C.inv s' → C.wp p Q E (f ()) none l' s') :
    C.wp p Q E (markProcessed claimed worker >>= f) none l s := by
  simp only [markProcessed, bind_assoc]
  refine wp_now_bind fun time s₁ h₁ _ => ?_
  have hg₁ := Grows.observe l (.answered Call.now time)
  refine wp_updateOne_bind ⟨rfl, rfl⟩ (Key.id claimed.id) ?_
    (fun _ => Or.inr ⟨_, rfl⟩) (fun l₂ s₂ h₂ _ hg₂ _ => ?_) ?_
  · intro e he
    rw [decide_eq_true_eq] at he
    exact congrArg Key.id he.1
  · refine wp_dispatched_bind hC (fun s' c _ hc => ?_) h
    have hnone : c.session.writes = [] := by
      rw [hc.session, (hg₁.trans hg₂).writes, hwrites]
      rfl
    exact ⟨by simp [OldEvents, hnone], fun i => .same (event_same hnone i)⟩
  · intro l₂ s₂ s₃ r r' h₂ _ h₃ _ hlook hpred hwrite _ hg₂ hcalls₂ hlock
    cases hwrite
    rw [decide_eq_true_eq] at hpred
    refine wp_dispatched_bind hC (fun s' c h' hc => ?_) h
    have hnow : c.session.writes =
        [.put .outboxEvents (process claimed.topic time r)] := by
      rw [hc.session, (hg₁.trans hg₂).writes, hwrites]
      rfl
    have hbefore : event claimed.id c.before = some r := by
      rw [view_of_writes_nil (by rw [hg₁.writes, hwrites]; rfl)] at hlook
      exact (hc.lookup_before h' hlock).trans hlook
    refine ⟨fun w hw => ⟨r, ?_, hpred.1 ▸ hbefore⟩, fun i => ?_⟩
    · rw [hnow] at hw
      rw [List.mem_singleton.mp hw]
      rfl
    have hafter := event_put hnow i
    by_cases hi : i = claimed.id
    · subst hi
      have htransaction : c.transaction = [.answered .now time,
          .answered (.sendEmail claimed.id recipient token path) n] := by
        refine transaction_eq hl ?_ ?_
        · rw [hc.session, hcalls₂]
          refine (Session.calls_observe _ rfl).trans ?_
          rw [hcalls]
          rfl
        · intro o ho
          simp only [List.mem_cons, List.not_mem_nil, or_false] at ho
          rcases ho with rfl | rfl
          · exact ⟨_, _, rfl⟩
          · exact ⟨_, _, rfl⟩
      refine .processed worker batchSize claimed.topic time r rfl hbefore
        hpred.2 (hafter.trans (if_pos hpred.1.symm)) ?_ ?_
      · simp [Delivered, htransaction, hsent]
      · simp [Caught, htransaction]
    · exact .same (hafter.trans (if_neg fun heq => hi (heq.trans hpred.1)))

theorem wp_markFailed_bind (hC : Dispatches settings C p worker batchSize)
    {f : Unit → Tx α} {claimed : ClaimedEvent}
    {error : String} {n : ℕ} {os : List (Obs schema)}
    (hwrites : l.session.writes = [])
    (hcalls : l.session.calls = .answered (.caught claimed.id) n :: os)
    (h : ∀ l' s', Begun l' → C.inv s' → C.wp p Q E (f ()) none l' s') :
    C.wp p Q E
      (markFailed claimed worker error settings.outboxMaxAttempts >>= f)
      none l s := by
  simp only [markFailed, bind_assoc]
  refine wp_now_bind fun time s₁ h₁ _ => ?_
  have hg₁ := Grows.observe l (.answered Call.now time)
  refine wp_lockSome_bind (fun _ => rfl)
    fun rows l₂ s₂ h₂ hinv₂ hg₂ hcalls₂ hrows _ => ?_
  have hg := hg₁.trans hg₂
  have hcalls₂ : l₂.session.calls = .answered .now time ::
      .answered (.caught claimed.id) n :: os := by
    rw [hcalls₂]
    refine (Session.calls_observe _ rfl).trans ?_
    rw [hcalls]
  cases rows with
  | nil =>
      refine wp_dispatched_bind hC (fun s' c _ hc => ?_) h
      have hnone : c.session.writes = [] := by
        rw [hc.session, hg.writes, hwrites]
        rfl
      exact ⟨by simp [OldEvents, hnone], fun i => .same (event_same hnone i)⟩
  | cons r rest =>
      obtain ⟨hlook, hpred, hlock⟩ := hrows r List.mem_cons_self
      rw [decide_eq_true_eq] at hpred
      rw [view_of_writes_nil (by rw [hg.writes, hwrites]; rfl)] at hlook
      have hrest : ∀ extra l₃ s₃ jitter,
          C.Rely p l₂ s₂ s₃ → Grows l₂ l₃ [] →
          l₃.session.calls = jitter ++ l₂.session.calls →
          (jitter = [] ∨ ∃ base m, jitter = [.answered (.jitter base) m]) →
          C.wp p Q E (Prog.updateKey (σ := schema)
            .outboxEvents (.id r.id)
            (fail settings.outboxMaxAttempts error time extra) >>= fun _ =>
              Prog.commitNow >>= f) none l₃ s₃ := by
        intro extra l₃ s₃ jitter h₃ hg₃ hcalls₃ hjitter
        have hview : l₃.view s₃ = s₃.store :=
          view_of_writes_nil (by rw [(hg.trans hg₃).writes, hwrites]; rfl) s₃
        refine wp_updateHeld_bind (r := r) ?_ (hg₃.locks _ hlock)
          fun l₄ s₄ h₄ _ _ hg₄ hcalls₄ => ?_
        · rw [hview]
          exact (h₃.lookup_eq hlock).trans hlook
        refine wp_dispatched_bind hC (fun s' c h' hc => ?_) h
        have hnow : c.session.writes = [.put .outboxEvents
            (fail settings.outboxMaxAttempts error time extra r)] := by
          rw [hc.session, (hg.trans (hg₃.trans hg₄)).writes, hwrites]
          rfl
        have hrely := h₃.trans ((h₄.of_grows hg₃).trans
          (h'.of_grows (hg₃.trans hg₄)))
        have hbefore : event r.id c.before = some r :=
          (hc.lookup_before hrely hlock).trans hlook
        have hid : (fail settings.outboxMaxAttempts error time extra r).id =
            r.id := fail_id _ _ _ _ r
        refine ⟨fun w hw => ⟨r, ?_, hbefore⟩, fun i => ?_⟩
        · rw [hnow] at hw
          rw [List.mem_singleton.mp hw, Write.ref, ← hid]
          rfl
        have hafter := event_put hnow i
        by_cases hi : i = r.id
        · subst hi
          have htransaction : c.transaction = jitter ++
              .answered .now time :: .answered (.caught r.id) n ::
                os.takeWhile fun o => !o.isCommit := by
            rw [Commit.transaction, hc.session, hcalls₄, hcalls₃, hcalls₂,
              hpred.1]
            rcases hjitter with rfl | ⟨base, m, rfl⟩ <;>
              simp [Obs.isCommit]
          refine .failed worker batchSize error time extra r rfl hbefore
            hpred.2 (hafter.trans (if_pos hid.symm)) ?_ ?_
          · simp [Caught, htransaction]
          · rcases hjitter with rfl | ⟨base, m, rfl⟩ <;>
              simp [clock, htransaction]
        · exact .same (hafter.trans (if_neg fun heq => hi (heq.trans hid)))
      dsimp only
      split
      · rw [pure_bind, bind_assoc]
        exact hrest 0 l₂ s₂ [] .refl (Grows.refl l₂) rfl (Or.inl rfl)
      · rw [bind_assoc]
        refine wp_callOut_bind fun extra s₃ h₃ _ => ?_
        rw [bind_assoc]
        exact hrest extra _ s₃ [_] h₃ (Grows.observe l₂ _)
          (Session.calls_observe _ rfl) (Or.inr ⟨_, _, rfl⟩)

theorem wp_entry_bind {payload : Payload} {key : String}
    {f : PayloadValue → Tx α}
    (h : ∀ value, C.wp p Q E (f value) none l s) :
    C.wp p Q E (entry payload key >>= f) none l s := by
  unfold entry
  split
  · exact h _
  · exact wp_halt

/-- Whatever becomes of a delivery, the client is between two transactions
afterwards. -/
theorem wp_dispatchEvent_bind (hC : Dispatches settings C p worker batchSize)
    {claimed : ClaimedEvent} {f : ℕ → Tx α} (hl : Begun l)
    (h : ∀ n l' s', Begun l' → C.inv s' → C.wp p Q E (f n) none l' s') :
    C.wp p Q E (dispatchEvent settings className worker claimed >>= f)
      none l s := by
  refine wp_attempt_bind (fun s₁ _ _ => ?_) fun l₁ s₁ _ => ?_
  · simp only [deliver, bind_assoc]
    refine wp_entry_bind fun token => ?_
    split
    · exact wp_halt
    · next path _ =>
        simp only [bind_assoc]
        refine wp_entry_bind fun recipient => ?_
        refine wp_callOut_bind fun n s₂ _ _ => ?_
        split
        · exact wp_halt
        · next hsent =>
            rw [pure_bind]
            refine wp_markProcessed_bind hC hl hl.writes
              (Session.calls_observe _ rfl) hsent fun l' s' hl' _ => ?_
            exact wp_ret fun s'' _ hinv'' => h 1 l' s'' hl' hinv''
  · change C.wp p Q E ((Prog.callOut _ >>= _) >>= f) none _ _
    simp only [bind_assoc, pure_bind]
    refine wp_callOut_bind fun n s₂ _ _ => ?_
    exact wp_markFailed_bind hC rfl (Session.calls_observe _ rfl) (h 0)

theorem wp_dispatchEvents (hC : Dispatches settings C p worker batchSize)
    {events : List ClaimedEvent} (hl : Begun l) (hinv : C.inv s) :
    C.wp p (fun _ _ _ => True) E
      (dispatchEvents settings className worker events) none l s := by
  induction events generalizing l s with
  | nil => exact wp_ret fun _ _ _ => trivial
  | cons claimed rest ih =>
      simp only [dispatchEvents]
      refine wp_dispatchEvent_bind hC hl fun n l' s' hl' hinv' => ?_
      refine wp_bind (wp_mono (ih hl' hinv') .none
        (fun count l'' s'' _ _ => ?_) (fun _ _ _ _ he => he) hinv') hinv'
      exact wp_ret fun _ _ _ => trivial

theorem wp_dispatchOutbox (hC : Dispatches settings C p worker batchSize)
    (hl : Begun l) :
    C.wp p (fun _ _ _ => True) E
      (dispatchOutbox settings className worker batchSize) none l s := by
  simp only [dispatchOutbox]
  exact wp_claimEvents_bind hC hl fun _ _ _ hl' hinv' _ =>
    wp_dispatchEvents hC hl' hinv'

end Commits

/-! ## Dispatchers alone -/

section Serve

variable {settings : DispatchSettings} {className : ℕ → String}
  {requests : Pid → Request} {p : Pid} {l : Local schema} {s : Shared schema}

abbrev Keeps {α : Type} (settings : DispatchSettings)
    (requests : Pid → Request) (p : Pid)
    (Q : α → Local schema → Shared schema → Prop) (prog : Tx α)
    (l : Local schema) (s : Shared schema) : Prop :=
  (dispatching settings requests).wp p Q (fun _ _ _ => True) prog none l s

end Serve

end Workstream.Outbox
