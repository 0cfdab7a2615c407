import Workstream.Modules.Application.Runs

/-!
# The records that requests leave

The audit log is what the commits have recorded, one event for each commit of
an audited request, in the order of the commits.  A notification comes from
the request that assigned its issue, and only its recipient marks it.
-/

namespace Workstream.Application

open ReadCommitted World Discipline

section Commits

variable {E : Environment} {request : Request} {c : Commit schema} {t : Table}

/-- A write to a table that the request does not alter or erase from adds a
row. -/
theorem born_of_mem (hkeeps : (duty E request).Keeps {} c)
    (halters : t ∉ request.alters) (herases : t ∉ request.erases)
    {x : Write schema} (hx : x ∈ c.session.writes) (hxt : x.ref.1 = t) :
    request.Fills t ∧ ∃ r : Row t, x = .put t r ∧ Born E request t r ∧
      (c.before t).lookup (schema.key r) = none := by
  have hlicense := hkeeps.licensed x hx
  have hfresh := hkeeps.fresh x hx
  cases x with
  | put u r =>
      obtain rfl : u = t := hxt
      rcases hlicense with ⟨hadds, hborn⟩ | ⟨_, halter, _⟩
      · have hfills : request.Fills u := ⟨hadds, halters, herases⟩
        exact ⟨hfills, r, rfl, hborn, hfresh (decide_eq_true hfills)⟩
      · exact absurd halter halters
  | del u k =>
      obtain rfl : u = t := hxt
      obtain ⟨_, _, herase⟩ := hlicense
      exact absurd herase herases

/-- A commit adds as many rows to a table as one of the inserts of its request
says. -/
theorem exists_inserts (hkeeps : (duty E request).Keeps {} c) :
    ∃ ts ∈ request.inserts, ∀ t, t ∉ request.alters → t ∉ request.erases →
      (c.session.writes.filter fun x => x.ref.1 = t).length = ts.count t := by
  refine ⟨_, hkeeps.commits.2.2.1, fun t halters herases => ?_⟩
  rw [List.count, List.countP_map, List.countP_filter,
    List.countP_eq_length_filter]
  congr 1
  apply List.filter_congr
  intro x hx
  by_cases hxt : x.ref.1 = t
  · obtain ⟨hfills, _⟩ := born_of_mem hkeeps halters herases hx hxt
    have hnotes : (duty E request).notes x = true :=
      decide_eq_true (hxt ▸ hfills)
    simp [hxt, hnotes]
  · simp [hxt]

/-- What is noted of a commit belongs together. -/
theorem names_of_fills (hkeeps : (duty E request).Keeps {} c)
    {x y : Write schema} (hx : x ∈ c.session.writes)
    (hy : y ∈ c.session.writes) (hxfills : request.Fills x.ref.1)
    (hyfills : request.Fills y.ref.1) : Names x y := by
  have hnoted : ∀ z ∈ c.session.writes, request.Fills z.ref.1 →
      z ∈ c.session.writes.filter (duty E request).notes := fun z hz hfills =>
    List.mem_filter.mpr ⟨hz, decide_eq_true hfills⟩
  have hconsistent := List.forall_iff_forall_mem.mp hkeeps.commits.2.2.2
  exact List.forall_iff_forall_mem.mp
    (hconsistent x (hnoted x hx hxfills)) y (hnoted y hy hyfills)

/-- A commit that adds one row to a table. -/
theorem exists_added (hkeeps : (duty E request).Keeps {} c)
    (halters : t ∉ request.alters) (herases : t ∉ request.erases)
    (hone : ∀ ts ∈ request.inserts, ts.count t = 1) :
    ∃ r : Row t, Write.rowsIn t c.session.writes = [r] ∧
      (c.after t).rows = (c.before t).rows ++ [r] ∧ Born E request t r ∧
      ∀ x ∈ c.session.writes, request.Fills x.ref.1 →
        Names (.put t r) x := by
  obtain ⟨ts, hts, hlength⟩ := exists_inserts hkeeps
  obtain ⟨x, hfilter⟩ := List.length_eq_one_iff.mp
    ((hlength t halters herases).trans (hone ts hts))
  have hmem : x ∈ c.session.writes.filter fun x => x.ref.1 = t := by
    rw [hfilter]
    exact List.mem_singleton_self x
  obtain ⟨hx, hxt⟩ := List.mem_filter.mp hmem
  obtain ⟨hfills, r, rfl, hborn, hnew⟩ :=
    born_of_mem hkeeps halters herases hx (of_decide_eq_true hxt)
  refine ⟨r, ?_, Store.view_rows_of_one hfilter hnew, hborn,
    fun y hy hyfills => names_of_fills hkeeps hx hy hfills hyfills⟩
  rw [Write.rowsIn_filter, hfilter]
  simp [Write.rowsIn]

/-- A commit that adds no row to a table. -/
theorem after_eq_before (hkeeps : (duty E request).Keeps {} c)
    (halters : t ∉ request.alters) (herases : t ∉ request.erases)
    (hnone : ∀ ts ∈ request.inserts, ts.count t = 0) :
    Write.rowsIn t c.session.writes = [] ∧ c.after t = c.before t := by
  obtain ⟨ts, hts, hlength⟩ := exists_inserts hkeeps
  have hfilter := List.eq_nil_of_length_eq_zero
    ((hlength t halters herases).trans (hnone ts hts))
  refine ⟨?_, Store.view_of_none hfilter⟩
  rw [Write.rowsIn_filter, hfilter]
  rfl

end Commits

section Runs

variable {E : Environment} {requests : Pid → Request} {s₀ : Db}
  {w : World schema AppError Response}

/-! ## The audit log -/

/-- The audit events of a commit. -/
abbrev recorded (c : Commit schema) : List AuditEvent :=
  Write.rowsIn Table.auditEvents c.session.writes

theorem alters_auditEvents (request : Request) :
    Table.auditEvents ∉ request.alters := by
  cases request with
  | account request => cases request <;> simp [Request.alters, accountAlters]
  | tracker client authorization endpoint =>
      cases endpoint <;> simp [Request.alters, trackerAlters]
  | notifications authorization endpoint =>
      cases endpoint <;> simp [Request.alters]
  | dispatch worker batchSize => simp [Request.alters]
  | seed => simp [Request.alters]

theorem erases_auditEvents (request : Request) :
    Table.auditEvents ∉ request.erases :=
  fun h => absurd (mem_erasable h) (by decide)

/-- An audited request adds one event with each commit. -/
theorem count_auditEvents (request : Request) {ts : List Table}
    (hts : ts ∈ request.inserts) :
    ts.count .auditEvents = if request.report.isSome then 1 else 0 := by
  have hnotified : request.notified.count .auditEvents = 0 := by
    unfold Request.notified
    split <;> rfl
  cases request with
  | account request =>
      cases request <;>
        simp_all [Request.inserts, Request.report, accountReport]
  | tracker client authorization endpoint =>
      cases endpoint <;>
        simp_all [Request.inserts, Request.report, trackerReport]
      all_goals rcases hts with rfl | rfl <;> rfl
  | notifications authorization endpoint =>
      simp_all [Request.inserts, Request.report]
  | dispatch worker batchSize => simp_all [Request.inserts, Request.report]
  | seed =>
      simp_all [Request.inserts, Request.report]
      rcases hts with rfl | rfl <;> rfl

/-- What a commit has recorded: one event, if its request is audited, which
says what the request did, who did it and to what. -/
structure Recorded (E : Environment) (request : Request)
    (c : Commit schema) : Prop where
  one : (recorded c).length = if request.report.isSome then 1 else 0
  born : ∀ e ∈ recorded c, Born E request .auditEvents e
  names : ∀ e ∈ recorded c, ∀ x ∈ c.session.writes,
    request.Fills x.ref.1 → ∀ i ∈ subject x, e.entityId = some i

theorem recorded_of_keeps {request : Request} {c : Commit schema}
    (hkeeps : (duty E request).Keeps {} c) :
    Recorded E request c ∧ (c.after .auditEvents).rows =
      (c.before .auditEvents).rows ++ recorded c := by
  have halters := alters_auditEvents request
  have herases := erases_auditEvents request
  by_cases hreport : request.report.isSome = true
  · obtain ⟨e, hrows, hafter, hborn, hnames⟩ :=
      exists_added hkeeps halters herases fun ts hts => by
        rw [count_auditEvents request hts, if_pos hreport]
    have hone : ∀ e' ∈ recorded c, e' = e := fun e' he' => by
      rw [recorded, hrows] at he'
      exact List.mem_singleton.mp he'
    refine ⟨⟨by rw [recorded, hrows, if_pos hreport]; rfl, fun e' he' => ?_,
      fun e' he' => ?_⟩, by rw [recorded, hrows, hafter]⟩
    · rw [hone e' he']
      exact hborn
    · rw [hone e' he']
      exact hnames
  · obtain ⟨hrows, hafter⟩ :=
      after_eq_before hkeeps halters herases fun ts hts => by
        rw [count_auditEvents request hts, if_neg hreport]
    refine ⟨⟨by rw [recorded, hrows, if_neg hreport]; rfl, ?_, ?_⟩,
      by rw [recorded, hrows, hafter, List.append_nil]⟩
    · rw [recorded, hrows]
      simp
    · rw [recorded, hrows]
      simp

/-- The audit log is append only: it is the log that was there, and then what
the commits have recorded, in their order. -/
theorem audit_log (hreach : Reachable (clients E requests s₀) w) :
    ((w.store .auditEvents).rows = (s₀ .auditEvents).rows ++
      w.log.reverse.flatMap recorded) ∧
    (∀ c ∈ w.log, Recorded E (requests c.pid) c) ∧
    ∀ p, ((w.log.filter fun c => c.pid = p).flatMap recorded).length =
      if (requests p).report.isSome then w.commits p else 0 := by
  have hrecorded := fun c (hc : c ∈ w.log) =>
    recorded_of_keeps ((disciplined hreach).log c hc)
  refine ⟨?_, fun c hc => (hrecorded c hc).1, fun p => ?_⟩
  · exact (wellFormed_of_reachable hreach).chain.rows_append
      fun c hc => (hrecorded c hc).2
  · have hone : ∀ c ∈ w.log.filter (fun c => c.pid = p),
        (recorded c).length =
          if (requests p).report.isSome then 1 else 0 := by
      intro c hc
      obtain ⟨hmem, hpid⟩ := List.mem_filter.mp hc
      rw [← of_decide_eq_true hpid]
      exact (hrecorded c hmem).1.one
    rw [List.length_flatMap, List.map_congr_left hone]
    simp [World.commits, List.countP_eq_length_filter]

/-- The event of the new issue. -/
theorem audit_log_office :
    ∃ w, Reachable officeClients w ∧ w.log.length = 1 ∧
      (w.store .auditEvents).rows = w.log.reverse.flatMap recorded ∧
      ∀ c ∈ w.log, Recorded testing (officeRequests c.pid) c := by
  have hrun : (officeClients.run assigningSteps).any
      (fun w => w.log.length = 1) = true := by
    decide +kernel
  obtain ⟨w, hreach, hlength⟩ := exists_reachable hrun
  obtain ⟨hrows, hrecorded, _⟩ := audit_log hreach
  have hempty : (office .auditEvents).rows = [] := by decide +kernel
  exact ⟨w, hreach, hlength, by rw [hrows, hempty, List.nil_append], hrecorded⟩

/-! ## Notifications -/

theorem erases_notifications (request : Request) :
    Table.notifications ∉ request.erases :=
  fun h => absurd (mem_erasable h) (by decide)

/-- A request either assigns an issue or marks notifications. -/
theorem alters_of_assignee {request : Request} {u : Uuid}
    (h : request.assignee = some u) : Table.notifications ∉ request.alters := by
  cases request with
  | tracker client authorization endpoint =>
      cases endpoint <;> simp [Request.alters, trackerAlters]
  | _ => cases h

/-- The notifications that are added with each commit. -/
theorem count_notifications (request : Request) {ts : List Table}
    (hts : ts ∈ request.inserts) :
    ts.count .notifications = request.notified.length := by
  have hcount : request.notified.count .notifications =
      request.notified.length := by
    unfold Request.notified
    split <;> rfl
  cases request with
  | account request =>
      cases request <;>
        simp_all [Request.inserts, Request.notified, Request.assignee]
  | tracker client authorization endpoint =>
      cases endpoint <;>
        simp_all [Request.inserts, Request.notified, Request.assignee,
          trackerReport]
      all_goals rcases hts with rfl | rfl <;> rfl
  | notifications authorization endpoint =>
      simp_all [Request.inserts, Request.notified, Request.assignee]
  | dispatch worker batchSize =>
      simp_all [Request.inserts, Request.notified, Request.assignee]
  | seed =>
      simp_all [Request.inserts, Request.notified, Request.assignee]
      rcases hts with rfl | rfl <;> rfl

/-- A notification is marked by its recipient. -/
def Marked (request : Request) :
    Option Notification → Option Notification → Prop
  | none, none => True
  | some n, some n' => n' = n ∨ request.Marks n ∧ Persists .notifications n n'
  | _, _ => False

/-- What a commit does to the notifications: it tells the assignee, if that is
somebody else, of the issue, or marks what is its own. -/
structure Notified (E : Environment) (request : Request)
    (c : Commit schema) : Prop where
  told : request.notified = [.notifications] → ∃ n : Notification,
    (c.after .notifications).rows = (c.before .notifications).rows ++ [n] ∧
    Born E request .notifications n ∧
    ∀ x ∈ c.session.writes, request.Fills x.ref.1 →
      ∀ i ∈ subject x, n.payload = i
  marked : request.notified = [] → ∀ k,
    Marked request ((c.before .notifications).lookup k)
      ((c.after .notifications).lookup k)

theorem assignee_of_notified {request : Request}
    (h : request.notified = [.notifications]) :
    ∃ u, request.assignee = some u ∧ request.assignee ≠ request.actor := by
  unfold Request.notified at h
  split at h
  · next hother => exact ⟨_, (Option.some_get hother.1).symm, hother.2⟩
  · cases h

theorem marked_of_edits {request : Request} {o o' : Option Notification}
    (hadds : Table.notifications ∉ request.adds)
    (h : (duty E request).Edits (t := .notifications) o o') :
    Marked request o o' := by
  cases o with
  | none =>
      have hnone := h.of_none (fun x hx => hadds hx.1) rfl
      rw [hnone]
      trivial
  | some n =>
      obtain ⟨n', rfl, hchain⟩ :=
        h.kept fun x hx => erases_notifications request hx
      rcases Relation.ReflTransGen.cases_head hchain with rfl | ⟨m, hmark, _⟩
      · exact .inl rfl
      · rcases Persists.of_chain hchain with heq | ⟨_, hpersists⟩
        · exact .inl heq
        · exact .inr ⟨hmark.2.2, hpersists⟩

theorem notified_of_keeps {request : Request} {c : Commit schema}
    (hkeeps : (duty E request).Keeps {} c) : Notified E request c where
  told := by
    intro hnotified
    obtain ⟨u, hassignee, _⟩ := assignee_of_notified hnotified
    obtain ⟨n, _, hafter, hborn, hnames⟩ := exists_added hkeeps
      (alters_of_assignee hassignee) (erases_notifications request)
      fun ts hts => by rw [count_notifications request hts, hnotified]; rfl
    exact ⟨n, hafter, hborn, hnames⟩
  marked := by
    intro hnobody k
    by_cases hadds : Table.notifications ∈ request.adds
    · have halters : Table.notifications ∉ request.alters := by
        cases request with
        | tracker client authorization endpoint =>
            cases endpoint <;> simp [Request.alters, trackerAlters]
        | account request =>
            cases request <;> simp [Request.adds, accountAdds] at hadds
        | _ => simp [Request.adds] at hadds
      obtain ⟨_, hafter⟩ := after_eq_before hkeeps halters
        (erases_notifications request)
        fun ts hts => by rw [count_notifications request hts, hnobody]; rfl
      rw [hafter]
      cases (c.before .notifications).lookup k with
      | none => trivial
      | some n => exact .inl rfl
    · exact marked_of_edits hadds (hkeeps.edits .notifications k)

/-- A commit that has assigned an issue to somebody else tells them once;
others may only mark what is theirs. -/
theorem commit_notifies (hreach : Reachable (clients E requests s₀) w)
    {c : Commit schema} (hc : c ∈ w.log) : Notified E (requests c.pid) c :=
  notified_of_keeps ((disciplined hreach).log c hc)

/-- Bob is told of his issue. -/
theorem commit_notifies_office :
    ∃ w, Reachable officeClients w ∧ ∃ c ∈ w.log,
      (officeRequests c.pid).notified = [.notifications] ∧
      Notified testing (officeRequests c.pid) c := by
  have hrun : (officeClients.run assigningSteps).any (fun w =>
      ∃ c ∈ w.log, (officeRequests c.pid).notified = [.notifications]) =
      true := by
    decide +kernel
  obtain ⟨w, hreach, c, hc, hnotified⟩ := exists_reachable hrun
  exact ⟨w, hreach, c, hc, hnotified, commit_notifies hreach hc⟩

/-- Somebody has been told by a commit, which has added the notification. -/
def Delivered (E : Environment) (requests : Pid → Request)
    (log : List (Commit schema)) (n : Notification) : Prop :=
  ∃ c ∈ log, (c.before .notifications).lookup (.id n.id) = none ∧
    n ∈ (c.after .notifications).rows ∧
    Born E (requests c.pid) .notifications n

/-- The recipient has asked for a notification to be marked. -/
def MarkedBy (requests : Pid → Request) (log : List (Commit schema))
    (n : Notification) : Prop :=
  ∃ c ∈ log, ∃ m : Notification, (requests c.pid).Marks m ∧ m.id = n.id ∧
    m.userId = n.userId

theorem Marked.fixed_eq {n n' : Notification}
    (h : Persists .notifications n n') :
    n'.id = n.id ∧ n'.userId = n.userId := by
  have hfixed := h.fixed
  simp only [fixed, Notification.mk.injEq] at hfixed
  exact ⟨hfixed.1, hfixed.2.1⟩

/-- Where a notification comes from, and who has marked it. -/
def Comes (E : Environment) (requests : Pid → Request) (s₀ : Db)
    (log : List (Commit schema)) (k : Key) (n : Notification) : Prop :=
  ∃ n₀ : Notification,
    ((s₀ .notifications).lookup k = some n₀ ∨ Delivered E requests log n₀) ∧
    Persists .notifications n₀ n ∧ (n = n₀ ∨ MarkedBy requests log n)

theorem Comes.cons {log : List (Commit schema)} {k : Key} {n : Notification}
    (h : Comes E requests s₀ log k n) (c : Commit schema) :
    Comes E requests s₀ (c :: log) k n := by
  obtain ⟨n₀, horigin, hpersists, hmarked⟩ := h
  refine ⟨n₀, horigin.imp_right ?_, hpersists, hmarked.imp_right ?_⟩
  · rintro ⟨d, hd, hborn⟩
    exact ⟨d, List.mem_cons_of_mem c hd, hborn⟩
  · rintro ⟨d, hd, hmark⟩
    exact ⟨d, List.mem_cons_of_mem c hd, hmark⟩

/-- A notification that is marked comes from where it came from. -/
theorem Comes.mark {log : List (Commit schema)} {c : Commit schema} {k : Key}
    {n n' : Notification} (h : Comes E requests s₀ (c :: log) k n)
    (hmark : (requests c.pid).Marks n)
    (hpersists : Persists .notifications n n') :
    Comes E requests s₀ (c :: log) k n' := by
  obtain ⟨n₀, horigin, hprev, _⟩ := h
  obtain ⟨hid, huser⟩ := Marked.fixed_eq hpersists
  exact ⟨n₀, horigin, hprev.trans hpersists,
    .inr ⟨c, List.mem_cons_self, n, hmark, hid.symm, huser.symm⟩⟩

theorem comes_of_chain {log : List (Commit schema)} {s : Db}
    (hchain : Chain s₀ log s)
    (hlog : ∀ c ∈ log, Notified E (requests c.pid) c) {k : Key}
    {n : Notification} (hn : (s .notifications).lookup k = some n) :
    Comes E requests s₀ log k n := by
  induction log generalizing s n with
  | nil =>
      obtain rfl : s = s₀ := hchain
      exact ⟨n, .inl hn, .refl .notifications n, .inl rfl⟩
  | cons c log ih =>
      obtain ⟨rfl, hprev⟩ := hchain
      have hnotified := hlog c List.mem_cons_self
      have hearlier : ∀ {m : Notification},
          (c.before .notifications).lookup k = some m →
          Comes E requests s₀ (c :: log) k m := fun hm =>
        (ih hprev (fun d hd => hlog d (List.mem_cons_of_mem c hd)) hm).cons c
      by_cases hnobody : (requests c.pid).notified = []
      · have hmarked := hnotified.marked hnobody k
        rw [hn] at hmarked
        cases hm : (c.before .notifications).lookup k with
        | none =>
            rw [hm] at hmarked
            exact hmarked.elim
        | some m =>
            rw [hm] at hmarked
            rcases hmarked with rfl | ⟨hmark, hpersists⟩
            · exact hearlier hm
            · exact (hearlier hm).mark hmark hpersists
      · have hsome : (requests c.pid).notified = [.notifications] := by
          unfold Request.notified at hnobody ⊢
          split <;> simp_all
        obtain ⟨m, hrows, hborn, _⟩ := hnotified.told hsome
        have hmem := Relation.mem_of_lookup hn
        have hmem' := hmem
        rw [hrows, List.mem_append, List.mem_singleton] at hmem
        rcases hmem with hold | rfl
        · apply hearlier
          rw [← Relation.key_of_lookup hn]
          exact Relation.lookup_key hold
        · have hnew : (c.before .notifications).lookup (.id n.id) = none :=
            Relation.lookup_of_append hrows
          exact ⟨n, .inr ⟨c, List.mem_cons_self, hnew, hmem', hborn⟩,
            .refl .notifications n, .inl rfl⟩

/-- A notification was there, or has been sent to its assignee by somebody
else, and is as it was unless its recipient has marked it. -/
theorem notification_comes (hreach : Reachable (clients E requests s₀) w)
    {k : Key} {n : Notification}
    (hn : (w.store .notifications).lookup k = some n) :
    Comes E requests s₀ w.log k n :=
  comes_of_chain (wellFormed_of_reachable hreach).chain
    (fun c hc => notified_of_keeps ((disciplined hreach).log c hc)) hn

/-- The notification comes from Mallory, and Bob has read it. -/
theorem notification_comes_office :
    ∃ w n, Reachable officeClients w ∧
      (w.store .notifications).lookup (.id 75) = some n ∧
      Notification.readAt n ≠ none ∧
      Comes testing officeRequests office w.log (.id 75) n := by
  have hrun : (officeClients.run (assigningSteps ++ readingSteps)).any
      (fun w => ((w.store .notifications).lookup (.id 75)).any
        (fun n => Notification.readAt n ≠ none) = true) = true := by
    decide +kernel
  obtain ⟨w, hreach, hany⟩ := exists_reachable hrun
  obtain ⟨n, hn, hread⟩ := (Option.any_eq_true _ _).mp hany
  exact ⟨w, n, hreach, hn, of_decide_eq_true hread,
    notification_comes hreach hn⟩

/-! ## The demo data -/

/-- A commit of the seed that plants the demo. -/
def Plants (requests : Pid → Request) (c : Commit schema) : Prop :=
  requests c.pid = .seed ∧ ∃ x ∈ c.session.writes, x.ref.1 = .projects

/-- The project of the demo. -/
def demoProject (E : Environment) (s : Db) : Option Project :=
  (s .projects).lookup (.id (Seed.uid E.uuid5 "project-eng"))

theorem alters_of_seed {t : Table} (ht : t ≠ .users) :
    t ∉ Request.seed.alters :=
  fun h => ht (List.mem_singleton.mp h)

/-- A seed plants one project, or leaves all tables but that of the users. -/
theorem seed_of_keeps {c : Commit schema}
    (hkeeps : (duty E .seed).Keeps {} c) :
    (demoProject E c.before = none ∧ ∃ p, demoProject E c.after = some p) ∨
    (∀ x ∈ c.session.writes, x.ref.1 ≠ .projects) ∧
      ∀ t, t ≠ .users → c.after t = c.before t := by
  obtain ⟨ts, hts, hlength⟩ := exists_inserts hkeeps
  have hcount : ∀ t, t ≠ .users →
      (c.session.writes.filter fun x => x.ref.1 = t).length = ts.count t :=
    fun t ht => hlength t (alters_of_seed ht) List.not_mem_nil
  rcases List.mem_cons.mp hts with rfl | hplant
  · right
    have hfilter : ∀ t, t ≠ .users →
        (c.session.writes.filter fun x => x.ref.1 = t) = [] := fun t ht =>
      List.eq_nil_of_length_eq_zero (hcount t ht)
    refine ⟨fun x hx hxt => ?_, fun t ht => Store.view_of_none (hfilter t ht)⟩
    exact List.filter_eq_nil_iff.mp (hfilter .projects (by decide)) x hx
      (decide_eq_true hxt)
  · left
    obtain rfl := List.mem_singleton.mp hplant
    obtain ⟨x, hfilter⟩ :=
      List.length_eq_one_iff.mp (hcount .projects (by decide))
    have hmem : x ∈ c.session.writes.filter fun x => x.ref.1 = .projects := by
      rw [hfilter]
      exact List.mem_singleton_self x
    obtain ⟨hx, hxt⟩ := List.mem_filter.mp hmem
    obtain ⟨_, p, rfl, hborn, hnew⟩ := born_of_mem hkeeps
      (alters_of_seed (by decide)) List.not_mem_nil hx (of_decide_eq_true hxt)
    have hid : p.id = Seed.uid E.uuid5 "project-eng" := hborn.2 rfl
    have hkey : schema.key (t := .projects) p =
        .id (Seed.uid E.uuid5 "project-eng") := congrArg Key.id hid
    have hrows := Store.view_rows_of_one hfilter hnew
    rw [demoProject, demoProject, ← hkey]
    refine ⟨hnew, p, Relation.lookup_key ?_⟩
    rw [Commit.after, Session.view, hrows]
    exact List.mem_append_right _ (List.mem_singleton_self p)

/-- The demo stays planted. -/
theorem demoProject_kept (hreach : Reachable (clients E requests s₀) w)
    {c : Commit schema} (hc : c ∈ w.log)
    (hbefore : demoProject E c.before ≠ none) :
    demoProject E c.after ≠ none := by
  obtain ⟨p, hp⟩ := Option.ne_none_iff_exists'.mp hbefore
  have hedits := ((disciplined hreach).log c hc).edits .projects
    (.id (Seed.uid E.uuid5 "project-eng"))
  rw [demoProject] at hp
  rw [hp] at hedits
  obtain ⟨p', hp', _⟩ := hedits.kept fun x hx =>
    absurd (mem_erasable hx) (by decide)
  rw [demoProject, hp']
  exact Option.some_ne_none p'

/-- However many seeds run, and whatever runs beside them, the demo is planted
once at most; every other seed leaves all tables but that of the users. -/
theorem seed_plants_once (hreach : Reachable (clients E requests s₀) w) :
    (w.log.Pairwise fun c d => ¬(Plants requests c ∧ Plants requests d)) ∧
    ∀ c ∈ w.log, requests c.pid = .seed → ¬Plants requests c →
      ∀ t, t ≠ .users → c.after t = c.before t := by
  have hseed : ∀ c ∈ w.log, requests c.pid = .seed →
      (duty E .seed).Keeps {} c := fun c hc hrequest => by
    have hkeeps := (disciplined hreach).log c hc
    rwa [hrequest] at hkeeps
  have hplants : ∀ c ∈ w.log, Plants requests c →
      demoProject E c.before = none ∧ demoProject E c.after ≠ none := by
    rintro c hc ⟨hrequest, x, hx, hxt⟩
    rcases seed_of_keeps (hseed c hc hrequest) with ⟨hnone, p, hp⟩ | hidle
    · exact ⟨hnone, hp ▸ Option.some_ne_none p⟩
    · exact absurd hxt (hidle.1 x hx)
  constructor
  · have hchain := (wellFormed_of_reachable hreach).chain
    suffices h : (w.log.Pairwise fun c d =>
        ¬(Plants requests c ∧ Plants requests d)) ∧
        ((∃ d ∈ w.log, Plants requests d) → demoProject E w.store ≠ none) from
      h.1
    refine hchain.induction (G := fun c => c ∈ w.log)
      (P := fun log s => (log.Pairwise fun c d =>
        ¬(Plants requests c ∧ Plants requests d)) ∧
        ((∃ d ∈ log, Plants requests d) → demoProject E s ≠ none))
      (fun c hc => hc) ⟨.nil, by simp⟩ ?_
    rintro c older hc ⟨hpairwise, hplanted⟩
    refine ⟨List.pairwise_cons.mpr ⟨?_, hpairwise⟩, ?_⟩
    · rintro d hd ⟨hcplants, hdplants⟩
      exact hplanted ⟨d, hd, hdplants⟩ (hplants c hc hcplants).1
    · rintro ⟨d, hd, hdplants⟩
      rcases List.mem_cons.mp hd with rfl | hd
      · exact (hplants d hc hdplants).2
      · exact demoProject_kept hreach hc (hplanted ⟨d, hd, hdplants⟩)
  · intro c hc hrequest hidle
    rcases seed_of_keeps (hseed c hc hrequest) with ⟨hnone, p, hp⟩ | ⟨_, hkept⟩
    · refine absurd ⟨hrequest, ?_⟩ hidle
      by_contra hno
      push Not at hno
      have hsame : c.after .projects = c.before .projects :=
        Store.view_of_table_ne hno
      rw [demoProject, hsame, ← demoProject, hnone] at hp
      cases hp
    · exact hkept

/-- What a seed does that has not found the demo. -/
def plantingSteps (p : Pid) : List (Pid × Input schema) :=
  steps p (List.replicate 7 (.value 1) ++ List.replicate 10 .go ++
    [.value 1, .go, .value 90, .value 1, .value 1, .go, .value 91, .value 1,
      .value 1, .go, .value 92, .value 1, .value 1, .go, .value 93, .go,
      .value 94, .value 1, .go, .go])

/-- Two seeds find no demo and one of them plants it; the other one is turned
down, and a third one finds the demo. -/
theorem seed_plants_once_office :
    ∃ w, Reachable officeClients w ∧
      (w.log.Pairwise fun c d =>
        ¬(Plants officeRequests c ∧ Plants officeRequests d)) ∧
      (∃ c ∈ w.log, Plants officeRequests c) ∧
      ∃ c ∈ w.log, c.pid = 6 ∧ ∀ t, t ≠ .users → c.after t = c.before t := by
  have hrun : (officeClients.run (steps 4 [.go] ++ steps 5 [.go] ++
      plantingSteps 4 ++ steps 5 (List.replicate 7 (.value 1) ++ [.go]) ++
      steps 6 [.go, .go])).any (fun w =>
        (∃ c ∈ w.log, c.pid = 4 ∧
          ∃ x ∈ c.session.writes, x.ref.1 = .projects) ∧
        ∃ c ∈ w.log, c.pid = 6 ∧
          ∀ x ∈ c.session.writes, x.ref.1 ≠ .projects) = true := by
    decide +kernel
  obtain ⟨w, hreach, ⟨c, hc, hpid, hplants⟩, d, hd, hpid', hnone⟩ :=
    exists_reachable hrun
  obtain ⟨honce, hothers⟩ := seed_plants_once hreach
  have hseed : officeRequests d.pid = .seed := by
    rw [hpid']
    rfl
  refine ⟨w, hreach, honce, ⟨c, hc, ⟨by rw [hpid]; rfl, hplants⟩⟩, d, hd,
    hpid', hothers d hd hseed ?_⟩
  rintro ⟨_, x, hx, hxt⟩
  exact hnone x hx hxt

end Runs

end Workstream.Application
