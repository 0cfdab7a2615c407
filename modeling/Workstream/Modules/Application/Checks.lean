import Workstream.Modules.Application.Duties

/-!
# Every request keeps to its duty

The rules of the discipline walk through each endpoint; what they leave is a
question about its tables, its rows and its errors.
-/

namespace Workstream.Application

open ReadCommitted Discipline

attribute [local simp] Prog.locking get requireMembership notFound
  insufficientPermission

section Rules

variable {E : Environment} {request : Request} {f : Standing schema Phase}
  {g : Phase} {α : Type}

@[simp] theorem duty_adds {t : Table} (r : Row t) :
    (duty E request).adds r ↔ t ∈ request.adds ∧ Born E request t r := Iff.rfl

@[simp] theorem duty_alters {t : Table} (r r' : Row t) :
    (duty E request).alters r r' ↔ t ∈ request.alters ∧ Persists t r r' ∧
      Altered E request t r r' := Iff.rfl

@[simp] theorem duty_erases {t : Table} (r : Row t) :
    (duty E request).erases r ↔ t ∈ request.erases := Iff.rfl

@[simp] theorem duty_note (x : Write schema) :
    (duty E request).note f x =
      { f with noted :=
          if request.Fills x.ref.1 then f.noted ++ [x] else f.noted } := by
  by_cases hfills : request.Fills x.ref.1
  · have hnotes : (duty E request).notes x = true := decide_eq_true hfills
    rw [if_pos hfills, note, List.filter_cons_of_pos hnotes, List.filter_nil]
  · have hnotes : (duty E request).notes x = false := decide_eq_false hfills
    rw [if_neg hfills, note_of_unnoted _ hnotes]

@[simp] theorem duty_asks (c : Call) :
    (duty E request).asks g c ↔ request.Asks E g c := Iff.rfl

@[simp] theorem duty_answered (c : Call) (n : ℕ) :
    (duty E request).answered g c n = g.answered c n := rfl

@[simp] theorem duty_commits (ws : List (Write schema)) :
    (duty E request).commits g ws ↔ request.Admitted E g ∧
      (request.commits = .often ∨ g.commits = 0) ∧
        ws.map (fun x => x.ref.1) ∈ request.inserts ∧ Consistent ws := Iff.rfl

@[simp] theorem duty_committed :
    (duty E request).committed g = g.committed := rfl

@[simp] theorem subject_user (r : User) :
    subject (.put .users r) = some r.id := rfl

@[simp] theorem subject_organization (r : Organization) :
    subject (.put .organizations r) = some r.id := rfl

@[simp] theorem subject_invitation (r : Invitation) :
    subject (.put .invitations r) = some r.id := rfl

@[simp] theorem subject_project (r : Project) :
    subject (.put .projects r) = some r.id := rfl

@[simp] theorem subject_issue (r : Issue) :
    subject (.put .issues r) = some r.id := rfl

@[simp] theorem subject_session (r : AuthSession) :
    subject (.put .authSessions r) = some r.id := rfl

@[simp] theorem subject_membership (r : Membership) :
    subject (.put .memberships r) = none := rfl

@[simp] theorem subject_notification (r : Notification) :
    subject (.put .notifications r) = none := rfl

@[simp] theorem subject_auditEvent (r : AuditEvent) :
    subject (.put .auditEvents r) = none := rfl

@[simp] theorem subject_oneTimeToken (r : OneTimeToken) :
    subject (.put .oneTimeTokens r) = none := rfl

@[simp] theorem subject_outboxEvent (r : OutboxEvent) :
    subject (.put .outboxEvents r) = none := rfl

@[simp] theorem names_auditEvent (r : AuditEvent) (x : Write schema) :
    Names (.put .auditEvents r) x ↔ ∀ i ∈ subject x, r.entityId = some i :=
  Iff.rfl

@[simp] theorem names_notification (r : Notification) (x : Write schema) :
    Names (.put .notifications r) x ↔ ∀ i ∈ subject x, r.payload = i :=
  Iff.rfl

/-- Other rows name nothing. -/
@[simp] theorem names_of_ne {t : Table} (ht : t ≠ .auditEvents)
    (ht' : t ≠ .notifications) (r : Row t) (x : Write schema) :
    Names (.put t r) x := by
  cases t <;> first | contradiction | trivial

theorem duty_raises (e : AppError) :
    (duty E request).raises g e ↔ Catalogued e ∧ e.code ∈ request.errors ∧
      (g.commits = 0 ∨ e.code ∈ request.late) := Iff.rfl

/-- An error without a `Retry-After` header. -/
@[simp] theorem catalogued_mk (status : ℕ) (code detail : String) :
    Catalogued { status, code, detail } ↔
      statusOf code = some status ∧ status ≠ 429 :=
  ⟨fun h => ⟨h.status, fun h' => by simpa [h'] using h.retry⟩,
    fun h => ⟨h.1, by simpa using h.2, by simp⟩⟩

@[simp] theorem persists_iff (t : Table) (r r' : Row t) :
    Persists t r r' ↔ fixed t r' = fixed t r ∧ progress t r ≤ progress t r' :=
  ⟨fun h => ⟨h.fixed, h.progress⟩, fun h => ⟨h.1, h.2⟩⟩

@[simp] theorem describes_iff (report : Report) (r : AuditEvent) :
    report.Describes r ↔ r.action = report.action ∧
      r.entityType = report.entityType ∧
      (∀ O ∈ report.organizationId, r.organizationId = some O) ∧
      ∀ i ∈ report.entityId, r.entityId = some i :=
  ⟨fun h => ⟨h.action, h.entityType, h.organization, h.entity⟩,
    fun h => ⟨h.1, h.2.1, h.2.2.1, h.2.2.2⟩⟩

@[simp] theorem raises_mk (status : ℕ) (code detail : String) :
    (duty E request).raises g { status, code, detail } ↔
      (statusOf code = some status ∧ status ≠ 429) ∧ code ∈ request.errors ∧
        (g.commits = 0 ∨ code ∈ request.late) := by
  rw [duty_raises, catalogued_mk]

@[simp] theorem follows_now {P : Standing schema Phase → Instant → Prop} :
    (duty E request).Follows P now f ↔ ∀ n, P f n := by
  simp [now, Request.Asks]

@[simp] theorem follows_scalarOneOrNone {rows : List α}
    {A : Discipline schema AppError Phase}
    {P : Standing schema Phase → Option α → Prop} :
    A.Follows P (scalarOneOrNone rows) f ↔
      (rows = [] → P f none) ∧ ∀ r, rows = [r] → P f (some r) := by
  match rows with
  | [] => simp [scalarOneOrNone]
  | [r] => simp [scalarOneOrNone]
  | _ :: _ :: _ => simp [scalarOneOrNone]

@[simp] theorem follows_audit {actorId entityId : Uuid}
    {organizationId : Option Uuid} {action entityType : String}
    {metadata : Metadata} {requestId : Option String}
    {P : Standing schema Phase → Unit → Prop} :
    (duty E request).Follows P (audit actorId organizationId action entityType
      entityId metadata requestId) f ↔
      ∀ id createdAt, (duty E request).adds (t := .auditEvents)
        { id, actorId := some actorId, organizationId, action, entityType
          entityId := some entityId, metadata, requestId, createdAt } ∧
        P ((duty E request).note f (.put .auditEvents
          { id, actorId := some actorId, organizationId, action, entityType
            entityId := some entityId, metadata, requestId, createdAt }))
          () := by
  simp [audit]

/-- A row that a statement looks for in its table, or an error. -/
theorem follows_find {t : Table} {pred : Row t → Bool} {e : AppError}
    {P : Standing schema Phase → Row t → Prop} :
    (duty E request).Follows P (do
      let rows ← Prog.select fun db => (db t).rows.filter pred
      let r ← scalarOneOrNone rows
      Prog.require r e) f ↔
      (∀ r, pred r = true → P f r) ∧ (duty E request).raises f.phase e := by
  rw [follows_bind, follows_select]
  simp only [follows_bind, follows_scalarOneOrNone, follows_require]
  constructor
  · intro h
    refine ⟨fun r hr => ?_, ?_⟩
    · have hrows : ((Store.empty schema).write (.put t r) t).rows.filter pred =
          [r] := by
        have hnone : (Store.empty schema t).lookup (schema.key r) = none := rfl
        rw [Store.write_put_self, Relation.put_rows_of_not_mem hnone]
        exact List.filter_cons_of_pos hr
      exact ((h _).2 r hrows).1 r rfl
    · exact ((h (Store.empty schema)).1 rfl).2 trivial
  · rintro ⟨hrow, hraise⟩ s
    refine ⟨fun _ => ⟨by simp, fun _ => hraise⟩, fun r hrows => ?_⟩
    have hr : r ∈ (s t).rows.filter pred := hrows ▸ List.mem_cons_self
    refine ⟨fun x hx => ?_, by simp⟩
    cases hx
    exact hrow r (List.mem_filter.mp hr).2

@[simp] theorem follows_getProject {O projectId : Uuid}
    {P : Standing schema Phase → Project → Prop} :
    (duty E request).Follows P (Projects.getProject O projectId) f ↔
      (∀ x : Project, x.id = projectId ∧ x.organizationId = O → P f x) ∧
        (duty E request).raises f.phase (notFound "Project not found") := by
  exact (follows_find (t := .projects)).trans (by simp)

@[simp] theorem follows_getIssue {O issueId : Uuid}
    {P : Standing schema Phase → Issue → Prop} :
    (duty E request).Follows P (Issues.getIssue O issueId) f ↔
      (∀ x : Issue, x.id = issueId ∧ x.organizationId = O ∧
        x.archivedAt = none → P f x) ∧
        (duty E request).raises f.phase (notFound "Issue not found") := by
  exact (follows_find (t := .issues)).trans (by simp)

@[simp] theorem follows_getLabel {O labelId : Uuid}
    {P : Standing schema Phase → Label → Prop} :
    (duty E request).Follows P (Labels.get O labelId) f ↔
      (∀ x : Label, x.id = labelId ∧ x.organizationId = O → P f x) ∧
        (duty E request).raises f.phase (notFound "Label not found") := by
  exact (follows_find (t := .labels)).trans (by simp)

@[simp] theorem follows_getComment {O commentId : Uuid}
    {P : Standing schema Phase → Comment → Prop} :
    (duty E request).Follows P (Comments.get O commentId) f ↔
      (∀ x : Comment, x.id = commentId ∧ x.organizationId = O → P f x) ∧
        (duty E request).raises f.phase (notFound "Comment not found") := by
  exact (follows_find (t := .comments)).trans (by simp)

/-- The counter goes up to its limit, or there is an error. -/
theorem follows_enforceRateLimit {scope client account : String} {limit : ℕ}
    {P : Standing schema Phase → Unit → Prop} (hcommits : f.phase.commits = 0)
    (herrors : "rate_limit_exceeded" ∈ request.errors ∧
      "security_service_unavailable" ∈ request.errors)
    (hcalls : ∀ g c, (c = .rateLimitHit scope client (accountKey account) ∨
      c = .rateLimitTtl scope client (accountKey account)) →
        request.Asks E g c)
    (h : ∀ g : Phase, g.commits = 0 →
      g.Within scope client (accountKey account) limit →
        P { f with phase := g } ()) :
    (duty E request).Follows P (enforceRateLimit scope client account limit)
      f := by
  simp only [enforceRateLimit, follows_bind, follows_callOut, follows_ensure,
    duty_asks, duty_answered, Phase.answered]
  refine ⟨hcalls _ _ (.inl rfl), fun n => ⟨fun hn => ?_, fun _ => ?_⟩⟩
  · refine ⟨hcalls _ _ (.inr rfl), fun ttl => ⟨fun hle => ?_, fun _ => ?_⟩⟩
    · have hpos : n ≠ 0 := by simpa using hn
      exact h _ hcommits ⟨n, rfl, Nat.pos_of_ne_zero hpos, by simpa using hle⟩
    · refine ⟨⟨by simp [rateLimitExceeded], by simp [rateLimitExceeded], ?_⟩,
        herrors.1, .inl hcommits⟩
      simp [rateLimitExceeded]
  · exact ⟨by simp [securityServiceUnavailable], herrors.2, .inl hcommits⟩

/-- A page is read after the cursor, or the cursor is an error. -/
theorem follows_listPage {ρ : Type} {P : Platform} {o : Sorting ρ}
    {stmt : Db → List ρ} {cursor : Option String} {limit : Limit}
    {Q : Standing schema Phase → CursorPage ρ → Prop} (h : ∀ page, Q f page)
    (hraise : (duty E request).raises f.phase invalidCursor) :
    (duty E request).Follows Q (listPage P o stmt cursor limit) f := by
  have hstart : (duty E request).Follows (fun g _ => g = f)
      (startPosition P cursor) f := by
    unfold startPosition
    split
    · exact rfl
    · simp only [follows_ite, follows_bind, follows_pure, implies_true,
        true_and]
      intro _
      unfold decodeCursor
      split
      · simp only [follows_pure]
        split
        · exact rfl
        · trivial
      · exact hraise
      · exact hraise
      · trivial
  rw [listPage, follows_bind]
  apply hstart.mono
  rintro _ start rfl
  simp [h]

/-- The row that a body describes, unless a constraint rejects it. -/
theorem allows_writeOrReject {t : Table} {pred : Row t → Bool}
    {values : Row t → Option (Row t)} {skipLocked : Bool} {limit : Option ℕ}
    {order : Row t → Row t → Bool}
    (h : ∀ r r', pred r = true → values r = some r' →
      (duty E request).alters r r') :
    (duty E request).Allows (σ := schema) (t := t)
      ⟨pred, fun r => Projects.writeOrReject (values r), skipLocked, limit,
        order⟩ := by
  intro r hr
  dsimp only
  cases hvalues : values r with
  | none => trivial
  | some r' => exact h r r' hr hvalues

/-- The principal is the bearer of the token. -/
theorem follows_currentPrincipal {authorization : Authorization}
    {P : Standing schema Phase → Principal → Prop}
    (hcommits : f.phase.commits = 0)
    (herrors : ∀ code ∈ tokenErrors, code ∈ request.errors)
    (h : ∀ principal : Principal,
      bearer authorization = some principal.user.id → P f principal) :
    (duty E request).Follows P (currentPrincipal authorization) f := by
  cases authorization with
  | missing =>
      rw [currentPrincipal, follows_raise, authenticationRequired, raises_mk]
      exact ⟨by simp, herrors _ (by simp), .inl hcommits⟩
  | invalid =>
      rw [currentPrincipal, follows_raise, invalidAccessToken, raises_mk]
      exact ⟨by simp, herrors _ (by simp), .inl hcommits⟩
  | claims userId sessionId =>
      have hraise : (duty E request).raises f.phase sessionRevoked := by
        rw [sessionRevoked, raises_mk]
        exact ⟨by simp, herrors _ (by simp), .inl hcommits⟩
      simp only [currentPrincipal, follows_bind, follows_select,
        follows_scalarOneOrNone, follows_require, follows_pure]
      refine fun s => ⟨fun _ => ⟨by simp, fun _ => hraise⟩,
        fun user hrows => ⟨fun u hu => ?_, by simp⟩⟩
      cases hu
      have hmem : user ∈ principalRows userId sessionId s :=
        hrows ▸ List.mem_cons_self
      exact h _ (congrArg some (of_mem_principalRows hmem).2.symm)

theorem follows_currentUser {authorization : Authorization}
    {P : Standing schema Phase → User → Prop} (hcommits : f.phase.commits = 0)
    (herrors : ∀ code ∈ tokenErrors, code ∈ request.errors)
    (h : ∀ user : User, bearer authorization = some user.id → P f user) :
    (duty E request).Follows P (currentUser authorization) f := by
  rw [currentUser, follows_bind]
  exact follows_currentPrincipal hcommits herrors fun principal hactor =>
    h principal.user hactor

theorem follows_validateAssignee {O : Uuid} {assigneeId : Option Uuid}
    {P : Standing schema Phase → Unit → Prop} (h : P f ())
    (hraise : (duty E request).raises f.phase Issues.invalidAssignee) :
    (duty E request).Follows P (Issues.validateAssignee O assigneeId) f := by
  cases assigneeId with
  | none => exact h
  | some assigneeId =>
      simp only [Issues.validateAssignee, follows_bind, follows_select,
        follows_ensure]
      exact fun _ => ⟨fun _ => h, fun _ => hraise⟩

theorem follows_takeNumber {projectId : Uuid}
    {P : Standing schema Phase → ℕ → Prop}
    (halters : Table.projects ∈ request.alters) (h : ∀ n, P f n) :
    (duty E request).Follows P (Issues.takeNumber projectId) f := by
  simp only [Issues.takeNumber, Prog.locking, follows_bind, follows_scan,
    allows_write, follows_ret]
  refine ⟨fun p _ => by simpa using halters, fun rows _ => ?_⟩
  split
  · exact h _
  · trivial

/-- Only somebody else is notified, of the issue that the request is about. -/
theorem follows_notifyAssignee (request : Request) {O issueId : Uuid}
    {actor : User} {report : Report} {P : Standing schema Phase → Unit → Prop}
    (hfills : request.Fills .notifications)
    (hactor : request.actor = some actor.id)
    (hreport : request.report = some report)
    (horganization : report.organizationId = some O)
    (hentity : ∀ i ∈ report.entityId, issueId = i)
    (hnobody : request.notified = [] → P f ())
    (hnotified : request.notified = [.notifications] →
      ∀ n : Notification, n.payload = issueId →
        P { f with noted := f.noted ++ [.put .notifications n] } ()) :
    (duty E request).Follows P
      (Issues.notifyAssignee O issueId actor request.assignee) f := by
  cases hassignee : request.assignee with
  | none => exact hnobody (by simp only [Request.notified, hassignee]; simp)
  | some userId =>
      simp only [Issues.notifyAssignee, follows_ite, follows_bind,
        follows_freshId, follows_now, follows_insertOrHalt, follows_pure]
      refine ⟨fun hsame => hnobody ?_, fun hother _ _ => ⟨?_, ?_⟩⟩
      · simp only [Request.notified, hassignee, hactor, hsame]
        simp
      · have hne : request.assignee ≠ request.actor := by
          rw [hassignee, hactor]
          simpa using hother
        refine ⟨hfills.1, rfl, rfl, ⟨hassignee, hne⟩, ?_⟩
        rw [hreport]
        rintro _ ⟨⟩
        exact ⟨horganization, hentity⟩
      · simp only [duty_note, Write.ref_put, hfills, if_true]
        apply hnotified _ _ rfl
        simp only [Request.notified, hassignee, hactor]
        simp [hother]

/-- The version goes up by one, or somebody else has changed the issue. -/
theorem follows_optimisticUpdate {issue : Issue} {expected : ℕ}
    {values : Issue → Option Issue} {P : Standing schema Phase → Issue → Prop}
    (halters : Table.issues ∈ request.alters)
    (hvalues : ∀ i i', values i = some i' → fixed .issues i' = fixed .issues i ∧
      i'.archivedAt = i.archivedAt ∧ Altered E request .issues i i')
    (hraise : (duty E request).raises f.phase Issues.staleIssueVersion)
    (h : ∀ i, P f i) :
    (duty E request).Follows P
      (Issues.optimisticUpdate issue expected values) f := by
  simp only [Issues.optimisticUpdate, Prog.locking, follows_bind, follows_now,
    follows_scan, follows_ret, follows_scalarOneOrNone, follows_require]
  intro time
  refine ⟨allows_writeOrReject fun i i' _ hi => ?_, fun rows => ?_⟩
  · obtain ⟨v, hv, rfl⟩ := Option.map_eq_some_iff.mp hi
    obtain ⟨hfixed, harchived, haltered⟩ := hvalues i v hv
    simp only [fixed] at hfixed
    simp only [duty_alters, persists_iff, fixed, progress]
    exact ⟨halters, ⟨by simpa using hfixed, by simp [harchived]⟩, haltered⟩
  · simp [hraise, h]

end Rules

attribute [local simp] accountAdds accountAlters trackerAdds trackerAlters
  trackerErases Request.adds Request.alters Request.erases Request.Fills
  Request.actor Request.stamp accountReport trackerReport Request.report
  Request.assignee Request.Assigns Request.inserts Request.Marks
  accountCommits trackerCommits
  Request.commits accountErrors trackerErrors Request.errors Request.late
  Request.Behind Request.Admitted Request.Asks Consistent

/-- A request to an endpoint keeps to its duty. -/
abbrev Kept (E : Environment) (request : Request) {α : Type}
    (prog : Tx α) : Prop :=
  (duty E request).Follows (Answers request) prog ⟨{}, []⟩

section Tracker

variable {E : Environment} {client : Auth.Client}
  {authorization : Authorization} {user : User} {O : Uuid}

attribute [local simp] Answers

/-! Endpoints that write nobody's name. -/

theorem kept_listOrgs {C} :
    Kept E (.tracker client authorization .listOrgs)
      (Organizations.listOrgs C user) := by
  simp [Organizations.listOrgs]

theorem kept_getOrg :
    Kept E (.tracker client authorization (.getOrg O))
      (Organizations.getOrg O user) := by
  simp [Organizations.getOrg]

theorem kept_members {C} :
    Kept E (.tracker client authorization (.members O))
      (Organizations.members C O user) := by
  simp [Organizations.members]

theorem kept_invitations :
    Kept E (.tracker client authorization (.invitations O))
      (Organizations.invitations O user) := by
  simp [Organizations.invitations]

theorem kept_listProjects {C includeArchived} :
    Kept E (.tracker client authorization (.listProjects O includeArchived))
      (Projects.list C O user includeArchived) := by
  simp [Projects.list]

theorem kept_getProject {projectId} :
    Kept E (.tracker client authorization (.getProject O projectId))
      (Projects.read O projectId user) := by
  simp [Projects.read]

theorem kept_updateProject {projectId body} :
    Kept E (.tracker client authorization (.updateProject O projectId body))
      (Projects.updateProject O projectId user body) := by
  simp [Projects.updateProject]
  intro _ _ _ _ _ r _ _
  apply allows_writeOrReject
  rintro p p' _ hp
  obtain ⟨name, description, rfl⟩ := Projects.ProjectUpdate.apply_cases hp
  simp

theorem kept_listIssues {P filters sort cursor limit} :
    Kept E
      (.tracker client authorization (.listIssues O filters sort cursor limit))
      (Issues.list P O user filters sort cursor limit) := by
  simp [Issues.list]
  intros
  apply follows_listPage
  · simp
  · simp [invalidCursor]

theorem kept_getIssue {issueId} :
    Kept E (.tracker client authorization (.getIssue O issueId))
      (Issues.read O issueId user) := by
  simp [Issues.read]

theorem kept_updateIssue {issueId body} :
    Kept E (.tracker client authorization (.updateIssue O issueId body))
      (Issues.updateIssue O issueId user body) := by
  simp [Issues.updateIssue]
  intros
  apply follows_optimisticUpdate
  · simp
  · intro i i' hi
    obtain ⟨_, _, _, _, rfl⟩ := Issues.IssueUpdate.apply_cases hi
    simp
  · simp [Issues.staleIssueVersion]
  · simp

theorem kept_archive {issueId} :
    Kept E (.tracker client authorization (.archiveIssue O issueId))
      (Issues.archive O issueId user) := by
  simp [Issues.archive]

theorem kept_createLabel {body} :
    Kept E (.tracker client authorization (.createLabel O body))
      (Labels.create O user body) := by
  simp [Labels.create, Prog.insertRow]
  intro _ _ _ _ _ e
  cases e <;> simp [Labels.labelNameConflict]

theorem kept_listLabels {C} :
    Kept E (.tracker client authorization (.listLabels O))
      (Labels.list C O user) := by
  simp [Labels.list]

theorem kept_updateLabel {labelId body} :
    Kept E (.tracker client authorization (.updateLabel O labelId body))
      (Labels.update O labelId user body) := by
  simp [Labels.update, Labels.LabelCreate.flush]

theorem kept_deleteLabel {labelId} :
    Kept E (.tracker client authorization (.deleteLabel O labelId))
      (Labels.delete O labelId user) := by
  simp [Labels.delete]
  intro _ _ _ _ _ _ _ rows
  split <;> simp

theorem kept_attach {issueId labelId} :
    Kept E (.tracker client authorization (.attach O issueId labelId))
      (Labels.attach O issueId labelId user) := by
  simp [Labels.attach, Labels.checkLabel, Prog.insertRow]
  intros
  split <;> simp

theorem kept_detach {issueId labelId} :
    Kept E (.tracker client authorization (.detach O issueId labelId))
      (Labels.detach O issueId labelId user) := by
  simp [Labels.detach]

theorem kept_listComments {P issueId cursor limit} :
    Kept E
      (.tracker client authorization (.listComments O issueId cursor limit))
      (Comments.list P O issueId user cursor limit) := by
  simp [Comments.list]
  intros
  apply follows_listPage
  · simp
  · simp [invalidCursor]

theorem kept_updateComment {commentId body} :
    Kept E (.tracker client authorization (.updateComment O commentId body))
      (Comments.update O commentId user body) := by
  simp [Comments.update, Comments.CommentCreate.flush]

theorem kept_deleteComment {commentId} :
    Kept E (.tracker client authorization (.deleteComment O commentId))
      (Comments.delete O commentId user) := by
  simp [Comments.delete]

theorem kept_listAudit {P cursor limit} :
    Kept E (.tracker client authorization (.listAudit O cursor limit))
      (Audit.list P O user cursor limit) := by
  simp [Audit.list]
  intros
  apply follows_listPage
  · simp
  · simp [invalidCursor]

/-! Endpoints that write the name of the bearer. -/

section Bearer

variable (hactor : bearer authorization = some user.id)

include hactor

theorem kept_createOrganization {body} :
    Kept E (.tracker client authorization (.createOrganization body))
      (Organizations.create user body client.requestId) := by
  simp [Organizations.create, Prog.insertRow, hactor]
  intro _ _ _ e
  cases e <;> simp [Organizations.slugConflict]

theorem kept_updateOrg {body} :
    Kept E (.tracker client authorization (.updateOrg O body))
      (Organizations.update O user body) := by
  simp [Organizations.update, hactor]
  intro _ _ _ _ _ org horg
  have hid : org.id = O := Key.id.inj (Relation.key_of_lookup horg)
  simp [hid]

theorem kept_changeRole {memberId body} :
    Kept E (.tracker client authorization (.changeRole O memberId body))
      (Organizations.changeRole O memberId user body) := by
  simp [Organizations.changeRole, Organizations.lockMember,
    Organizations.protectOwner, Organizations.finalOwner, hactor]

theorem kept_removeMember {memberId} :
    Kept E (.tracker client authorization (.removeMember O memberId))
      (Organizations.removeMember O memberId user) := by
  simp [Organizations.removeMember, Organizations.lockMember,
    Organizations.protectOwner, Organizations.finalOwner, hactor]
  intro _ m _ _
  split <;> simp +contextual

theorem kept_inviteLimited {body} :
    Kept E (.tracker client authorization (.invite O body))
      (Organizations.inviteLimited E.tokens E.settings client O user body) := by
  rw [Organizations.inviteLimited, Kept, follows_bind]
  apply follows_enforceRateLimit
  · rfl
  · simp
  · rintro g _ (rfl | rfl) <;> simp
  · intro g hg hwithin
    simp [Organizations.invite, hactor, hg, hwithin]

theorem kept_revokeInvitation {invitationId} :
    Kept E (.tracker client authorization (.revokeInvitation O invitationId))
      (Organizations.revokeInvitation O invitationId user) := by
  simp +contextual [Organizations.revokeInvitation, hactor]

theorem kept_accept {body} :
    Kept E (.tracker client authorization (.acceptInvitation body))
      (Organizations.accept E.tokens user body) := by
  simp [Organizations.invalidInvitation, Organizations.invitationEmailMismatch,
    Organizations.accept, Organizations.join, hactor]

theorem kept_createProject {body} :
    Kept E (.tracker client authorization (.createProject O body))
      (Projects.createProject O user body) := by
  simp [Projects.createProject, Prog.insertRow, hactor]
  intro _ _ _ _ _ _ e
  cases e <;> simp [Projects.projectKeyConflict]

theorem kept_setArchived {projectId archived} :
    Kept E (.tracker client authorization (.setArchived O projectId archived))
      (Projects.setArchived O projectId user archived) := by
  simp +contextual [Projects.setArchived, hactor]

theorem kept_createIssue {body} :
    Kept E (.tracker client authorization (.createIssue O body))
      (Issues.createIssue O user body) := by
  simp [Issues.createIssue, Issues.projectArchived, hactor]
  intros
  apply follows_validateAssignee
  · apply follows_takeNumber
    · simp
    · intro number id createdAt updatedAt eventId _
      apply follows_notifyAssignee (.tracker client authorization
        (.createIssue O body)) (by simp) hactor rfl rfl
      · simp
      · intro hnobody
        simp [hnobody]
      · intro hnotified n hn
        simp [hnotified, hn]
  · simp [Issues.invalidAssignee]

theorem kept_changeStatus {issueId body} :
    Kept E (.tracker client authorization (.changeStatus O issueId body))
      (Issues.changeStatus O issueId user body) := by
  simp [Issues.changeStatus, Issues.invalidStatusTransition, hactor]
  intro _ _ _ _ issue hid _ _ _
  apply follows_optimisticUpdate
  · simp
  · rintro i i' ⟨⟩
    simp
  · simp [Issues.staleIssueVersion]
  · simp [hid]

theorem kept_assign {issueId body} :
    Kept E (.tracker client authorization (.assign O issueId body))
      (Issues.assign O issueId user body) := by
  simp [Issues.assign, hactor]
  intros
  apply follows_validateAssignee
  · refine ⟨fun issue hid _ _ => ?_, rfl⟩
    apply follows_optimisticUpdate
    · simp
    · rintro i i' ⟨⟩
      simp
    · simp [Issues.staleIssueVersion]
    · intro _ eventId _
      refine ⟨hid, ?_⟩
      apply follows_notifyAssignee (.tracker client authorization
        (.assign O issueId body)) (by simp) hactor rfl rfl
      · simp [hid]
      · intro hnobody
        simp [hnobody]
      · intro hnotified n hn
        simp [hnotified]
  · simp [Issues.invalidAssignee]

theorem kept_createComment {issueId body} :
    Kept E (.tracker client authorization (.createComment O issueId body))
      (Comments.create O issueId user body) := by
  simp [Comments.create, hactor]

end Bearer

end Tracker

/-! ## Accounts -/

section Account

variable {E : Environment} {client : Auth.Client}
  {authorization : Authorization}

attribute [local simp] Answers Auth.accessToken Auth.pair Auth.revokeWhere
  Auth.issueToken Auth.userByEmail Auth.assertUser

theorem kept_register {body} :
    Kept E (.account (.register body client))
      (Auth.register E.tokens body client) := by
  simp [Auth.register, Prog.insertRow]
  simp [Auth.emailAlreadyRegistered]

theorem kept_login {body} :
    Kept E (.account (.login body client))
      (Auth.login E.tokens E.settings body client) := by
  rw [Auth.login, Kept, follows_bind]
  apply follows_enforceRateLimit
  · rfl
  · simp
  · rintro g _ (rfl | rfl) <;> simp
  · intro g hg hwithin
    simp [Auth.invalidCredentials, hg, hwithin]

theorem kept_refresh {body} :
    Kept E (.account (.refresh body))
      (Auth.refresh E.tokens E.settings body) := by
  simp [Auth.refresh, Auth.exchange, Auth.invalidRefreshToken,
    Auth.deadRefreshToken, Auth.refreshTokenReuse]
  intros
  split <;> simp

theorem kept_logout :
    Kept E (.account (.logout authorization)) (Auth.logout authorization) := by
  rw [Auth.logout, Kept, follows_bind]
  apply follows_currentPrincipal <;> simp

theorem kept_sessions :
    Kept E (.account (.sessions authorization))
      (Auth.sessions authorization) := by
  rw [Auth.sessions, Kept, follows_bind]
  apply follows_currentUser <;> simp

theorem kept_revokeSession {sessionId} :
    Kept E (.account (.revokeSession sessionId authorization))
      (Auth.revokeSession sessionId authorization) := by
  rw [Auth.revokeSession, Kept, follows_bind]
  apply follows_currentUser <;> simp

theorem kept_revokeAll :
    Kept E (.account (.revokeAll authorization))
      (Auth.revokeAll authorization) := by
  rw [Auth.revokeAll, Kept, follows_bind]
  apply follows_currentUser <;> simp

theorem kept_verifyEmail {body} :
    Kept E (.account (.verifyEmail body))
      (Auth.verifyEmail E.tokens body) := by
  simp [Auth.verifyEmail, Auth.claimToken, Auth.invalidToken]
  intros
  split <;> simp

theorem kept_resendVerification :
    Kept E (.account (.resendVerification authorization client))
      (Auth.resendVerification E.tokens E.settings authorization client) := by
  rw [Auth.resendVerification, Kept, follows_bind]
  apply follows_currentUser
  · rfl
  · simp
  · intro user hactor
    rw [follows_bind]
    apply follows_enforceRateLimit
    · rfl
    · simp
    · rintro g _ (rfl | rfl) <;> simp
    · intro g hg hwithin
      simp [hactor, hg]
      exact fun _ => ⟨_, hwithin⟩

theorem kept_requestReset {body} :
    Kept E (.account (.requestReset body client))
      (Auth.requestReset E.tokens E.settings body client) := by
  rw [Auth.requestReset, Kept, follows_bind]
  apply follows_enforceRateLimit
  · rfl
  · simp
  · rintro g _ (rfl | rfl) <;> simp
  · intro g hg hwithin
    simp [hg, hwithin]

theorem kept_resetPassword {body} :
    Kept E (.account (.resetPassword body))
      (Auth.resetPassword E.tokens body) := by
  simp [Auth.resetPassword, Auth.claimToken, Auth.invalidToken]
  intros
  split <;> simp

end Account

/-! ## Notifications, the dispatcher and the demo data -/

section Others

variable {E : Environment} {authorization : Authorization} {user : User}

attribute [local simp] Answers

theorem kept_list {cursor limit} :
    Kept E (.notifications authorization (.list cursor limit))
      (Notifications.list E.platform user cursor limit) := by
  apply follows_listPage
  · simp
  · simp [invalidCursor]

theorem kept_unreadCount :
    Kept E (.notifications authorization .unread)
      (Notifications.unreadCount user) := by
  simp [Notifications.unreadCount]

theorem kept_markRead {notificationId}
    (hactor : bearer authorization = some user.id) :
    Kept E (.notifications authorization (.read notificationId))
      (Notifications.markRead user notificationId) := by
  simp +contextual [Notifications.markRead, hactor]

theorem kept_markAllRead (hactor : bearer authorization = some user.id) :
    Kept E (.notifications authorization .readAll)
      (Notifications.markAllRead user) := by
  simp [Notifications.markAllRead, hactor]
  intro x hx
  have hunread : Notifications.Unread user.id x := by simpa using hx
  exact ⟨hunread.2, hunread.1⟩

end Others

/-! ## The dispatcher -/

section Dispatch

open Outbox

variable {E : Environment} {worker name : String} {batchSize : ℕ}

/-- The dispatcher may commit and call in every phase, and adds no rows. -/
abbrev Dispatches (E : Environment) (worker : String) (batchSize : ℕ)
    {α : Type} (prog : Tx α) : Prop :=
  ∀ phase, (duty E (.dispatch worker batchSize)).Follows
    (fun f _ => f.noted = []) prog ⟨phase, []⟩

/-- A program goes on where another one ends. -/
theorem Dispatches.bind {α β : Type} {x : Tx α} {g : α → Tx β}
    (hx : Dispatches E worker batchSize x)
    (hg : ∀ a, Dispatches E worker batchSize (g a)) :
    Dispatches E worker batchSize (x >>= g) := by
  intro phase
  rw [follows_bind]
  apply (hx phase).mono
  rintro ⟨phase', noted⟩ a rfl
  exact hg a phase'

theorem dispatches_leaseAll {time : Instant} (events : List OutboxEvent) :
    Dispatches E worker batchSize (leaseAll name time events) := by
  intro f
  induction events with
  | nil => exact rfl
  | cons e events ih =>
      rw [leaseAll, follows_bind, follows_updateKey]
      exact ⟨fun r _ => by simp [lease], fun _ => ih⟩

theorem dispatches_markProcessed {event : ClaimedEvent} :
    Dispatches E worker batchSize (markProcessed event name) := by
  intro f
  simp [markProcessed, process, Prog.locking]

theorem persists_fail (maxAttempts : ℕ) (error : String)
    (time extra : Instant) (e : OutboxEvent) :
    Persists .outboxEvents e (fail maxAttempts error time extra e) := by
  rw [persists_iff]
  unfold fail
  simp only [fixed, progress]
  split
  · simp
  · simp

theorem dispatches_markFailed {event : ClaimedEvent} {error : String}
    {maxAttempts : ℕ} :
    Dispatches E worker batchSize
      (markFailed event name error maxAttempts) := by
  intro f
  simp only [markFailed, Prog.locking, follows_bind, follows_now, follows_scan,
    allows_lock, follows_ret, true_and]
  intro time rows
  split
  · simp
  · have hfail := persists_fail maxAttempts error time
    simp only [follows_bind, follows_ite, follows_updateKey, duty_alters,
      hfail, follows_commitNow, follows_pure, follows_callOut]
    simp

theorem dispatches_deliver {event : ClaimedEvent} :
    Dispatches E worker batchSize (deliver event) := by
  have hentry : ∀ key,
      Dispatches E worker batchSize (entry event.payload key) := by
    intro key f
    unfold entry
    split
    · exact rfl
    · trivial
  refine (hentry "token").bind fun token => ?_
  split
  · exact fun _ => trivial
  · refine (hentry "email").bind fun recipient => ?_
    intro f
    simp

theorem dispatches_dispatchEvent {event : ClaimedEvent} :
    Dispatches E worker batchSize
      (dispatchEvent E.dispatching E.className name event) := by
  intro f
  rw [dispatchEvent, follows_attempt]
  refine ⟨⟨worker, batchSize, rfl⟩, ?_, ?_⟩
  · intro f'
    have hcaught : Dispatches E worker batchSize
        (Prog.callOut (.caught event.id)) := fun f => ⟨trivial, fun _ => rfl⟩
    exact (hcaught.bind fun error => dispatches_markFailed.bind
      fun _ f => by exact rfl) f'
  · exact (dispatches_deliver.bind fun _ => dispatches_markProcessed.bind
      fun _ f => by exact rfl) f

theorem dispatches_dispatchEvents (events : List ClaimedEvent) :
    Dispatches E worker batchSize
      (dispatchEvents E.dispatching E.className name events) := by
  induction events with
  | nil => exact fun _ => rfl
  | cons event events ih =>
      exact dispatches_dispatchEvent.bind fun processed =>
        ih.bind fun count f => by exact rfl

theorem dispatches_claimEvents {leaseSeconds : ℕ} :
    Dispatches E worker batchSize
      (claimEvents name batchSize leaseSeconds) := by
  intro f
  simp only [claimEvents, Prog.locking, claimScan, follows_bind, follows_now,
    follows_scan, allows_lock, follows_ret, follows_commitNow, follows_pure,
    true_and]
  intro time rows _
  apply (dispatches_leaseAll rows f).mono
  intro f _ hf
  simp [hf]

theorem kept_dispatchOutbox :
    Kept E (.dispatch worker batchSize)
      (dispatchOutbox E.dispatching E.className worker batchSize) := by
  have hdispatch : Dispatches E worker batchSize
      (dispatchOutbox E.dispatching E.className worker batchSize) :=
    dispatches_claimEvents.bind fun events => dispatches_dispatchEvents events
  exact (hdispatch {}).mono fun _ _ _ => trivial

end Dispatch

/-! ## The demo data -/

section Seed

variable {E : Environment}

/-- Nothing is noted, and nothing has been committed. -/
def Clean (f : Standing schema Phase) : Prop :=
  f.phase.commits = 0 ∧ f.noted = []

theorem follows_resetEmails (existing : List User)
    (accounts : List (String × String × String))
    (haccounts : ∀ x ∈ accounts, Seed.uid E.uuid5 x.1 ∈
      Seed.seedUserIds E.uuid5) :
    (duty E .seed).Follows (fun f _ => Clean f)
      (Seed.resetEmails E.uuid5 existing accounts) ⟨{}, []⟩ := by
  induction accounts with
  | nil => exact ⟨rfl, rfl⟩
  | cons x accounts ih =>
      have hrest := ih fun y hy => haccounts y (List.mem_cons_of_mem x hy)
      obtain ⟨name, email, displayName⟩ := x
      have hseed := haccounts _ List.mem_cons_self
      rw [Seed.resetEmails, follows_bind]
      cases hfind : existing.find? fun u => u.id = Seed.uid E.uuid5 name with
      | none => exact hrest
      | some user =>
          have hid : user.id = Seed.uid E.uuid5 name := by
            simpa using List.find?_some hfind
          simp only [follows_ite, follows_pure, follows_updateKey, duty_alters]
          refine ⟨fun _ => hrest, fun _ => ⟨fun u hu => ?_, fun _ => hrest⟩⟩
          have hkey : u.id = user.id := Key.id.inj hu
          simp [hkey, hid, hseed]

variable {f : Standing schema Phase}

theorem follows_demoAccounts {P : Standing schema Phase → List User → Prop}
    (accounts : List (String × String × String))
    (h : ∀ users : List User,
      (∀ u ∈ users, u.emailVerifiedAt = none ∧ u.isActive = true) →
        P f users) :
    (duty E .seed).Follows P (Seed.demoAccounts E.uuid5 accounts) f := by
  induction accounts generalizing P with
  | nil => exact h [] (by simp)
  | cons x accounts ih =>
      obtain ⟨name, email, displayName⟩ := x
      rw [Seed.demoAccounts, follows_bind, follows_callOut]
      refine ⟨trivial, fun n => ?_⟩
      rw [follows_bind]
      apply ih
      intro users husers
      rw [follows_pure]
      apply h
      simpa using husers

/-- The rows are noted, if their table is. -/
theorem follows_insertAll {t : Table} {P : Standing schema Phase → Unit → Prop}
    (rows : List (Row t)) (hadds : ∀ r ∈ rows, (duty E .seed).adds r)
    (h : P (rows.foldl (fun f r => (duty E .seed).note f (.put t r)) f) ()) :
    (duty E .seed).Follows P (Seed.insertAll t rows) f := by
  induction rows generalizing f with
  | nil => exact h
  | cons r rows ih =>
      rw [Seed.insertAll, follows_bind, follows_insertOrHalt]
      exact ⟨hadds r List.mem_cons_self,
        ih (fun x hx => hadds x (List.mem_cons_of_mem r hx)) h⟩

theorem follows_insertIssues {project : Project} {reporterId assigneeId : Uuid}
    {P : Standing schema Phase → List Issue → Prop}
    (specs : List (ℕ × String × IssueStatus × Priority))
    (h : ∀ issues : List Issue, issues.length = specs.length →
      P { f with noted := f.noted ++
        issues.map fun i => (.put Table.issues i : Write schema) } issues) :
    (duty E .seed).Follows P
      (Seed.insertIssues project reporterId assigneeId specs) f := by
  induction specs generalizing P f with
  | nil =>
      rw [Seed.insertIssues, follows_pure]
      simpa using h [] rfl
  | cons x specs ih =>
      obtain ⟨number, title, status, priority⟩ := x
      simp only [Seed.insertIssues, follows_bind, follows_freshId, follows_now,
        follows_insertOrHalt, follows_pure]
      intro id createdAt updatedAt
      refine ⟨by simp, ih fun issues hlength => ?_⟩
      simpa using h (_ :: issues) (congrArg Nat.succ hlength)

theorem kept_seed : Kept E .seed (Seed.main E.uuid5) := by
  simp only [Kept, Seed.main, follows_bind, follows_select, follows_ite,
    follows_commitNow]
  refine fun s => ⟨fun _ => ?_, fun _ => ?_⟩
  · have hreset := follows_resetEmails (E := E)
      ((s .users).rows.filter fun u : User =>
        u.id ∈ Seed.seedUserIds E.uuid5) Seed.demoUsers
      (fun x hx => List.mem_map_of_mem hx)
    apply hreset.mono
    rintro f _ ⟨hcommits, hnoted⟩
    simp [Answers, hcommits, hnoted]
  · simp only [Seed.plant, Seed.demoOrganization, follows_bind, follows_now,
      follows_pure]
    apply follows_demoAccounts
    intro users husers _ _ _ _
    apply follows_insertAll
    · simpa using husers
    · apply follows_insertAll
      · simp
      · apply follows_insertAll
        · simp
        · intro createdAt
          rw [follows_insertOrHalt]
          refine ⟨by simp, ?_⟩
          apply follows_insertIssues
          intro issues hlength
          simp only [follows_freshId, follows_insertOrHalt]
          refine fun _ => ⟨by simp, ?_⟩
          split
          · trivial
          · next issue rest =>
              have hrest : rest.length = 2 := Nat.succ.inj hlength
              have hall : ∀ {α : Type} (l : List α), l.Forall fun _ => True :=
                fun l => List.forall_iff_forall_mem.mpr fun _ _ => trivial
              simp [Answers, hrest, Function.comp_def, hall]

end Seed

/-! ## Every request -/

/-- Every request keeps to its duty. -/
theorem follows_serve (E : Environment) (request : Request) :
    (duty E request).Follows (Answers request) (serve E request) ⟨{}, []⟩ := by
  have hbind : ∀ {α β : Type} {g : α → β} {x : Tx α},
      Kept E request x → (duty E request).Follows (Answers request) (g <$> x)
        ⟨{}, []⟩ := fun h => (follows_map _ _).mpr h
  cases request with
  | account request =>
      apply hbind
      cases request with
      | register body client => exact hbind kept_register
      | login body client => exact hbind kept_login
      | refresh body => exact hbind kept_refresh
      | logout authorization => exact hbind kept_logout
      | sessions authorization => exact hbind kept_sessions
      | revokeSession sessionId authorization => exact hbind kept_revokeSession
      | revokeAll authorization => exact hbind kept_revokeAll
      | verifyEmail body => exact hbind kept_verifyEmail
      | resendVerification authorization client =>
          exact hbind kept_resendVerification
      | requestReset body client => exact hbind kept_requestReset
      | resetPassword body => exact hbind kept_resetPassword
  | tracker client authorization endpoint =>
      apply hbind
      rw [Kept, Tracker.Endpoint.serve, follows_bind]
      apply follows_currentUser rfl
      · simp +contextual
      · intro user hactor
        cases endpoint with
        | createOrganization body =>
            exact hbind (kept_createOrganization hactor)
        | listOrgs => exact hbind kept_listOrgs
        | getOrg O => exact hbind kept_getOrg
        | updateOrg O body => exact hbind (kept_updateOrg hactor)
        | members O => exact hbind kept_members
        | changeRole O memberId body => exact hbind (kept_changeRole hactor)
        | removeMember O memberId => exact hbind (kept_removeMember hactor)
        | invite O body => exact hbind (kept_inviteLimited hactor)
        | invitations O => exact hbind kept_invitations
        | revokeInvitation O invitationId =>
            exact hbind (kept_revokeInvitation hactor)
        | acceptInvitation body => exact hbind (kept_accept hactor)
        | createProject O body => exact hbind (kept_createProject hactor)
        | listProjects O includeArchived => exact hbind kept_listProjects
        | getProject O projectId => exact hbind kept_getProject
        | updateProject O projectId body =>
            exact hbind kept_updateProject
        | setArchived O projectId archived =>
            exact hbind (kept_setArchived hactor)
        | createIssue O body => exact hbind (kept_createIssue hactor)
        | listIssues O filters sort cursor limit =>
            exact hbind kept_listIssues
        | getIssue O issueId => exact hbind kept_getIssue
        | updateIssue O issueId body => exact hbind kept_updateIssue
        | changeStatus O issueId body => exact hbind (kept_changeStatus hactor)
        | assign O issueId body => exact hbind (kept_assign hactor)
        | archiveIssue O issueId => exact hbind kept_archive
        | createLabel O body => exact hbind kept_createLabel
        | listLabels O => exact hbind kept_listLabels
        | updateLabel O labelId body => exact hbind kept_updateLabel
        | deleteLabel O labelId => exact hbind kept_deleteLabel
        | attach O issueId labelId => exact hbind kept_attach
        | detach O issueId labelId => exact hbind kept_detach
        | createComment O issueId body =>
            exact hbind (kept_createComment hactor)
        | listComments O issueId cursor limit =>
            exact hbind kept_listComments
        | updateComment O commentId body => exact hbind kept_updateComment
        | deleteComment O commentId => exact hbind kept_deleteComment
        | listAudit O cursor limit => exact hbind kept_listAudit
  | notifications authorization endpoint =>
      apply hbind
      rw [Kept, Notifications.Endpoint.serve, follows_bind]
      apply follows_currentUser rfl
      · cases endpoint <;> simp
      · intro user hactor
        cases endpoint with
        | list cursor limit => exact hbind kept_list
        | unread => exact hbind kept_unreadCount
        | read notificationId => exact hbind (kept_markRead hactor)
        | readAll => exact hbind (kept_markAllRead hactor)
  | dispatch worker batchSize => exact hbind kept_dispatchOutbox
  | seed => exact hbind kept_seed

end Workstream.Application
