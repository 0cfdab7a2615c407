import Workstream.Api.Requests
import Workstream.Modules.Issues.Effects

/-!
# The transactions of the project and issue services

`Transacts` lists the rows that every kind of request commits, what it has
checked before, and on which stores.  A project and an issue are read without
a lock; the counter of the project and the row of the issue are locked by the
`UPDATE` that follows.
-/

namespace Workstream.Issues

open ReadCommitted Contract Projects

/-! ## Checks -/

section Checks

variable (past : List schema.Ref → Db → Prop) (c : Commit schema)

/-- `get_issue` has read `x` in `db`, which was committed then. -/
structure Got (O i : Uuid) (db : Db) (x : Issue) : Prop where
  seen : .saw db ∈ c.session.seen
  past : past [] db
  row : (db .issues).lookup (.id i) = some x
  organization : x.organizationId = O
  unarchived : x.archivedAt = none

/-- `get_project` has read `project`. -/
def GotProject (O k : Uuid) (project : Project) : Prop :=
  project.organizationId = O ∧ ∃ db, past [] db ∧
    (db .projects).lookup (.id k) = some project

/-- `validate_assignee` has found the assignee among the active members. -/
def Assignable (O : Uuid) : Option Uuid → Prop
  | none => True
  | some userId => ∃ db, past [] db ∧ userId ∈ activeMembers O userId db

end Checks

/-! ## Effects -/

/-- The row that `create_project` inserts. -/
def newProject (O : Uuid) (body : ProjectCreate) (id : Uuid)
    (createdAt : Instant) : Project where
  id := id
  organizationId := O
  name := body.name
  key := body.key
  description := body.description
  createdAt := createdAt

/-- The row that `create_issue` inserts. -/
def newIssue (O : Uuid) (actor : User) (body : IssueCreate) (number : ℕ)
    (id : Uuid) (createdAt updatedAt : Instant) : Issue where
  id := id
  organizationId := O
  projectId := body.projectId
  number := number
  title := body.title
  description := body.description
  priority := body.priority
  reporterId := actor.id
  assigneeId := body.assigneeId
  dueDate := body.dueDate
  createdAt := createdAt
  updatedAt := updatedAt

/-- The notification of an assignee. -/
def assignedNotification (O i : Uuid) (id userId : Uuid)
    (createdAt : Instant) : Notification where
  id := id
  userId := userId
  organizationId := some O
  kind := "issue.assigned"
  payload := i
  createdAt := createdAt

/-- The notifications that an assignment inserts. -/
inductive Notified (db : Db) (O i : Uuid) (actor : User) :
    Option Uuid → List (Write schema) → Prop where
  | nobody : Notified db O i actor none []
  | actor : Notified db O i actor (some actor.id) []
  | assignee (userId id : Uuid) (createdAt : Instant)
      (hother : userId ≠ actor.id)
      (hnew : (db .notifications).lookup (.id id) = none) :
      Notified db O i actor (some userId)
        [.put .notifications (assignedNotification O i id userId createdAt)]

/-- The row that `optimistic_update` writes. -/
def bump (r v : Issue) (time : Instant) : Issue :=
  { v with version := r.version + 1, updatedAt := time }

/-- The row that `optimistic_update` finds and locks. -/
structure Expected (c : Commit schema) (O i : Uuid) (version : ℕ)
    (r : Issue) : Prop where
  row : (c.before .issues).lookup (.id i) = some r
  organization : r.organizationId = O
  version : r.version = version

/-- Who may create and change projects and issues. -/
abbrev writers : List Role := [.owner, .admin, .member]

/-- What the commit of a request does. -/
inductive Transacts (past : List schema.Ref → Db → Prop) :
    Request → Commit schema → Prop where
  | projectCreated {O : Uuid} {user : User} {body : ProjectCreate}
      {c : Commit schema} (m : Membership) (id : Uuid) (createdAt : Instant)
      (event : AuditEvent) (hpermitted : Permitted past O user.id writers m)
      (hnew : (c.before .projects).lookup (.id id) = none)
      (haudit : Audited c.before user.id O "project.created" "project" id
        .empty event)
      (hwrites : c.session.writes =
        [.put .projects (newProject O body id createdAt),
          .put .auditEvents event]) :
      Transacts past (.createProject O user body) c
  | projectKept {O k : Uuid} {user : User} {body : ProjectUpdate}
      {c : Commit schema} (m : Membership) (project : Project)
      (hpermitted : Permitted past O user.id writers m)
      (hproject : GotProject past O k project)
      (hempty : (body.changes project).isEmpty = true)
      (hwrites : c.session.writes = []) :
      Transacts past (.updateProject O k user body) c
  | projectChanged {O k : Uuid} {user : User} {body : ProjectUpdate}
      {c : Commit schema} (m : Membership) (project r r' : Project)
      (hpermitted : Permitted past O user.id writers m)
      (hproject : GotProject past O k project)
      (hrow : (c.before .projects).lookup (.id k) = some r)
      (hvalues : (body.changes project).apply r = some r')
      (hwrites : c.session.writes = [.put .projects r']) :
      Transacts past (.updateProject O k user body) c
  | archivedKept {O k : Uuid} {user : User} {archived : Bool}
      {c : Commit schema} (m : Membership) (project : Project)
      (event : AuditEvent)
      (hpermitted : Permitted past O user.id [.owner, .admin] m)
      (hproject : GotProject past O k project)
      (hsame : project.archived = archived)
      (haudit : Audited c.before user.id O
        (if archived then "project.archived" else "project.unarchived")
        "project" k .empty event)
      (hwrites : c.session.writes = [.put .auditEvents event]) :
      Transacts past (.setArchived O k user archived) c
  | archivedChanged {O k : Uuid} {user : User} {archived : Bool}
      {c : Commit schema} (m : Membership) (project r : Project)
      (event : AuditEvent)
      (hpermitted : Permitted past O user.id [.owner, .admin] m)
      (hproject : GotProject past O k project)
      (hother : project.archived ≠ archived)
      (hrow : (c.before .projects).lookup (.id k) = some r)
      (haudit : Audited c.before user.id O
        (if archived then "project.archived" else "project.unarchived")
        "project" k .empty event)
      (hwrites : c.session.writes =
        [.put .projects { r with archived }, .put .auditEvents event]) :
      Transacts past (.setArchived O k user archived) c
  | issueCreated {O : Uuid} {user : User} {body : IssueCreate}
      {c : Commit schema} (m : Membership) (project r : Project) (id : Uuid)
      (createdAt updatedAt : Instant) (event : AuditEvent)
      (ws : List (Write schema))
      (hpermitted : Permitted past O user.id writers m)
      (hproject : GotProject past O body.projectId project)
      (hopen : project.archived = false)
      (hassignee : Assignable past O body.assigneeId)
      (hrow : (c.before .projects).lookup (.id body.projectId) = some r)
      (hnew : (c.before .issues).lookup (.id id) = none)
      (haudit : Audited c.before user.id O "issue.created" "issue" id .empty
        event)
      (hnotified : Notified c.before O id user body.assigneeId ws)
      (hwrites : c.session.writes =
        .put .projects { r with nextIssueNumber := r.nextIssueNumber + 1 } ::
        .put .issues (newIssue O user body r.nextIssueNumber id createdAt
          updatedAt) ::
        .put .auditEvents event :: ws) :
      Transacts past (.createIssue O user body) c
  | updated {O i : Uuid} {user : User} {body : IssueUpdate}
      {c : Commit schema} (m : Membership) (db : Db) (x r v : Issue)
      (time : Instant) (hpermitted : Permitted past O user.id writers m)
      (hgot : Got past c O i db x)
      (hexpected : Expected c O i body.expectedVersion r)
      (hvalues : body.apply r = some v)
      (hwrites : c.session.writes = [.put .issues (bump r v time)]) :
      Transacts past (.updateIssue O i user body) c
  | statusChanged {O i : Uuid} {user : User} {body : StatusChange}
      {c : Commit schema} (m : Membership) (db : Db) (x r : Issue)
      (time : Instant) (event : AuditEvent)
      (hpermitted : Permitted past O user.id writers m)
      (hread : readOn c = some db) (hgot : Got past c O i db x)
      (hallowed : canTransition x.status body.status = true)
      (hexpected : Expected c O i body.expectedVersion r)
      (haudit : Audited c.before user.id O "issue.status_changed" "issue" i
        (.statuses x.status body.status) event)
      (hwrites : c.session.writes =
        [.put .issues (bump r { r with status := body.status } time),
          .put .auditEvents event]) :
      Transacts past (.changeStatus O i user body) c
  | assigned {O i : Uuid} {user : User} {body : Assignment}
      {c : Commit schema} (m : Membership) (db : Db) (x r : Issue)
      (time : Instant) (event : AuditEvent) (ws : List (Write schema))
      (hpermitted : Permitted past O user.id writers m)
      (hassignee : Assignable past O body.assigneeId)
      (hgot : Got past c O i db x)
      (hexpected : Expected c O i body.expectedVersion r)
      (haudit : Audited c.before user.id O "issue.assigned" "issue" i
        (.assignee body.assigneeId) event)
      (hnotified : Notified c.before O i user body.assigneeId ws)
      (hwrites : c.session.writes =
        .put .issues (bump r { r with assigneeId := body.assigneeId } time) ::
          .put .auditEvents event :: ws) :
      Transacts past (.assign O i user body) c
  | archived {O i : Uuid} {user : User} {c : Commit schema} (m : Membership)
      (db : Db) (x r : Issue) (archivedAt updatedAt : Instant)
      (hpermitted : Permitted past O user.id [.owner, .admin] m)
      (hgot : Got past c O i db x) (hclock : clockOn c = some archivedAt)
      (hrow : (c.before .issues).lookup (.id i) = some r)
      (hwrites : c.session.writes = [.put .issues
        { r with archivedAt := some archivedAt, updatedAt }]) :
      Transacts past (.archive O i user) c

/-- What the commit of `update_project` does with the row that it has
loaded. -/
inductive UpdatesProject (past : List schema.Ref → Db → Prop) (O k : Uuid)
    (user : User) (body : ProjectUpdate) (c : Commit schema) : Prop where
  | kept (m : Membership) (db : Db) (project : Project)
      (hpermitted : Permitted past O user.id writers m)
      (hread : readOn c = some db)
      (hrow : (db .projects).lookup (.id k) = some project)
      (hproject : GotProject past O k project)
      (hempty : (body.changes project).isEmpty = true)
      (hwrites : c.session.writes = [])
  | changed (m : Membership) (db : Db) (project r r' : Project)
      (hpermitted : Permitted past O user.id writers m)
      (hread : readOn c = some db)
      (hrow : (db .projects).lookup (.id k) = some project)
      (hproject : GotProject past O k project)
      (hbefore : (c.before .projects).lookup (.id k) = some r)
      (hvalues : (body.changes project).apply r = some r')
      (hwrites : c.session.writes = [.put .projects r'])

theorem UpdatesProject.transacts {past : List schema.Ref → Db → Prop}
    {O k : Uuid} {user : User} {body : ProjectUpdate} {c : Commit schema}
    (h : UpdatesProject past O k user body c) :
    Transacts past (.updateProject O k user body) c := by
  cases h with
  | kept m db project hpermitted _ _ hproject hempty hwrites =>
      exact .projectKept m project hpermitted hproject hempty hwrites
  | changed m db project r r' hpermitted _ _ hproject hbefore hvalues hwrites =>
      exact .projectChanged m project r r' hpermitted hproject hbefore hvalues
        hwrites

/-! ## Rules -/

section Rules

variable {α : Type} {C : Contract schema} {p : Pid}
  {Q : α → Local schema → Shared schema → Prop}
  {E : AppError → Local schema → Shared schema → Prop}
  {l : Local schema} {s : Shared schema}

theorem wp_getProject_bind {O k : Uuid} {f : Project → Tx α}
    (hempty : l.session.writes = [])
    (h : ∀ project l' s', C.Along p l s [] l' s' → C.inv s' →
      project.id = k → l' = l.observe (.saw s'.store) →
      (s'.store .projects).lookup (.id k) = some project →
      (∀ {ws l'' s''}, C.Along p l' s' ws l'' s'' →
        GotProject (C.Past p s'') O k project) →
      C.wp p Q E (f project) none l' s')
    (hE : ∀ e l' s', Grows l l' [] → E e l' s') :
    C.wp p Q E (getProject O k >>= f) none l s := by
  simp only [getProject, bind_assoc]
  refine wp_select_bind fun s₁ h₁ hinv₁ => ?_
  rw [view_of_writes_nil hempty]
  refine wp_scalarOneOrNone_bind fun o ho => ?_
  refine wp_require_bind (fun project hproject => ?_)
    fun _ s' => hE _ _ s' (Grows.observe l _)
  have hmem : project ∈ o.toList := by simp [hproject]
  rw [← ho, List.mem_filter, decide_eq_true_eq] at hmem
  obtain ⟨hrow, hid, horganization⟩ := hmem
  have hlook : (s₁.store .projects).lookup (.id k) = some project := by
    rw [← hid]
    exact Relation.lookup_key hrow
  refine h project _ s₁ (Along.observe h₁ _) hinv₁ hid rfl hlook fun ha => ?_
  exact ⟨horganization, s₁.store, ha.past_nil hinv₁, hlook⟩

theorem wp_getIssue_bind {O i : Uuid} {f : Issue → Tx α}
    (hempty : l.session.writes = [])
    (h : ∀ x l' s', C.Along p l s [] l' s' → C.inv s' → x.id = i →
      l' = l.observe (.saw s'.store) →
      (∀ {ws l'' s'' c}, C.Along p l' s' ws l'' s'' → Makes p l'' s'' c →
        Got (C.Past p s'') c O i s'.store x) →
      C.wp p Q E (f x) none l' s')
    (hE : ∀ e l' s', Grows l l' [] → E e l' s') :
    C.wp p Q E (getIssue O i >>= f) none l s := by
  simp only [getIssue, bind_assoc]
  refine wp_select_bind fun s₁ h₁ hinv₁ => ?_
  rw [view_of_writes_nil hempty]
  refine wp_scalarOneOrNone_bind fun o ho => ?_
  refine wp_require_bind (fun x hx => ?_)
    fun _ s' => hE _ _ s' (Grows.observe l _)
  have hmem : x ∈ o.toList := by simp [hx]
  rw [← ho, List.mem_filter, decide_eq_true_eq] at hmem
  obtain ⟨hrow, hid, horganization, hunarchived⟩ := hmem
  refine h x _ s₁ (Along.observe h₁ _) hinv₁ hid rfl fun ha hc => ?_
  refine ⟨?_, ha.past_nil hinv₁, ?_, horganization, hunarchived⟩
  · rw [hc.session]
    exact ha.grows.seen.subset List.mem_cons_self
  · rw [← hid]
    exact Relation.lookup_key hrow

theorem wp_validateAssignee_bind {O : Uuid} {assigneeId : Option Uuid}
    {f : Unit → Tx α} (hempty : l.session.writes = []) (hinv : C.inv s)
    (h : ∀ l' s', C.Along p l s [] l' s' → C.inv s' →
      (∀ {ws l'' s''}, C.Along p l' s' ws l'' s'' →
        Assignable (C.Past p s'') O assigneeId) →
      C.wp p Q E (f ()) none l' s')
    (hE : ∀ e l' s', Grows l l' [] → E e l' s') :
    C.wp p Q E (validateAssignee O assigneeId >>= f) none l s := by
  cases assigneeId with
  | none => exact h l s (.refl l s) hinv fun _ => trivial
  | some userId =>
      simp only [validateAssignee, bind_assoc]
      refine wp_select_bind fun s₁ h₁ hinv₁ => ?_
      rw [view_of_writes_nil hempty]
      have ha₁ : C.Along p l s [] _ s₁ := Along.observe h₁ (.saw s₁.store)
      refine wp_ensure_bind (fun hsome => ?_) fun _ s' => hE _ _ s' ha₁.grows
      refine h _ s₁ ha₁ hinv₁ fun ha => ⟨s₁.store, ha.past_nil hinv₁, ?_⟩
      obtain ⟨v, hv⟩ : ∃ v, v ∈ activeMembers O userId s₁.store := by
        refine List.exists_mem_of_ne_nil _ fun hnil => ?_
        simp [hnil] at hsome
      have hvu : v = userId := by
        simp only [activeMembers, List.mem_flatMap, List.mem_filter,
          decide_eq_true_eq, List.mem_map] at hv
        obtain ⟨m, ⟨_, _, hm⟩, _, _, rfl⟩ := hv
        exact hm
      exact hvu ▸ hv

theorem wp_notifyAssignee_bind {O i : Uuid} {actor : User}
    {assigneeId : Option Uuid} {f : Unit → Tx α} {l₀ : Local schema}
    {ws : List (Write schema)} (hg : Grows l₀ l ws)
    (hempty : l₀.session.writes = [])
    (hws : ∀ x ∈ ws, x.ref.1 ≠ Table.notifications) (hinv : C.inv s)
    (h : ∀ l' s' vs, C.Along p l s vs l' s' → C.inv s' →
      (∀ {us l'' s'' c}, C.Along p l' s' us l'' s'' → Makes p l'' s'' c →
        Notified c.before O i actor assigneeId vs) →
      C.wp p Q E (f ()) none l' s') :
    C.wp p Q E (notifyAssignee O i actor assigneeId >>= f) none l s := by
  cases assigneeId with
  | none => exact h l s [] (.refl l s) hinv fun _ _ => .nobody
  | some userId =>
      simp only [notifyAssignee]
      by_cases hactor : userId = actor.id
      · rw [if_pos hactor]
        subst hactor
        exact h l s [] (.refl l s) hinv fun _ _ => .actor
      · rw [if_neg hactor]
        simp only [bind_assoc]
        refine wp_freshId_bind fun id s₁ h₁ _ _ => ?_
        refine wp_now_bind fun createdAt s₂ h₂ _ => ?_
        refine wp_insertOrHalt_bind fun l₃ s₃ h₃ hinv₃ hnone hg₃ hlocks => ?_
        have ha₂ : C.Along p l s [] _ s₂ := (Along.draw h₁ id).trans
          (Along.observe h₂ (.answered Call.now createdAt))
        have ha₃ : C.Along p _ s₂ _ l₃ s₃ := ⟨hg₃, h₃⟩
        refine h l₃ s₃ _ (ha₂.trans ha₃) hinv₃ fun ha hc => ?_
        refine .assignee userId id createdAt hactor ?_
        have hnew := Store.lookup_of_conflict_none hnone
        rw [(hg.trans ha₂.grows).view, view_of_writes_nil hempty,
          Store.lookup_view_of_not_mem] at hnew
        · exact (ha.committed hc (hlocks _ List.mem_cons_self)).trans hnew
        · intro w hw href
          rw [List.append_nil] at hw
          exact hws w hw (congrArg Prod.fst href)

theorem wp_takeNumber_bind {k : Uuid} {f : ℕ → Tx α}
    (hempty : l.session.writes = [])
    (h : ∀ (r : Project) l' s', C.Along p l s [.put .projects
        { r with nextIssueNumber := r.nextIssueNumber + 1 }] l' s' →
      C.inv s' → (s'.store .projects).lookup (.id k) = some r →
      l'.locks (.projects, .id k) →
      C.wp p Q E (f r.nextIssueNumber) none l' s') :
    C.wp p Q E (takeNumber k >>= f) none l s := by
  simp only [takeNumber, bind_assoc]
  refine wp_updateWhere_bind ⟨rfl, rfl⟩ (Key.id k) ?_
    (fun _ => Or.inr ⟨_, rfl⟩) (fun _ _ _ _ _ => wp_halt) ?_
  · intro r hr
    exact congrArg Key.id (by simpa using hr)
  · intro l' s₁ s₂ r _ h₁ _ h₂ hinv₂ hlook _ hwrite _ hg hlock
    cases hwrite
    rw [view_of_writes_nil hempty] at hlook
    exact h r l' s₂ ⟨hg, h₁.trans h₂⟩ hinv₂ hlook hlock

/-- An optimistic update finds the row of the expected version, whatever has
been read before, and locks it. -/
theorem wp_optimisticUpdate_bind {x : Issue} {expected : ℕ}
    {values : Issue → Option Issue} {f : Issue → Tx α}
    (hempty : l.session.writes = [])
    (h : ∀ (r v : Issue) time l' s',
      C.Along p l s [.put .issues (bump r v time)] l' s' → C.inv s' →
      values r = some v →
      (∀ {ws l'' s'' c}, C.Along p l' s' ws l'' s'' → Makes p l'' s'' c →
        Expected c x.organizationId x.id expected r) →
      C.wp p Q E (f (bump r v time)) none l' s')
    (hE : ∀ l' s', Grows l l' [] → E staleIssueVersion l' s') :
    C.wp p Q E (optimisticUpdate x expected values >>= f) none l s := by
  simp only [optimisticUpdate, bind_assoc]
  refine wp_now_bind fun time s₀ h₀ hinv₀ => ?_
  have ha₀ : C.Along p l s [] _ s₀ :=
    Along.observe h₀ (.answered Call.now time)
  refine wp_updateWhere_bind ⟨rfl, rfl⟩ (Key.id x.id) ?_ ?_ ?_ ?_
  · intro r hr
    rw [decide_eq_true_eq] at hr
    exact congrArg Key.id hr.1
  · exact fun r => writeOrReject_cases _
  · intro l' s' _ _ hg
    exact fun s'' _ _ => hE l' s'' (ha₀.grows.trans hg)
  · intro l' s₁ s₂ r r' h₁ _ h₂ hinv₂ hlook hpred hwrite _ hg hlock
    rw [decide_eq_true_eq] at hpred
    obtain ⟨v, hvalues, rfl⟩ :=
      Option.map_eq_some_iff.mp (writeOrReject_eq_write.mp hwrite)
    rw [view_of_writes_nil (ha₀.grows.writes.trans (by rw [hempty]; rfl))]
      at hlook
    refine h r v time l' s₂ (ha₀.trans ⟨hg, h₁.trans h₂⟩) hinv₂ hvalues
      fun ha hc => ?_
    exact ⟨(ha.committed hc hlock).trans hlook, hpred.2.1, hpred.2.2⟩

end Rules

/-! ## The endpoints -/

section Endpoints

variable {C : Contract schema} {p : Pid} {s : Shared schema} {O : Uuid}
  {user : User}

/-- The contract accepts what `request` commits. -/
abbrev Allows (C : Contract schema) (request : Request) (p : Pid) : Prop :=
  C.Accepts p fun past c => Transacts past request c

theorem requests_createProject {body : ProjectCreate}
    (hallows : Allows C (.createProject O user body) p) :
    Requests C p (createProject O user body) {} s := by
  simp only [createProject]
  refine wp_permitted_bind (by simp) (fun m l₁ s₁ ha₁ _ _ hpermitted => ?_)
    fun _ _ _ hg => unwritten_of_grows hg
  refine wp_freshId_bind fun id s₂ h₂ _ _ => ?_
  refine wp_now_bind fun createdAt s₃ h₃ _ => ?_
  have ha₃ : C.Along p l₁ s₁ [] _ s₃ := (Along.draw h₂ id).trans
    (Along.observe h₃ (.answered Call.now createdAt))
  refine wp_insertRow_bind (fun s₄ h₄ _ hnone => ?_) fun e s₄ _ _ _ => ?_
  · have ha₄ := Along.insert h₄ .projects (newProject O body id createdAt)
    have ha₁₄ := (ha₁.trans ha₃).trans ha₄
    refine wp_audited_bind ha₁₄.grows rfl (by simp [Write.ref])
      fun l₅ s₅ event ha₅ _ haudit => ?_
    refine requests_commit_bind hallows (ha₁₄.trans ha₅)
      (fun s' c h' _ hc hwrites => ?_) fun _ _ => requests_ret _
    have ha' := (Along.refl l₅ s₅).wait h'
    have hlast := ha₄.trans (ha₅.trans ha')
    have hnew := Store.lookup_of_conflict_none hnone
    rw [view_of_writes_nil (ha₁.trans ha₃).writes] at hnew
    refine .projectCreated m id createdAt event
      (hpermitted (ha₃.trans hlast) rfl) ?_ (haudit ha' hc) hwrites
    exact ((ha₅.trans ha').committed hc (Or.inl List.mem_cons_self)).trans hnew
  · split
    · exact wp_rollbackNow_bind fun s' _ _ =>
        wp_raise fun _ _ _ => unwritten_rolledBack (ha₁.trans ha₃).grows
    · exact wp_halt
    · next hnone => cases hnone

theorem requests_updatesProject {k : Uuid} {body : ProjectUpdate}
    (hallows : C.Accepts p fun past c =>
      UpdatesProject past O k user body c) :
    Requests C p (updateProject O k user body) {} s := by
  simp only [updateProject]
  refine wp_permitted_bind (by simp)
    (fun m l₁ s₁ ha₁ _ hl₁ hpermitted => ?_)
    fun _ _ _ hg => unwritten_of_grows hg
  refine wp_getProject_bind ha₁.writes
    (fun project l₂ s₂ ha₂ hinv₂ hid hl₂ hrow hproject => ?_)
    fun _ _ _ hg => unwritten_of_grows (ha₁.grows.trans hg)
  have ha₁₂ := ha₁.trans ha₂
  have hread : ∀ {ws l' s' c}, C.Along p l₂ s₂ ws l' s' → Makes p l' s' c →
      readOn c = some s₂.store := by
    intro ws l' s' c ha hc
    apply readOn_eq (o := .saw (Local.view {} s₁))
    rw [hc.session]
    rw [hl₂, hl₁] at ha
    exact ha.grows.seen
  by_cases hempty : (body.changes project).isEmpty = true
  · rw [if_pos hempty, pure_bind]
    refine requests_commit_bind hallows ha₁₂
      (fun s' c h' _ hc hwrites => ?_) fun _ _ => requests_ret _
    have ha' := (Along.refl l₂ s₂).wait h'
    exact .kept m s₂.store project (hpermitted (ha₂.trans ha') rfl)
      (hread ha' hc) hrow (hproject ha') hempty hwrites
  · rw [if_neg hempty]
    refine wp_alterKey_bind (fun r => writeOrReject_cases _) ?_
    intro l₃ s₃ s₄ r r' h₃ _ h₄ _ hlook hwrite _ hg₃ hlock
    have ha₃ : C.Along p l₂ s₂ _ l₃ s₄ := ⟨hg₃, h₃.trans h₄⟩
    refine requests_commit_bind hallows (ha₁₂.trans ha₃)
      (fun s' c h' _ hc hwrites => ?_) fun _ _ => requests_ret _
    have ha' := (Along.refl l₃ s₄).wait h'
    have hlast := ha₃.trans ha'
    rw [view_of_writes_nil ha₁₂.writes, hid] at hlook
    rw [hid] at hlock
    exact .changed m s₂.store project r r' (hpermitted (ha₂.trans hlast) rfl)
      (hread hlast hc) hrow (hproject hlast)
      ((ha'.committed hc hlock).trans hlook)
      (writeOrReject_eq_write.mp hwrite) hwrites

theorem requests_updateProject {k : Uuid} {body : ProjectUpdate}
    (hallows : Allows C (.updateProject O k user body) p) :
    Requests C p (updateProject O k user body) {} s :=
  requests_updatesProject fun l s c hi hc ha hfirst h =>
    hallows l s c hi hc ha hfirst h.transacts

theorem requests_setArchived {k : Uuid} {archived : Bool}
    (hallows : Allows C (.setArchived O k user archived) p) :
    Requests C p (setArchived O k user archived) {} s := by
  simp only [setArchived]
  refine wp_permitted_bind (by simp) (fun m l₁ s₁ ha₁ _ _ hpermitted => ?_)
    fun _ _ _ hg => unwritten_of_grows hg
  refine wp_getProject_bind ha₁.writes
    (fun project l₂ s₂ ha₂ hinv₂ hid _ _ hproject => ?_)
    fun _ _ _ hg => unwritten_of_grows (ha₁.grows.trans hg)
  have ha₁₂ := ha₁.trans ha₂
  rw [hid]
  by_cases hsame : project.archived = archived
  · rw [if_pos hsame, pure_bind]
    refine wp_audited_bind ha₁₂.grows rfl (by simp)
      fun l₃ s₃ event ha₃ _ haudit => ?_
    refine requests_commit hallows (ha₁₂.trans ha₃)
      fun s' c h' _ hc hwrites => ?_
    have ha' := (Along.refl l₃ s₃).wait h'
    have hlast := ha₃.trans ha'
    exact .archivedKept m project event (hpermitted (ha₂.trans hlast) rfl)
      (hproject hlast) hsame (haudit ha' hc) hwrites
  · rw [if_neg hsame]
    refine wp_updateKey_bind fun l₃ s₃ s₄ r h₃ _ h₄ _ hlook _ hg₃ hlock => ?_
    have ha₃ : C.Along p l₂ s₂ _ l₃ s₄ := ⟨hg₃, h₃.trans h₄⟩
    refine wp_audited_bind (ha₁₂.trans ha₃).grows rfl (by simp [Write.ref])
      fun l₅ s₅ event ha₅ _ haudit => ?_
    refine requests_commit hallows ((ha₁₂.trans ha₃).trans ha₅)
      fun s' c h' _ hc hwrites => ?_
    have ha' := (Along.refl l₅ s₅).wait h'
    have hlast := ha₃.trans (ha₅.trans ha')
    rw [view_of_writes_nil ha₁₂.writes] at hlook
    exact .archivedChanged m project r event
      (hpermitted (ha₂.trans hlast) rfl) (hproject hlast) hsame
      (((ha₅.trans ha').committed hc hlock).trans hlook) (haudit ha' hc)
      hwrites

theorem requests_createIssue {body : IssueCreate}
    (hallows : Allows C (.createIssue O user body) p) :
    Requests C p (createIssue O user body) {} s := by
  simp only [createIssue]
  refine wp_permitted_bind (by simp) (fun m l₁ s₁ ha₁ _ _ hpermitted => ?_)
    fun _ _ _ hg => unwritten_of_grows hg
  refine wp_getProject_bind ha₁.writes
    (fun project l₂ s₂ ha₂ hinv₂ hid _ _ hproject => ?_)
    fun _ _ _ hg => unwritten_of_grows (ha₁.grows.trans hg)
  have ha₁₂ := ha₁.trans ha₂
  refine wp_ensure_bind (fun hopen => ?_)
    fun _ _ => unwritten_of_grows ha₁₂.grows
  refine wp_validateAssignee_bind ha₁₂.writes hinv₂
    (fun l₃ s₃ ha₃ _ hassignee => ?_)
    fun _ _ _ hg => unwritten_of_grows (ha₁₂.grows.trans hg)
  have ha₁₃ := ha₁₂.trans ha₃
  rw [hid]
  refine wp_takeNumber_bind ha₁₃.writes
    fun r l₄ s₄ ha₄ _ hrow hlock => ?_
  refine wp_freshId_bind fun id s₅ h₅ _ _ => ?_
  refine wp_now_bind fun createdAt s₆ h₆ _ => ?_
  refine wp_now_bind fun updatedAt s₇ h₇ _ => ?_
  have ha₇ : C.Along p l₄ s₄ [] _ s₇ := ((Along.draw h₅ id).trans
    (Along.observe h₆ (.answered Call.now createdAt))).trans
      (Along.observe h₇ (.answered Call.now updatedAt))
  refine wp_insertOrHalt_bind fun l₈ s₈ h₈ _ hnone hg₈ hlocks => ?_
  have ha₈ : C.Along p _ s₇ _ l₈ s₈ := ⟨hg₈, h₈⟩
  have ha₁₇ := ha₁₃.trans (ha₄.trans ha₇)
  have ha₁₈ := ha₁₇.trans ha₈
  refine wp_audited_bind ha₁₈.grows rfl (by simp [Write.ref])
    fun l₉ s₉ event ha₉ hinv₉ haudit => ?_
  refine wp_notifyAssignee_bind (ha₁₈.trans ha₉).grows rfl
    (by simp [Write.ref]) hinv₉ fun l' s₁₀ ws ha₁₀ _ hnotified => ?_
  refine requests_commit_bind hallows ((ha₁₈.trans ha₉).trans ha₁₀)
    (fun s' c h' _ hc hwrites => ?_) fun _ _ => requests_ret _
  have ha' := (Along.refl l' s₁₀).wait h'
  have hend := ha₈.trans (ha₉.trans (ha₁₀.trans ha'))
  have hlast := ha₃.trans ((ha₄.trans ha₇).trans hend)
  refine .issueCreated m project r id createdAt updatedAt event ws
    (hpermitted (ha₂.trans hlast) rfl) (hproject hlast) (by simpa using hopen)
    (hassignee ((ha₄.trans ha₇).trans hend)) ?_ ?_
    (haudit (ha₁₀.trans ha') hc) (hnotified ha' hc) hwrites
  · exact ((ha₇.trans hend).committed hc hlock).trans hrow
  · have hnew := Store.lookup_of_conflict_none hnone
    rw [ha₁₇.grows.view, Store.lookup_view_of_not_mem (by simp [Write.ref])]
      at hnew
    exact ((ha₉.trans (ha₁₀.trans ha')).committed hc
      (hlocks _ List.mem_cons_self)).trans hnew

theorem requests_updateIssue {i : Uuid} {body : IssueUpdate}
    (hallows : Allows C (.updateIssue O i user body) p) :
    Requests C p (updateIssue O i user body) {} s := by
  simp only [updateIssue]
  refine wp_permitted_bind (by simp) (fun m l₁ s₁ ha₁ _ _ hpermitted => ?_)
    fun _ _ _ hg => unwritten_of_grows hg
  refine wp_getIssue_bind ha₁.writes (fun x l₂ s₂ ha₂ _ hid _ hgot => ?_)
    fun _ _ _ hg => unwritten_of_grows (ha₁.grows.trans hg)
  have ha₁₂ := ha₁.trans ha₂
  refine wp_optimisticUpdate_bind ha₁₂.writes
    (fun r v time l₃ s₃ ha₃ _ hvalues hexpected => ?_)
    fun _ _ hg => unwritten_of_grows (ha₁₂.grows.trans hg)
  refine requests_commit_bind hallows (ha₁₂.trans ha₃)
    (fun s' c h' _ hc hwrites => ?_) fun _ _ => requests_ret _
  have ha' := (Along.refl l₃ s₃).wait h'
  have hfound := hgot (ha₃.trans ha') hc
  have hrow := hexpected ha' hc
  rw [hid, hfound.organization] at hrow
  exact .updated m s₂.store x r v time
    (hpermitted (ha₂.trans (ha₃.trans ha')) rfl) hfound hrow hvalues hwrites

theorem requests_changeStatus {i : Uuid} {body : StatusChange}
    (hallows : Allows C (.changeStatus O i user body) p) :
    Requests C p (changeStatus O i user body) {} s := by
  simp only [changeStatus]
  refine wp_permitted_bind (by simp) (fun m l₁ s₁ ha₁ _ hl₁ hpermitted => ?_)
    fun _ _ _ hg => unwritten_of_grows hg
  refine wp_getIssue_bind ha₁.writes (fun x l₂ s₂ ha₂ _ hid hl₂ hgot => ?_)
    fun _ _ _ hg => unwritten_of_grows (ha₁.grows.trans hg)
  have ha₁₂ := ha₁.trans ha₂
  refine wp_ensure_bind (fun hallowed => ?_)
    fun _ _ => unwritten_of_grows ha₁₂.grows
  refine wp_optimisticUpdate_bind ha₁₂.writes
    (fun r v time l₃ s₃ ha₃ _ hvalues hexpected => ?_)
    fun _ _ hg => unwritten_of_grows (ha₁₂.grows.trans hg)
  rw [hid]
  refine wp_audited_bind (ha₁₂.trans ha₃).grows rfl (by simp [Write.ref])
    fun l₄ s₄ event ha₄ _ haudit => ?_
  refine requests_commit_bind hallows ((ha₁₂.trans ha₃).trans ha₄)
    (fun s' c h' _ hc hwrites => ?_) fun _ _ => requests_ret _
  have ha' := (Along.refl l₄ s₄).wait h'
  have hend := ha₃.trans (ha₄.trans ha')
  have hfound := hgot hend hc
  have hrow := hexpected (ha₄.trans ha') hc
  rw [hid, hfound.organization] at hrow
  obtain rfl := Option.some.inj hvalues
  refine .statusChanged m s₂.store x r time event
    (hpermitted (ha₂.trans hend) rfl) ?_ hfound hallowed hrow (haudit ha' hc)
    hwrites
  refine readOn_eq (o := .saw (Local.view {} s₁)) ?_
  rw [hc.session]
  rw [hl₂, hl₁] at hend
  exact hend.grows.seen

theorem requests_assign {i : Uuid} {body : Assignment}
    (hallows : Allows C (.assign O i user body) p) :
    Requests C p (assign O i user body) {} s := by
  simp only [assign]
  refine wp_permitted_bind (by simp) (fun m l₁ s₁ ha₁ hinv₁ _ hpermitted => ?_)
    fun _ _ _ hg => unwritten_of_grows hg
  refine wp_validateAssignee_bind ha₁.writes hinv₁
    (fun l₂ s₂ ha₂ _ hassignee => ?_)
    fun _ _ _ hg => unwritten_of_grows (ha₁.grows.trans hg)
  have ha₁₂ := ha₁.trans ha₂
  refine wp_getIssue_bind ha₁₂.writes (fun x l₃ s₃ ha₃ _ hid _ hgot => ?_)
    fun _ _ _ hg => unwritten_of_grows (ha₁₂.grows.trans hg)
  have ha₁₃ := ha₁₂.trans ha₃
  refine wp_optimisticUpdate_bind ha₁₃.writes
    (fun r v time l₄ s₄ ha₄ _ hvalues hexpected => ?_)
    fun _ _ hg => unwritten_of_grows (ha₁₃.grows.trans hg)
  rw [hid]
  refine wp_audited_bind (ha₁₃.trans ha₄).grows rfl (by simp [Write.ref])
    fun l₅ s₅ event ha₅ hinv₅ haudit => ?_
  refine wp_notifyAssignee_bind ((ha₁₃.trans ha₄).trans ha₅).grows rfl
    (by simp [Write.ref]) hinv₅ fun l₆ s₆ ws ha₆ _ hnotified => ?_
  refine requests_commit_bind hallows (((ha₁₃.trans ha₄).trans ha₅).trans ha₆)
    (fun s' c h' _ hc hwrites => ?_) fun _ _ => requests_ret _
  have ha' := (Along.refl l₆ s₆).wait h'
  have hend := ha₄.trans (ha₅.trans (ha₆.trans ha'))
  have hfound := hgot hend hc
  have hrow := hexpected (ha₅.trans (ha₆.trans ha')) hc
  rw [hid, hfound.organization] at hrow
  obtain rfl := Option.some.inj hvalues
  exact .assigned m s₃.store x r time event ws
    (hpermitted (ha₂.trans (ha₃.trans hend)) rfl)
    (hassignee (ha₃.trans hend)) hfound hrow (haudit (ha₆.trans ha') hc)
    (hnotified ha' hc) hwrites

theorem requests_archive {i : Uuid}
    (hallows : Allows C (.archive O i user) p) :
    Requests C p (archive O i user) {} s := by
  simp only [archive]
  refine wp_permitted_bind (by simp) (fun m l₁ s₁ ha₁ _ hl₁ hpermitted => ?_)
    fun _ _ _ hg => unwritten_of_grows hg
  refine wp_getIssue_bind ha₁.writes (fun x l₂ s₂ ha₂ _ hid hl₂ hgot => ?_)
    fun _ _ _ hg => unwritten_of_grows (ha₁.grows.trans hg)
  have ha₁₂ := ha₁.trans ha₂
  refine wp_now_bind fun archivedAt s₃ h₃ _ => ?_
  refine wp_now_bind fun updatedAt s₄ h₄ _ => ?_
  have ha₃ : C.Along p l₂ s₂ [] _ s₃ :=
    Along.observe h₃ (.answered Call.now archivedAt)
  have ha₄ : C.Along p _ s₃ [] _ s₄ :=
    Along.observe h₄ (.answered Call.now updatedAt)
  refine wp_updateKey_bind fun l₅ s₅ s₆ r h₅ _ h₆ _ hlook _ hg₅ hlock => ?_
  have ha₅ : C.Along p _ s₄ _ l₅ s₆ := ⟨hg₅, h₅.trans h₆⟩
  have ha₁₄ := ha₁₂.trans (ha₃.trans ha₄)
  refine requests_commit hallows (ha₁₄.trans ha₅)
    fun s' c h' _ hc hwrites => ?_
  have ha' := (Along.refl l₅ s₆).wait h'
  have hend := ha₄.trans (ha₅.trans ha')
  rw [view_of_writes_nil ha₁₄.writes, hid] at hlook
  rw [hid] at hlock
  refine .archived m s₂.store x r archivedAt updatedAt
    (hpermitted (ha₂.trans (ha₃.trans hend)) rfl) (hgot (ha₃.trans hend) hc) ?_
    ((ha'.committed hc hlock).trans hlook) hwrites
  refine clockOn_eq (o := .saw (Local.view {} s₁)) (a := .saw s₂.store) ?_
  rw [hc.session]
  rw [hl₂, hl₁] at hend
  exact hend.grows.seen

/-- All requests, under any contract that accepts their transactions. -/
theorem requests_serve {request : Request} (hallows : Allows C request p)
    (hinv : C.inv s) : Requests C p (serve request) {} s := by
  cases request with
  | createProject O user body =>
      exact requests_map (requests_createProject hallows) hinv
  | updateProject O k user body =>
      exact requests_map (requests_updateProject hallows) hinv
  | setArchived O k user archived =>
      exact requests_map (requests_setArchived hallows) hinv
  | createIssue O user body =>
      exact requests_map (requests_createIssue hallows) hinv
  | updateIssue O i user body =>
      exact requests_map (requests_updateIssue hallows) hinv
  | changeStatus O i user body =>
      exact requests_map (requests_changeStatus hallows) hinv
  | assign O i user body => exact requests_map (requests_assign hallows) hinv
  | archive O i user => exact requests_map (requests_archive hallows) hinv

end Endpoints

end Workstream.Issues
