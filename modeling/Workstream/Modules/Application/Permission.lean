import Workstream.Modules.Application.References
import Workstream.ReadCommitted.Permission

/-!
# Permission

What the endpoints read before they go on: the session of the token, the role
of its user in the organization of the path, and the rows that the path names.
A request touches nothing and answers nothing before it has read them, whatever
runs beside it.
-/

namespace Workstream.Application

open ReadCommitted Prog Organizations
open Issues (writers)

/-! ## What has to be read -/

section Demands

/-- The token is good: its user is active, and its session is live. -/
def Authenticated : Authorization → Db → Prop
  | .claims userId sessionId, db => ∃ user session,
      (db .users).lookup (.id userId) = some user ∧ user.isActive = true ∧
        session ∈ (db .authSessions).rows ∧
          AuthSession.userId session = userId ∧
          AuthSession.familyId session = sessionId ∧
          AuthSession.revokedAt session = none ∧
          AuthSession.rotatedAt session = none
  | _, _ => False

/-- The user of the token is a member of the organization and has one of the
roles; no roles means that every role will do. -/
def Member (authorization : Authorization) (O : Uuid) (roles : List Role)
    (db : Db) : Prop :=
  ∃ userId role, bearer authorization = some userId ∧
    roleOf db O userId = some role ∧ (roles = [] ∨ role ∈ roles)

def HasProject (O projectId : Uuid) (db : Db) : Prop :=
  ∃ project, (db .projects).lookup (.id projectId) = some project ∧
    Project.organizationId project = O

def HasOpenProject (O projectId : Uuid) (db : Db) : Prop :=
  ∃ project, (db .projects).lookup (.id projectId) = some project ∧
    Project.organizationId project = O ∧ Project.archived project = false

def HasIssue (O issueId : Uuid) (db : Db) : Prop :=
  ∃ issue, (db .issues).lookup (.id issueId) = some issue ∧
    Issue.organizationId issue = O ∧ Issue.archivedAt issue = none

def HasLabel (O labelId : Uuid) (db : Db) : Prop :=
  ∃ label, (db .labels).lookup (.id labelId) = some label ∧
    Label.organizationId label = O

def HasComment (O commentId : Uuid) (db : Db) : Prop :=
  ∃ comment, (db .comments).lookup (.id commentId) = some comment ∧
    Comment.organizationId comment = O

def Wrote (authorization : Authorization) (commentId : Uuid) (db : Db) :
    Prop :=
  ∃ comment, (db .comments).lookup (.id commentId) = some comment ∧
    bearer authorization = some (Comment.authorId comment)

/-- An assignee is a member, and active. -/
def Assignable (O userId : Uuid) (db : Db) : Prop :=
  (∃ role, roleOf db O userId = some role) ∧
    ∃ user, (db .users).lookup (.id userId) = some user ∧
      user.isActive = true

/-- The stores that have been read meet one demand each. -/
def Meets : List (Db → Prop) → List Db → Prop
  | [], _ => True
  | _ :: _, [] => False
  | P :: demands, s :: ss => P s ∧ Meets demands ss

theorem Meets.append {demands : List (Db → Prop)} {ss : List Db}
    (h : Meets demands ss) (rest : List Db) : Meets demands (ss ++ rest) := by
  induction demands generalizing ss with
  | nil => trivial
  | cons P demands ih =>
      cases ss with
      | nil => exact h.elim
      | cons s ss => exact ⟨h.1, ih h.2⟩

abbrev managers : List Role := [.owner, .admin]

/-- The demands of an endpoint on what is read after the session: the role in
the organization, and the rows that it names. -/
def demands (authorization : Authorization) :
    Tracker.Endpoint → List (Db → Prop)
  | .createOrganization _ => []
  | .listOrgs => []
  | .getOrg O => [Member authorization O []]
  | .updateOrg O _ => [Member authorization O managers]
  | .members O => [Member authorization O []]
  | .changeRole O _ _ => [Member authorization O [.owner]]
  | .removeMember O _ => [Member authorization O managers]
  | .invite O _ => [Member authorization O managers]
  | .invitations O => [Member authorization O managers]
  | .revokeInvitation O _ => [Member authorization O managers]
  | .acceptInvitation _ => []
  | .createProject O _ => [Member authorization O writers]
  | .listProjects O _ => [Member authorization O []]
  | .getProject O projectId =>
      [Member authorization O [], HasProject O projectId]
  | .updateProject O projectId _ =>
      [Member authorization O writers, HasProject O projectId]
  | .setArchived O projectId _ =>
      [Member authorization O managers, HasProject O projectId]
  | .createIssue O body =>
      [Member authorization O writers, HasOpenProject O body.projectId] ++
        body.assigneeId.toList.map (Assignable O)
  | .listIssues O _ _ _ _ => [Member authorization O []]
  | .getIssue O issueId => [Member authorization O [], HasIssue O issueId]
  | .updateIssue O issueId _ =>
      [Member authorization O writers, HasIssue O issueId]
  | .changeStatus O issueId _ =>
      [Member authorization O writers, HasIssue O issueId]
  | .assign O issueId body =>
      [Member authorization O writers] ++
        body.assigneeId.toList.map (Assignable O) ++ [HasIssue O issueId]
  | .archiveIssue O issueId =>
      [Member authorization O managers, HasIssue O issueId]
  | .createLabel O _ => [Member authorization O writers]
  | .listLabels O => [Member authorization O []]
  | .updateLabel O labelId _ =>
      [Member authorization O writers, HasLabel O labelId]
  | .deleteLabel O labelId =>
      [Member authorization O managers, HasLabel O labelId]
  | .attach O issueId labelId =>
      [Member authorization O writers, HasIssue O issueId, HasLabel O labelId]
  | .detach O issueId labelId =>
      [Member authorization O writers, HasIssue O issueId, HasLabel O labelId]
  | .createComment O issueId _ =>
      [Member authorization O writers, HasIssue O issueId]
  | .listComments O issueId _ _ =>
      [Member authorization O [], HasIssue O issueId]
  | .updateComment O commentId _ =>
      [Member authorization O [],
        fun db => HasComment O commentId db ∧ Wrote authorization commentId db]
  | .deleteComment O commentId =>
      [Member authorization O [], HasComment O commentId]
  | .listAudit O _ _ => [Member authorization O managers]

/-- A comment is deleted by its author or by a manager. -/
def MayDelete (authorization : Authorization) (O commentId : Uuid)
    (ss : List Db) : Prop :=
  Meets [fun _ => True, Member authorization O managers] ss ∨
    Meets [fun _ => True, fun _ => True, Wrote authorization commentId] ss

def accountToken : Auth.Request → Option Authorization
  | .logout authorization => some authorization
  | .sessions authorization => some authorization
  | .revokeSession _ authorization => some authorization
  | .revokeAll authorization => some authorization
  | .resendVerification authorization _ => some authorization
  | _ => none

/-- What a request with a bearer token has to read before it goes on. -/
def Request.Permits : Request → List Db → Prop
  | .account request, ss =>
      Meets ((accountToken request).toList.map Authenticated) ss
  | .tracker _ authorization (.deleteComment O commentId), ss =>
      Meets (Authenticated authorization ::
        demands authorization (.deleteComment O commentId)) ss ∧
      MayDelete authorization O commentId ss
  | .tracker _ authorization endpoint, ss =>
      Meets (Authenticated authorization :: demands authorization endpoint) ss
  | .notifications authorization _, ss =>
      Meets [Authenticated authorization] ss
  | _, _ => True

/-- What permits once, permits for good. -/
theorem Request.Permits.append {request : Request} {ss : List Db}
    (h : request.Permits ss) (rest : List Db) :
    request.Permits (ss ++ rest) := by
  cases request with
  | account request => exact Meets.append h rest
  | notifications authorization endpoint => exact Meets.append h rest
  | tracker client authorization endpoint =>
      cases endpoint with
      | deleteComment O commentId =>
          exact ⟨h.1.append rest,
            h.2.imp (fun h => h.append rest) (fun h => h.append rest)⟩
      | _ => exact Meets.append h rest
  | _ => trivial

end Demands

/-! ## Rules -/

section Rules

variable {α : Type} {request : Request} {authorization : Authorization}
  {user : User} {O : Uuid} {ss : List Db}

/-- The program goes on only with what the request is permitted. -/
abbrev Waits (request : Request) (prog : Tx α) (ss : List Db) : Prop :=
  prog.Heeds request.Permits (fun ss _ => request.Permits ss) ss

theorem waits_of_permits {prog : Tx α} (h : request.Permits ss) :
    Waits request prog ss :=
  heeds_of_permitted h.append fun rest _ => h.append rest

variable {Φ : List Db → Prop}

@[simp] theorem heeds_now {P : List Db → Instant → Prop} :
    now.Heeds Φ P ss ↔ ∀ n, P ss n := Iff.rfl

@[simp] theorem heeds_get {t : Table} {k : Key}
    {P : List Db → Option (Row t) → Prop} :
    (get t k).Heeds Φ P ss ↔ ∀ s, P (ss ++ [s]) ((s t).lookup k) := Iff.rfl

@[simp] theorem heeds_scalarOneOrNone {rows : List α}
    {P : List Db → Option α → Prop} :
    (scalarOneOrNone rows).Heeds Φ P ss ↔
      (rows = [] → P ss none) ∧ ∀ r, rows = [r] → P ss (some r) := by
  match rows with
  | [] => simp [scalarOneOrNone]
  | [r] => simp [scalarOneOrNone]
  | _ :: _ :: _ => simp [scalarOneOrNone]

theorem heeds_find {t : Table} {pred : Row t → Bool} {e : AppError}
    {P : List Db → Row t → Prop}
    (h : ∀ s r, (s t).lookup (schema.key r) = some r → pred r = true →
      P (ss ++ [s]) r) :
    Heeds Φ P (do
      let rows ← Prog.select fun db => (db t).rows.filter pred
      let r ← scalarOneOrNone rows
      Prog.require r e) ss := by
  simp only [heeds_bind, heeds_select, heeds_scalarOneOrNone, heeds_require]
  refine fun s => ⟨by simp, ?_⟩
  rintro r hrows _ ⟨⟩
  have hr : r ∈ (s t).rows.filter pred := hrows ▸ List.mem_cons_self
  obtain ⟨hmem, hpred⟩ := List.mem_filter.mp hr
  exact h s r (Relation.lookup_key hmem) hpred

theorem heeds_currentPrincipal {P : List Db → Principal → Prop}
    (h : ∀ s principal, Authenticated authorization s →
      bearer authorization = some principal.user.id → P (ss ++ [s]) principal) :
    (currentPrincipal authorization).Heeds Φ P ss := by
  cases authorization with
  | missing | invalid => trivial
  | claims userId sessionId =>
      simp only [currentPrincipal, heeds_bind, heeds_select,
        heeds_scalarOneOrNone, heeds_require, heeds_pure]
      refine fun s => ⟨by simp, ?_⟩
      rintro user hrows _ ⟨⟩
      have huser : user ∈ principalRows userId sessionId s :=
        hrows ▸ List.mem_cons_self
      obtain ⟨hmem, hid⟩ := of_mem_principalRows huser
      refine h s _ ?_ (congrArg some hid.symm)
      simp only [principalRows, List.mem_flatMap, List.mem_filter,
        decide_eq_true_eq, List.mem_map] at huser
      obtain ⟨u, ⟨_, _, hactive⟩, session, ⟨hsession, hlive⟩, rfl⟩ := huser
      rw [hid] at hlive
      exact ⟨u, session, hid ▸ Relation.lookup_key hmem, hactive, hsession,
        hlive⟩

theorem heeds_currentUser {P : List Db → User → Prop}
    (h : ∀ s user, Authenticated authorization s →
      bearer authorization = some user.id → P (ss ++ [s]) user) :
    (currentUser authorization).Heeds Φ P ss := by
  rw [currentUser, heeds_bind]
  apply heeds_currentPrincipal
  exact fun s principal => h s principal.user

theorem heeds_requireMembership {roles : List Role}
    {P : List Db → Membership → Prop}
    (hactor : bearer authorization = some user.id)
    (h : ∀ s m, Member authorization O roles s → P (ss ++ [s]) m) :
    (requireMembership O user.id roles).Heeds Φ P ss := by
  simp only [requireMembership, heeds_bind, heeds_require, heeds_ensure,
    heeds_pure]
  intro s m hm hrole
  refine h s m ⟨user.id, m.role, hactor, roleOf_eq hm, ?_⟩
  simpa using hrole

theorem heeds_getProject {projectId : Uuid} {P : List Db → Project → Prop}
    (h : ∀ s x, (s .projects).lookup (.id projectId) = some x →
      Project.organizationId x = O → P (ss ++ [s]) x) :
    (Projects.getProject O projectId).Heeds Φ P ss := by
  apply heeds_find (t := .projects)
  intro s x hx hpred
  have hid : Project.id x = projectId ∧ Project.organizationId x = O :=
    of_decide_eq_true hpred
  exact h s x (hid.1 ▸ hx) hid.2

theorem heeds_getIssue {issueId : Uuid} {P : List Db → Issue → Prop}
    (h : ∀ s x, HasIssue O issueId s → P (ss ++ [s]) x) :
    (Issues.getIssue O issueId).Heeds Φ P ss := by
  apply heeds_find (t := .issues)
  intro s x hx hpred
  have hid : Issue.id x = issueId ∧ Issue.organizationId x = O ∧
      Issue.archivedAt x = none := of_decide_eq_true hpred
  exact h s x ⟨x, hid.1 ▸ hx, hid.2⟩

theorem heeds_getLabel {labelId : Uuid} {P : List Db → Label → Prop}
    (h : ∀ s x, HasLabel O labelId s → P (ss ++ [s]) x) :
    (Labels.get O labelId).Heeds Φ P ss := by
  apply heeds_find (t := .labels)
  intro s x hx hpred
  have hid : Label.id x = labelId ∧ Label.organizationId x = O :=
    of_decide_eq_true hpred
  exact h s x ⟨x, hid.1 ▸ hx, hid.2⟩

theorem heeds_getComment {commentId : Uuid} {P : List Db → Comment → Prop}
    (h : ∀ s x, (s .comments).lookup (.id commentId) = some x →
      Comment.organizationId x = O → P (ss ++ [s]) x) :
    (Comments.get O commentId).Heeds Φ P ss := by
  apply heeds_find (t := .comments)
  intro s x hx hpred
  have hid : Comment.id x = commentId ∧ Comment.organizationId x = O :=
    of_decide_eq_true hpred
  exact h s x (hid.1 ▸ hx) hid.2

/-- The join in `validate_assignee` has a row. -/
theorem heeds_validateAssignee {assigneeId : Option Uuid}
    {P : List Db → Unit → Prop} (hnone : assigneeId = none → P ss ())
    (hsome : ∀ s u, assigneeId = some u → Assignable O u s →
      P (ss ++ [s]) ()) :
    (Issues.validateAssignee O assigneeId).Heeds Φ P ss := by
  cases assigneeId with
  | none => exact hnone rfl
  | some u =>
      simp only [Issues.validateAssignee, heeds_bind, heeds_select,
        heeds_ensure]
      intro s hmembers
      obtain ⟨x, hx⟩ := List.exists_mem_of_ne_nil
        (Issues.activeMembers O u s) (by simpa using hmembers)
      simp only [Issues.activeMembers, List.mem_flatMap, List.mem_filter,
        decide_eq_true_eq, List.mem_map] at hx
      obtain ⟨m, ⟨hm, hO, hu⟩, x, ⟨hx, hid, hactive⟩, _⟩ := hx
      apply hsome s u rfl
      refine ⟨⟨m.role, roleOf_eq ?_⟩, x, ?_, hactive⟩
      · rw [← hO, ← hu]
        exact Relation.lookup_key hm
      · rw [← hu, ← hid]
        exact Relation.lookup_key hx

end Rules

/-! ## Every endpoint -/

section Endpoints

variable {E : Environment} {client : Auth.Client}
  {authorization : Authorization} {user : User} {O : Uuid} {s : Db}

/-- An endpoint of an organization that asks for a role only. -/
theorem waits_member {α : Type} {endpoint : Tracker.Endpoint}
    {roles : List Role} {f : Membership → Tx α}
    (hactor : bearer authorization = some user.id)
    (hpermits : ∀ s', Member authorization O roles s' →
      (Request.tracker client authorization endpoint).Permits [s, s']) :
    Waits (.tracker client authorization endpoint)
      (requireMembership O user.id roles >>= f) [s] := by
  rw [Waits, heeds_bind]
  apply heeds_requireMembership hactor
  exact fun s' _ hmember => waits_of_permits (hpermits s' hmember)

/-- An endpoint that looks for a row next. -/
theorem waits_issue {α : Type} {endpoint : Tracker.Endpoint} {issueId : Uuid}
    {roles : List Role} {f : Membership → Issue → Tx α}
    (hactor : bearer authorization = some user.id)
    (h : ∀ s' s'' m x, Member authorization O roles s' →
      HasIssue O issueId s'' →
      Waits (.tracker client authorization endpoint) (f m x) [s, s', s'']) :
    Waits (.tracker client authorization endpoint)
      (do
        let m ← requireMembership O user.id roles
        let x ← Issues.getIssue O issueId
        f m x) [s] := by
  rw [Waits, heeds_bind]
  apply heeds_requireMembership hactor
  intro s' m hmember
  rw [heeds_bind]
  apply heeds_getIssue
  exact fun s'' x hx => h s' s'' m x hmember hx

theorem waits_project {α : Type} {endpoint : Tracker.Endpoint}
    {projectId : Uuid} {roles : List Role} {f : Membership → Project → Tx α}
    (hactor : bearer authorization = some user.id)
    (h : ∀ s' s'' m x, Member authorization O roles s' →
      (s'' .projects).lookup (.id projectId) = some x →
      Project.organizationId x = O →
      Waits (.tracker client authorization endpoint) (f m x) [s, s', s'']) :
    Waits (.tracker client authorization endpoint)
      (do
        let m ← requireMembership O user.id roles
        let x ← Projects.getProject O projectId
        f m x) [s] := by
  rw [Waits, heeds_bind]
  apply heeds_requireMembership hactor
  intro s' m hmember
  rw [heeds_bind]
  apply heeds_getProject
  exact fun s'' x hx hO => h s' s'' m x hmember hx hO

theorem waits_label {α : Type} {endpoint : Tracker.Endpoint} {labelId : Uuid}
    {roles : List Role} {f : Membership → Label → Tx α}
    (hactor : bearer authorization = some user.id)
    (h : ∀ s' s'' m x, Member authorization O roles s' →
      HasLabel O labelId s'' →
      Waits (.tracker client authorization endpoint) (f m x) [s, s', s'']) :
    Waits (.tracker client authorization endpoint)
      (do
        let m ← requireMembership O user.id roles
        let x ← Labels.get O labelId
        f m x) [s] := by
  rw [Waits, heeds_bind]
  apply heeds_requireMembership hactor
  intro s' m hmember
  rw [heeds_bind]
  apply heeds_getLabel
  exact fun s'' x hx => h s' s'' m x hmember hx

theorem waits_comment {α : Type} {endpoint : Tracker.Endpoint}
    {commentId : Uuid} {roles : List Role} {f : Membership → Comment → Tx α}
    (h : ∀ s' s'' m x, roleOf s' O user.id = some (Membership.role m) →
      (s'' .comments).lookup (.id commentId) = some x →
      Comment.organizationId x = O →
      Waits (.tracker client authorization endpoint) (f m x) [s, s', s'']) :
    Waits (.tracker client authorization endpoint)
      (do
        let m ← requireMembership O user.id roles
        let x ← Comments.get O commentId
        f m x) [s] := by
  simp only [Waits, requireMembership, heeds_bind, heeds_require, heeds_ensure,
    heeds_pure]
  intro s' m hm _
  apply heeds_getComment
  exact fun s'' x hx hO => h s' s'' m x (roleOf_eq hm) hx hO

theorem waits_handle (hactor : bearer authorization = some user.id)
    (hauth : Authenticated authorization s) (endpoint : Tracker.Endpoint) :
    Waits (.tracker client authorization endpoint)
      (endpoint.handle E.toDeployment client user) [s] := by
  have hmap : ∀ {α β : Type} {g : α → β} {x : Tx α},
      Waits (.tracker client authorization endpoint) x [s] →
      Waits (.tracker client authorization endpoint) (g <$> x) [s] :=
    fun h => (heeds_map _ _).mpr h
  cases endpoint with
  | createOrganization body => exact waits_of_permits ⟨hauth, trivial⟩
  | listOrgs => exact waits_of_permits ⟨hauth, trivial⟩
  | acceptInvitation body => exact waits_of_permits ⟨hauth, trivial⟩
  | invite O body =>
      apply hmap
      rw [inviteLimited, enforceRateLimit, Waits]
      simp only [heeds_bind, heeds_callOut, heeds_ensure]
      intro n _ ttl _
      exact waits_member hactor fun s' hs' => ⟨hauth, hs', trivial⟩
  | getProject O projectId =>
      apply hmap
      rw [Projects.read, Waits, heeds_bind]
      apply heeds_requireMembership hactor
      intro s' _ hs'
      apply heeds_getProject
      exact fun s'' x hx hO => ⟨hauth, hs', ⟨x, hx, hO⟩, trivial⟩
  | updateProject O projectId _ | setArchived O projectId _ =>
      apply hmap
      apply waits_project hactor
      intro s' s'' _ x hs' hx hO
      exact waits_of_permits ⟨hauth, hs', ⟨x, hx, hO⟩, trivial⟩
  | createIssue O body =>
      apply hmap
      apply waits_project hactor
      intro s' s'' _ x hs' hx hO
      rw [Waits, heeds_bind, heeds_ensure]
      intro hopen
      have hproject : HasOpenProject O body.projectId s'' :=
        ⟨x, hx, hO, by simpa using hopen⟩
      rw [heeds_bind]
      apply heeds_validateAssignee
      · intro hnone
        exact waits_of_permits
          ⟨hauth, hs', hproject, by simp [hnone, Meets]⟩
      · intro s₃ u hu hassignable
        exact waits_of_permits
          ⟨hauth, hs', hproject, by simp [hu, Meets, hassignable]⟩
  | getIssue O issueId =>
      apply hmap
      rw [Issues.read, Waits, heeds_bind]
      apply heeds_requireMembership hactor
      intro s' _ hs'
      apply heeds_getIssue
      exact fun s'' _ hx => ⟨hauth, hs', hx, trivial⟩
  | updateIssue O issueId _ | changeStatus O issueId _
  | archiveIssue O issueId | createComment O issueId _
  | listComments O issueId _ _ =>
      apply hmap
      apply waits_issue hactor
      intro s' s'' _ _ hs' hx
      exact waits_of_permits ⟨hauth, hs', hx, trivial⟩
  | assign O issueId body =>
      apply hmap
      rw [Issues.assign, Waits, heeds_bind]
      apply heeds_requireMembership hactor
      intro s' _ hs'
      rw [heeds_bind]
      apply heeds_validateAssignee
      · intro hnone
        rw [heeds_bind]
        apply heeds_getIssue
        intro s'' _ hx
        exact waits_of_permits
          ⟨hauth, hs', by simp [hnone, Meets, hx]⟩
      · intro s₃ u hu hassignable
        rw [heeds_bind]
        apply heeds_getIssue
        intro s'' _ hx
        exact waits_of_permits
          ⟨hauth, hs', by simp [hu, Meets, hassignable, hx]⟩
  | updateLabel O labelId _ | deleteLabel O labelId =>
      apply hmap
      apply waits_label hactor
      intro s' s'' _ _ hs' hx
      exact waits_of_permits ⟨hauth, hs', hx, trivial⟩
  | attach O issueId labelId | detach O issueId labelId =>
      apply hmap
      apply waits_issue hactor
      intro s' s'' _ _ hs' hx
      rw [Waits, heeds_bind]
      apply heeds_getLabel
      intro s₃ _ hlabel
      exact waits_of_permits ⟨hauth, hs', hx, hlabel, trivial⟩
  | updateComment O commentId body =>
      apply hmap
      apply waits_comment
      intro s' s'' m x hrole hx hO
      rw [Waits, heeds_bind, heeds_ensure]
      intro hauthor
      have hmember : Member authorization O [] s' :=
        ⟨user.id, m.role, hactor, hrole, .inl rfl⟩
      refine waits_of_permits
        ⟨hauth, hmember, ⟨⟨x, hx, hO⟩, x, hx, ?_⟩, trivial⟩
      rw [hactor, of_decide_eq_true hauthor]
  | deleteComment O commentId =>
      apply hmap
      apply waits_comment
      intro s' s'' m x hrole hx hO
      rw [Waits, heeds_bind, heeds_ensure]
      intro hmay
      have hmember : Member authorization O [] s' :=
        ⟨user.id, m.role, hactor, hrole, .inl rfl⟩
      refine waits_of_permits
        ⟨⟨hauth, hmember, ⟨x, hx, hO⟩, trivial⟩, ?_⟩
      rcases of_decide_eq_true hmay with hauthor | hmanager
      · refine .inr ⟨trivial, trivial, ⟨x, hx, ?_⟩, trivial⟩
        rw [hactor, hauthor]
      · refine .inl ⟨trivial, ⟨user.id, m.role, hactor, hrole, .inr ?_⟩,
          trivial⟩
        simpa using hmanager
  | _ =>
      exact hmap (waits_member hactor fun s' hs' => ⟨hauth, hs', trivial⟩)

/-- An account request with a token reads its session first. -/
theorem waits_account (request : Auth.Request) :
    Waits (.account request) (Auth.serve E.tokens E.settings request) [] := by
  have hmap : ∀ {α β : Type} {g : α → β} {x : Tx α},
      Waits (.account request) x [] → Waits (.account request) (g <$> x) [] :=
    fun h => (heeds_map _ _).mpr h
  cases request with
  | logout authorization =>
      apply hmap
      rw [Auth.logout, Waits, heeds_bind]
      apply heeds_currentPrincipal
      exact fun s _ hauth _ => waits_of_permits ⟨hauth, trivial⟩
  | sessions authorization | revokeSession _ authorization
  | revokeAll authorization | resendVerification authorization _ =>
      apply hmap
      apply (heeds_bind _ _).mpr
      apply heeds_currentUser
      exact fun s _ hauth _ => waits_of_permits ⟨hauth, trivial⟩
  | _ => exact waits_of_permits trivial

/-- Every request waits for its permission. -/
theorem waits_serve (E : Environment) (request : Request) :
    Waits request (serve E request) [] := by
  have hmap : ∀ {α β : Type} {g : α → β} {x : Tx α},
      Waits request x [] → Waits request (g <$> x) [] :=
    fun h => (heeds_map _ _).mpr h
  cases request with
  | account request => exact hmap (waits_account request)
  | tracker client authorization endpoint =>
      apply hmap
      rw [Tracker.Endpoint.serve, Waits, heeds_bind]
      apply heeds_currentUser
      exact fun s user hauth hactor => waits_handle hactor hauth endpoint
  | notifications authorization endpoint =>
      apply hmap
      rw [Notifications.Endpoint.serve, Waits, heeds_bind]
      apply heeds_currentUser
      exact fun s _ hauth _ => waits_of_permits ⟨hauth, trivial⟩
  | dispatch worker batchSize => exact waits_of_permits trivial
  | seed => exact waits_of_permits trivial

end Endpoints

/-! ## Every run -/

/-- From any moment at which a request has not begun: whoever has locked,
written or committed anything, or has been answered, was permitted to by what
his own queries have found since then. -/
theorem permission_first {E : Environment} {request : Request}
    {w₀ w : World schema AppError Response} {p : Pid} (hidle : Idle w₀ p)
    (hprog : (w₀.procs p).prog = serve E request) (hreach : Reachable w₀ w)
    (hacts : w.Acts p) : ∃ ss, request.Permits ss ∧ Saw w₀ p ss w := by
  apply permitted_of_acts hidle ?_ hreach hacts
  rw [hprog]
  exact waits_serve E request

/-- A project that Mallory asks for has not been found; then she assigns an
issue of her organization to Bob. -/
theorem permission_first_office :
    ∃ w₀ w, Reachable officeClients w₀ ∧ (w₀.procs 3).error.isSome = true ∧
      Reachable w₀ w ∧ w.Acts 0 ∧
      ∃ ss, (officeRequests 0).Permits ss ∧ Saw w₀ 0 ss w := by
  have hrun : (officeClients.run (steps 3 [.go, .go])).any (fun w₀ =>
      (w₀.procs 3).error.isSome = true ∧
        (w₀.run assigningSteps).any (fun w => w.commits 0 ≠ 0) = true) =
      true := by
    decide +kernel
  obtain ⟨w₀, hrun₀, hpassed⟩ := (Option.any_eq_true _ _).mp hrun
  obtain ⟨hrefused, hacting⟩ := of_decide_eq_true hpassed
  obtain ⟨w, hreach, hcommits⟩ := exists_reachable hacting
  have hothers : ∀ x ∈ steps 3 [.go, .go], x.1 ≠ 0 := by decide
  obtain ⟨hidle, hproc⟩ := (idle_start _ _ 0).run hothers hrun₀
  have hprog : (w₀.procs 0).prog = serve testing (officeRequests 0) := by
    rw [hproc]
    rfl
  have hacts : w.Acts 0 := .inr (.inr (.inl hcommits))
  exact ⟨w₀, w, Reachable.start.run hrun₀, hrefused, hreach, hacts,
    permission_first hidle hprog hreach hacts⟩

end Workstream.Application
