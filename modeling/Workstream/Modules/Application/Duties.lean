import Workstream.Modules.Application
import Workstream.ReadCommitted.Discipline

/-!
# What a request may do

The tables to which each request writes, what the rows are like that it adds,
which columns of a row stay when it is altered, after which rate limit it may
go on, how often it commits and which errors it answers.  All of it is one
discipline for each request.
-/

namespace Workstream.Application

open ReadCommitted

/-! ## Tables -/

section Tables

open Tracker (Endpoint)

def accountAdds : Auth.Request → List Table
  | .register _ _ => [.users, .oneTimeTokens, .outboxEvents, .auditEvents]
  | .login _ _ => [.authSessions, .auditEvents]
  | .refresh _ => [.authSessions]
  | .resendVerification _ _ => [.oneTimeTokens, .outboxEvents]
  | .requestReset _ _ => [.oneTimeTokens, .outboxEvents]
  | _ => []

def accountAlters : Auth.Request → List Table
  | .refresh _ => [.authSessions]
  | .logout _ => [.authSessions]
  | .revokeSession _ _ => [.authSessions]
  | .revokeAll _ => [.authSessions]
  | .verifyEmail _ => [.users, .oneTimeTokens]
  | .resetPassword _ => [.users, .oneTimeTokens, .authSessions]
  | _ => []

def trackerAdds : Endpoint → List Table
  | .createOrganization _ => [.organizations, .memberships, .auditEvents]
  | .updateOrg _ _ => [.auditEvents]
  | .changeRole _ _ _ => [.auditEvents]
  | .removeMember _ _ => [.auditEvents]
  | .invite _ _ => [.invitations, .auditEvents, .outboxEvents]
  | .revokeInvitation _ _ => [.auditEvents]
  | .acceptInvitation _ => [.memberships, .auditEvents]
  | .createProject _ _ => [.projects, .auditEvents]
  | .setArchived _ _ _ => [.auditEvents]
  | .createIssue _ _ => [.issues, .auditEvents, .notifications]
  | .changeStatus _ _ _ => [.auditEvents]
  | .assign _ _ _ => [.auditEvents, .notifications]
  | .createLabel _ _ => [.labels]
  | .attach _ _ _ => [.issueLabels]
  | .createComment _ _ _ => [.comments]
  | _ => []

def trackerAlters : Endpoint → List Table
  | .updateOrg _ _ => [.organizations]
  | .changeRole _ _ _ => [.memberships]
  | .revokeInvitation _ _ => [.invitations]
  | .acceptInvitation _ => [.invitations]
  | .updateProject _ _ _ => [.projects]
  | .setArchived _ _ _ => [.projects]
  | .createIssue _ _ => [.projects]
  | .updateIssue _ _ _ => [.issues]
  | .changeStatus _ _ _ => [.issues]
  | .assign _ _ _ => [.issues]
  | .archiveIssue _ _ => [.issues]
  | .updateLabel _ _ _ => [.labels]
  | .updateComment _ _ _ => [.comments]
  | _ => []

def trackerErases : Endpoint → List Table
  | .removeMember _ _ => [.memberships]
  | .deleteLabel _ _ => [.labels, .issueLabels]
  | .detach _ _ _ => [.issueLabels]
  | .deleteComment _ _ => [.comments]
  | _ => []

/-- The tables to which a request adds rows. -/
def Request.adds : Request → List Table
  | .account request => accountAdds request
  | .tracker _ _ endpoint => trackerAdds endpoint
  | .notifications _ _ => []
  | .dispatch _ _ => []
  | .seed =>
      [.users, .organizations, .memberships, .projects, .issues, .labels,
        .comments]

/-- The tables in which it alters rows. -/
def Request.alters : Request → List Table
  | .account request => accountAlters request
  | .tracker _ _ endpoint => trackerAlters endpoint
  | .notifications _ (.read _) => [.notifications]
  | .notifications _ .readAll => [.notifications]
  | .notifications _ _ => []
  | .dispatch _ _ => [.outboxEvents]
  | .seed => [.users]

/-- The tables from which it erases rows. -/
def Request.erases : Request → List Table
  | .tracker _ _ endpoint => trackerErases endpoint
  | _ => []

/-- The tables that a request only adds rows to. -/
def Request.Fills (request : Request) (t : Table) : Prop :=
  t ∈ request.adds ∧ t ∉ request.alters ∧ t ∉ request.erases

instance (request : Request) (t : Table) : Decidable (request.Fills t) :=
  inferInstanceAs (Decidable (_ ∧ _))

end Tables

/-! ## Rows -/

section Rows

/-- The user that a bearer token names. -/
def bearer : Authorization → Option Uuid
  | .claims userId _ => some userId
  | _ => none

/-- The user on whose behalf a request writes, if its token says so. -/
def Request.actor : Request → Option Uuid
  | .account (.resendVerification authorization _) => bearer authorization
  | .tracker _ authorization _ => bearer authorization
  | .notifications authorization _ => bearer authorization
  | _ => none

/-- The request identifier that the audit events of a request have. -/
def Request.stamp : Request → Option String
  | .account (.register _ client) => some client.requestId
  | .account (.login _ client) => some client.requestId
  | .tracker client _ (.createOrganization _) => some client.requestId
  | _ => none

/-- What an audit event says, as far as the request itself says it. -/
structure Report where
  action : String
  entityType : String
  organizationId : Option Uuid := none
  entityId : Option Uuid := none

def accountReport : Auth.Request → Option Report
  | .register _ _ =>
      some { action := "account.registered", entityType := "user" }
  | .login _ _ => some { action := "session.created", entityType := "session" }
  | _ => none

def trackerReport : Tracker.Endpoint → Option Report
  | .createOrganization _ => some
      { action := "organization.created", entityType := "organization" }
  | .updateOrg O _ => some
      { action := "organization.updated", entityType := "organization"
        organizationId := some O, entityId := some O }
  | .changeRole O memberId _ => some
      { action := "membership.role_changed", entityType := "membership"
        organizationId := some O, entityId := some memberId }
  | .removeMember O memberId => some
      { action := "membership.removed", entityType := "membership"
        organizationId := some O, entityId := some memberId }
  | .invite O _ => some
      { action := "invitation.created", entityType := "invitation"
        organizationId := some O }
  | .revokeInvitation O invitationId => some
      { action := "invitation.revoked", entityType := "invitation"
        organizationId := some O, entityId := some invitationId }
  | .acceptInvitation _ => some
      { action := "invitation.accepted", entityType := "invitation" }
  | .createProject O _ => some
      { action := "project.created", entityType := "project"
        organizationId := some O }
  | .setArchived O projectId archived => some
      { action :=
          if archived then "project.archived" else "project.unarchived"
        entityType := "project", organizationId := some O
        entityId := some projectId }
  | .createIssue O _ => some
      { action := "issue.created", entityType := "issue"
        organizationId := some O }
  | .changeStatus O issueId _ => some
      { action := "issue.status_changed", entityType := "issue"
        organizationId := some O, entityId := some issueId }
  | .assign O issueId _ => some
      { action := "issue.assigned", entityType := "issue"
        organizationId := some O, entityId := some issueId }
  | _ => none

/-- The audit event of a request that has one. -/
def Request.report : Request → Option Report
  | .account request => accountReport request
  | .tracker _ _ endpoint => trackerReport endpoint
  | _ => none

/-- An audit event that says what the report says. -/
structure Report.Describes (report : Report) (r : AuditEvent) : Prop where
  action : r.action = report.action
  entityType : r.entityType = report.entityType
  organization : ∀ O ∈ report.organizationId, r.organizationId = some O
  entity : ∀ i ∈ report.entityId, r.entityId = some i

/-- The identifier of a row that a request is about, if it adds one. -/
def subject : Write schema → Option Uuid
  | .put .users (r : User) => some r.id
  | .put .organizations (r : Organization) => some r.id
  | .put .invitations (r : Invitation) => some r.id
  | .put .projects (r : Project) => some r.id
  | .put .issues (r : Issue) => some r.id
  | .put .authSessions (r : AuthSession) => some r.id
  | _ => none

/-- An audit event and a notification name the row that is added with them. -/
def Names : Write schema → Write schema → Prop
  | .put .auditEvents (e : AuditEvent), x =>
      ∀ i ∈ subject x, e.entityId = some i
  | .put .notifications (n : Notification), x =>
      ∀ i ∈ subject x, n.payload = i
  | _, _ => True

/-- What is written together belongs together. -/
def Consistent (ws : List (Write schema)) : Prop :=
  ws.Forall fun x => ws.Forall (Names x)

/-- The user to whom a request assigns an issue. -/
def Request.assignee : Request → Option Uuid
  | .tracker _ _ (.createIssue _ body) => body.assigneeId
  | .tracker _ _ (.assign _ _ body) => body.assigneeId
  | _ => none

/-- The notification of an assignee who is not the actor. -/
def Request.notified (request : Request) : List Table :=
  if request.assignee.isSome ∧ request.assignee ≠ request.actor then
    [.notifications]
  else []

/-- The tables of the rows that a commit adds, in the order in which they are
added; only those that the request does not alter as well. -/
def Request.inserts (request : Request) : List (List Table) :=
  match request with
  | .account (.register _ _) =>
      [[.users, .oneTimeTokens, .outboxEvents, .auditEvents]]
  | .account (.login _ _) => [[.authSessions, .auditEvents]]
  | .account (.resendVerification _ _) => [[.oneTimeTokens, .outboxEvents]]
  | .account (.requestReset _ _) => [[.oneTimeTokens, .outboxEvents]]
  | .tracker _ _ (.createOrganization _) =>
      [[.organizations, .memberships, .auditEvents]]
  | .tracker _ _ (.invite _ _) =>
      [[.invitations, .auditEvents, .outboxEvents]]
  | .tracker _ _ (.acceptInvitation _) =>
      [[.auditEvents], [.memberships, .auditEvents]]
  | .tracker _ _ (.createProject _ _) => [[.projects, .auditEvents]]
  | .tracker _ _ (.createIssue _ _) =>
      [.issues :: .auditEvents :: request.notified]
  | .tracker _ _ (.assign _ _ _) => [.auditEvents :: request.notified]
  | .tracker _ _ (.createLabel _ _) => [[.labels]]
  | .tracker _ _ (.attach _ _ _) => [[], [.issueLabels]]
  | .tracker _ _ (.createComment _ _ _) => [[.comments]]
  | .tracker _ _ endpoint =>
      [if (trackerReport endpoint).isSome then [.auditEvents] else []]
  | .seed =>
      [[], [.organizations, .organizations, .memberships, .memberships,
        .memberships, .memberships, .memberships, .projects, .issues, .issues,
        .issues, .labels, .comments]]
  | _ => [[]]

/-- What a row is like when it is added. -/
@[simp] def Born (E : Environment) (request : Request) :
    (t : Table) → Row t → Prop
  | .users, r => r.emailVerifiedAt = none ∧ r.isActive = true
  | .memberships, r => ∀ u ∈ request.actor, r.userId = u
  | .invitations, r => r.acceptedAt = none ∧ r.revokedAt = none ∧
      ∀ u ∈ request.actor, r.inviterId = u
  | .projects, r => r.archived = false ∧
      (request = .seed → r.id = Seed.uid E.uuid5 "project-eng")
  | .issues, r => r.version = 1 ∧ r.archivedAt = none ∧
      ∀ u ∈ request.actor, r.reporterId = u ∧ r.status = .backlog
  | .comments, r => r.editedAt = none ∧ ∀ u ∈ request.actor, r.authorId = u
  | .notifications, r => r.readAt = none ∧ r.kind = "issue.assigned" ∧
      (request.assignee = some r.userId ∧ request.assignee ≠ request.actor) ∧
      ∀ report ∈ request.report, report.organizationId = r.organizationId ∧
        ∀ i ∈ report.entityId, r.payload = i
  | .auditEvents, r => (∃ report ∈ request.report, report.Describes r) ∧
      r.actorId.isSome = true ∧ r.requestId = request.stamp ∧
      ∀ u ∈ request.actor, r.actorId = some u
  | .authSessions, r => r.rotatedAt = none ∧ r.revokedAt = none
  | .oneTimeTokens, r => r.usedAt = none ∧ ∀ u ∈ request.actor, r.userId = u
  | .outboxEvents, r => r.attempts = 0 ∧ r.lockedAt = none ∧
      r.processedAt = none ∧ r.failedAt = none
  | _, _ => True

/-- A row without the columns that are ever altered. -/
@[simp] def fixed : (t : Table) → Row t → Row t
  | .users, r =>
      { r with email := "", passwordHash := 0, emailVerifiedAt := none }
  | .organizations, r => { r with name := "", updatedAt := 0 }
  | .memberships, r => { r with role := .owner }
  | .invitations, r => { r with acceptedAt := none, revokedAt := none }
  | .projects, r =>
      { r with
        name := "", description := "", archived := false, nextIssueNumber := 0 }
  | .issues, r =>
      { r with
        title := "", description := "", status := .backlog
        priority := .noPriority, assigneeId := none, dueDate := none
        version := 0, archivedAt := none, updatedAt := 0 }
  | .labels, r => { r with name := "", color := "" }
  | .issueLabels, r => r
  | .comments, r => { r with body := "", editedAt := none }
  | .notifications, r => { r with readAt := none }
  | .auditEvents, r => r
  | .authSessions, r => { r with rotatedAt := none, revokedAt := none }
  | .oneTimeTokens, r => { r with usedAt := none }
  | .outboxEvents, r =>
      { r with
        payload := [], availableAt := 0, attempts := 0, lockedAt := none
        lockedBy := none, processedAt := none, failedAt := none
        lastError := none }

/-- The marks of a row that are set, and its counter. -/
@[simp] def progress : (t : Table) → Row t → Bool × Bool × ℕ
  | .users, r => (r.emailVerifiedAt.isSome, false, 0)
  | .invitations, r => (r.acceptedAt.isSome, r.revokedAt.isSome, 0)
  | .projects, r => (false, false, r.nextIssueNumber)
  | .issues, r => (r.archivedAt.isSome, false, r.version)
  | .comments, r => (r.editedAt.isSome, false, 0)
  | .notifications, r => (r.readAt.isSome, false, 0)
  | .authSessions, r => (r.rotatedAt.isSome, r.revokedAt.isSome, 0)
  | .oneTimeTokens, r => (r.usedAt.isSome, false, 0)
  | .outboxEvents, r => (r.processedAt.isSome, r.failedAt.isSome, r.attempts)
  | _, _ => (false, false, 0)

/-- A row stays the same but for the columns that may be altered; marks are
not taken away, and counters do not go back. -/
structure Persists (t : Table) (r r' : Row t) : Prop where
  fixed : fixed t r' = fixed t r
  progress : progress t r ≤ progress t r'

theorem Persists.refl (t : Table) (r : Row t) : Persists t r r :=
  ⟨rfl, le_rfl⟩

theorem Persists.trans {t : Table} {a b c : Row t} (h : Persists t a b)
    (h' : Persists t b c) : Persists t a c :=
  ⟨h'.fixed.trans h.fixed, h.progress.trans h'.progress⟩

/-- The notifications that a request marks. -/
def Request.Marks : Request → Notification → Prop
  | .notifications authorization (.read notificationId), x =>
      x.id = notificationId ∧ some x.userId = bearer authorization
  | .notifications authorization .readAll, x =>
      x.readAt = none ∧ some x.userId = bearer authorization
  | _, _ => False

/-- The assignee that a request gives to an issue. -/
def Request.Assigns : Request → Option Uuid → Prop
  | .tracker _ _ (.assign _ _ body), assigneeId =>
      assigneeId = body.assigneeId
  | _, _ => False

/-- What a request may make of a row, besides what holds for all. -/
@[simp] def Altered (E : Environment) (request : Request) :
    (t : Table) → Row t → Row t → Prop
  | .users, r, r' => r'.email = r.email ∨
      request = .seed ∧ r.id ∈ Seed.seedUserIds E.uuid5 ∧
        r' = { r with email := r'.email }
  | .issues, r, r' =>
      r'.assigneeId = r.assigneeId ∨ request.Assigns r'.assigneeId
  | .notifications, r, _ => request.Marks r
  | _, _, _ => True

end Rows

/-! ## Answers -/

section Answers

/-- How often a request commits before it answers. -/
inductive Commits where
  | never
  | once
  | atMostOnce
  | often

def accountCommits : Auth.Request → Commits
  | .sessions _ => .never
  | .resendVerification _ _ => .atMostOnce
  | .requestReset _ _ => .atMostOnce
  | _ => .once

open Tracker (Endpoint) in
def trackerCommits : Endpoint → Commits
  | .listOrgs => .never
  | .getOrg _ => .never
  | .members _ => .never
  | .invitations _ => .never
  | .listProjects _ _ => .never
  | .getProject _ _ => .never
  | .listIssues _ _ _ _ _ => .never
  | .getIssue _ _ => .never
  | .listLabels _ => .never
  | .listComments _ _ _ _ => .never
  | .listAudit _ _ _ => .never
  | .acceptInvitation _ => .atMostOnce
  | _ => .once

def Request.commits : Request → Commits
  | .account request => accountCommits request
  | .tracker _ _ endpoint => trackerCommits endpoint
  | .notifications _ (.read _) => .once
  | .notifications _ .readAll => .once
  | .notifications _ _ => .never
  | .dispatch _ _ => .often
  | .seed => .once

@[simp] def Commits.Reached (commits : Commits) (n : ℕ) : Prop :=
  match commits with
  | .never => n = 0
  | .once => n = 1
  | .atMostOnce => n ≤ 1
  | .often => True

/-- The status that goes with a code. -/
@[simp] def statusOf : String → Option ℕ
  | "invalid_cursor" => some 400
  | "invalid_token" => some 400
  | "invalid_invitation" => some 400
  | "authentication_required" => some 401
  | "invalid_access_token" => some 401
  | "session_revoked" => some 401
  | "invalid_credentials" => some 401
  | "invalid_refresh_token" => some 401
  | "refresh_token_reuse" => some 401
  | "insufficient_permission" => some 403
  | "invitation_email_mismatch" => some 403
  | "resource_not_found" => some 404
  | "email_already_registered" => some 409
  | "organization_slug_conflict" => some 409
  | "project_key_conflict" => some 409
  | "label_name_conflict" => some 409
  | "final_owner" => some 409
  | "project_archived" => some 409
  | "stale_issue_version" => some 409
  | "invalid_status_transition" => some 409
  | "invalid_assignee" => some 422
  | "rate_limit_exceeded" => some 429
  | "security_service_unavailable" => some 503
  | _ => none

/-- An error has the status of its code, and says when to come back exactly if
it comes from a rate limit. -/
structure Catalogued (e : AppError) : Prop where
  status : statusOf e.code = some e.status
  retry : e.retryAfter.isSome = true ↔ e.status = 429
  later : ∀ n ∈ e.retryAfter, 1 ≤ n

@[simp] def tokenErrors : List String :=
  ["authentication_required", "invalid_access_token", "session_revoked"]

@[simp] def limitErrors : List String :=
  ["rate_limit_exceeded", "security_service_unavailable"]

def accountErrors : Auth.Request → List String
  | .register _ _ => ["email_already_registered"]
  | .login _ _ => limitErrors ++ ["invalid_credentials"]
  | .refresh _ => ["invalid_refresh_token", "refresh_token_reuse"]
  | .verifyEmail _ => ["invalid_token"]
  | .resendVerification _ _ => tokenErrors ++ limitErrors
  | .requestReset _ _ => limitErrors
  | .resetPassword _ => ["invalid_token"]
  | _ => tokenErrors

/-- The errors of an endpoint for somebody whose token is good. -/
def trackerErrors : Tracker.Endpoint → List String
  | .createOrganization _ => ["organization_slug_conflict"]
  | .listOrgs => []
  | .getOrg _ => ["resource_not_found"]
  | .members _ => ["resource_not_found"]
  | .changeRole _ _ _ =>
      ["resource_not_found", "insufficient_permission", "final_owner"]
  | .removeMember _ _ =>
      ["resource_not_found", "insufficient_permission", "final_owner"]
  | .invite _ _ =>
      limitErrors ++ ["resource_not_found", "insufficient_permission"]
  | .acceptInvitation _ => ["invalid_invitation", "invitation_email_mismatch"]
  | .createProject _ _ =>
      ["resource_not_found", "insufficient_permission", "project_key_conflict"]
  | .listProjects _ _ => ["resource_not_found"]
  | .getProject _ _ => ["resource_not_found"]
  | .createIssue _ _ =>
      ["resource_not_found", "insufficient_permission", "project_archived",
        "invalid_assignee"]
  | .listIssues _ _ _ _ _ => ["resource_not_found", "invalid_cursor"]
  | .getIssue _ _ => ["resource_not_found"]
  | .updateIssue _ _ _ =>
      ["resource_not_found", "insufficient_permission", "stale_issue_version"]
  | .changeStatus _ _ _ =>
      ["resource_not_found", "insufficient_permission",
        "invalid_status_transition", "stale_issue_version"]
  | .assign _ _ _ =>
      ["resource_not_found", "insufficient_permission", "invalid_assignee",
        "stale_issue_version"]
  | .createLabel _ _ =>
      ["resource_not_found", "insufficient_permission", "label_name_conflict"]
  | .listLabels _ => ["resource_not_found"]
  | .listComments _ _ _ _ => ["resource_not_found", "invalid_cursor"]
  | .listAudit _ _ _ =>
      ["resource_not_found", "insufficient_permission", "invalid_cursor"]
  | _ => ["resource_not_found", "insufficient_permission"]

def Request.errors : Request → List String
  | .account request => accountErrors request
  | .tracker _ _ endpoint => tokenErrors ++ trackerErrors endpoint
  | .notifications _ (.list _ _) => tokenErrors ++ ["invalid_cursor"]
  | .notifications _ _ => tokenErrors
  | .dispatch _ _ => []
  | .seed => []

/-- The errors that a request may answer after it has committed. -/
def Request.late : Request → List String
  | .account (.refresh _) => ["invalid_refresh_token", "refresh_token_reuse"]
  | _ => []

end Answers

/-! ## Phases -/

/-- What a request remembers: the counter of the rate limit that it has asked
last, and how often it has committed. -/
structure Phase where
  hit : Option (String × String × String × ℕ) := none
  commits : ℕ := 0

@[simp] def Phase.answered (f : Phase) (c : Call) (n : ℕ) : Phase :=
  match c with
  | .rateLimitHit scope client account =>
      { f with hit := some (scope, client, account, n) }
  | _ => f

@[simp] def Phase.committed (f : Phase) : Phase :=
  { f with commits := f.commits + 1 }

/-- The counter of a rate limit has not gone over its limit. -/
def Phase.Within (f : Phase) (scope client account : String) (limit : ℕ) :
    Prop :=
  ∃ n, f.hit = some (scope, client, account, n) ∧ 1 ≤ n ∧ n ≤ limit

/-- What `passed` says of the counter of a request and its limit.  The account
in `resend_verification` is that of an email that `mailed` says its token has. -/
def Request.Behind (E : Environment) (mailed : Authorization → String → Prop)
    (passed : String → String → String → ℕ → Prop) : Request → Prop
  | .account (.login body client) =>
      passed "login" client.address (accountKey body.email)
        E.settings.loginRateLimit
  | .account (.requestReset body client) =>
      passed "password-reset" client.address (accountKey body.email)
        E.settings.passwordResetRateLimit
  | .account (.resendVerification authorization client) =>
      ∃ email, mailed authorization email ∧
        passed "verify-resend" client.address (accountKey email)
          E.settings.verificationRateLimit
  | .tracker client _ (.invite _ body) =>
      passed "invitation" client.address (accountKey body.email)
        E.settings.invitationRateLimit
  | _ => True

/-- The request has passed its rate limit, if it has one. -/
def Request.Admitted (E : Environment) (f : Phase) (request : Request) : Prop :=
  request.Behind E (fun authorization _ => (bearer authorization).isSome = true)
    f.Within

/-- What a request may call: it tries the password that it was given, after
its rate limit. -/
def Request.Asks (E : Environment) (request : Request) (f : Phase) :
    Call → Prop
  | .verifyPassword password _ => request.Admitted E f ∧
      ∃ body client, request = .account (.login body client) ∧
        body.password = password
  | .sendEmail _ _ _ _ => ∃ worker batchSize,
      request = .dispatch worker batchSize
  | _ => True

/-! ## The discipline -/

/-- All that a request may do. -/
def duty (E : Environment) (request : Request) :
    Discipline schema AppError Phase where
  adds := fun {t} r => t ∈ request.adds ∧ Born E request t r
  alters := fun {t} r r' => t ∈ request.alters ∧ Persists t r r' ∧
    Altered E request t r r'
  erases := fun {t} _ => t ∈ request.erases
  notes := fun x => request.Fills x.ref.1
  asks := fun f c => request.Asks E f c
  answered := Phase.answered
  commits := fun f ws => request.Admitted E f ∧
    (request.commits = .often ∨ f.commits = 0) ∧
    ws.map (fun x => x.ref.1) ∈ request.inserts ∧
    Consistent ws
  committed := Phase.committed
  raises := fun f e => Catalogued e ∧ e.code ∈ request.errors ∧
    (f.commits = 0 ∨ e.code ∈ request.late)
  tries := ∃ worker batchSize, request = .dispatch worker batchSize
  alters_unnoted := fun h =>
    decide_eq_false fun hfills => hfills.2.1 h.1
  erases_unnoted := fun h => decide_eq_false fun hfills => hfills.2.2 h
  noted_kept := fun hnotes _ herases => (of_decide_eq_true hnotes).2.2 herases

/-- A request that answers has committed as often as it should. -/
def Answers {α : Type} (request : Request) (f : Standing schema Phase) (_ : α) :
    Prop :=
  request.commits.Reached f.phase.commits

end Workstream.Application
