import Workstream.Modules.Projects.Service

/-!
# The issue service

`optimistic_update` writes an issue only if its version is the one that the
client expects; the other checks are made before, on rows that are read
without a lock.
-/

namespace Workstream.Issues

open ReadCommitted Projects

/-! ## The workflow -/

/-- `TRANSITIONS`. -/
def transitions : IssueStatus → List IssueStatus
  | .backlog => [.todo, .canceled]
  | .todo => [.backlog, .inProgress, .canceled]
  | .inProgress => [.todo, .done, .canceled]
  | .done => [.inProgress]
  | .canceled => [.backlog]

def canTransition (current target : IssueStatus) : Bool :=
  (transitions current).contains target

def statusText : IssueStatus → String
  | .backlog => "backlog"
  | .todo => "todo"
  | .inProgress => "in_progress"
  | .done => "done"
  | .canceled => "canceled"

/-! ## Request bodies -/

structure IssueCreate where
  projectId : Uuid
  title : String
  description : String := ""
  priority : Priority := .noPriority
  assigneeId : Option Uuid := none
  dueDate : Option Date := none

structure IssueUpdate where
  expectedVersion : ℕ
  expected_pos : 1 ≤ expectedVersion
  title : Option (Option String) := none
  description : Option (Option String) := none
  priority : Option (Option Priority) := none
  dueDate : Option (Option Date) := none

structure StatusChange where
  expectedVersion : ℕ
  expected_pos : 1 ≤ expectedVersion
  status : IssueStatus

structure Assignment where
  expectedVersion : ℕ
  expected_pos : 1 ≤ expectedVersion
  assigneeId : Option Uuid

/-- The row with the columns that `body` sets. -/
def IssueUpdate.apply (body : IssueUpdate) (i : Issue) : Option Issue := do
  let title ← setColumn i.title body.title
  let description ← setColumn i.description body.description
  let priority ← setColumn i.priority body.priority
  return { i with
    title, description, priority, dueDate := body.dueDate.getD i.dueDate }

/-! ## Reads -/

def getIssue (organizationId issueId : Uuid) : Tx Issue := do
  let rows ← Prog.select fun db : Db =>
    (db .issues).rows.filter fun i : Issue =>
      i.id = issueId ∧ i.organizationId = organizationId ∧
        i.archivedAt = none
  let issue ← scalarOneOrNone rows
  Prog.require issue (notFound "Issue not found")

def invalidAssignee : AppError where
  status := 422
  code := "invalid_assignee"
  detail := "Assignee must be an organization member"

/-- The join of memberships and active users in `validate_assignee`. -/
def activeMembers (organizationId assigneeId : Uuid) (db : Db) : List Uuid :=
  ((db .memberships).rows.filter fun m : Membership =>
    m.organizationId = organizationId ∧ m.userId = assigneeId).flatMap
      fun m => ((db .users).rows.filter fun u : User =>
        u.id = m.userId ∧ u.isActive).map fun _ => m.userId

def validateAssignee (organizationId : Uuid) (assigneeId : Option Uuid) :
    Tx Unit :=
  match assigneeId with
  | none => pure ()
  | some assigneeId => do
      let members ← Prog.select (activeMembers organizationId assigneeId)
      Prog.ensure (!members.isEmpty) invalidAssignee

/-! ## Creation -/

def projectArchived : AppError where
  status := 409
  code := "project_archived"
  detail := "Issues cannot be created in an archived project"

/-- `UPDATE ... RETURNING` on the counter of a project. -/
def takeNumber (projectId : Uuid) : Tx ℕ := do
  let rows ← Prog.locking (σ := schema) (t := .projects)
    { pred := fun p => p.id = projectId
      effect := fun p =>
        .write { p with nextIssueNumber := p.nextIssueNumber + 1 } }
  match rows with
  | [p] => return p.nextIssueNumber - 1
  | _ => .halt

/-- The notification of a new assignee, unless it is the actor. -/
def notifyAssignee (organizationId issueId : Uuid) (actor : User)
    (assigneeId : Option Uuid) : Tx Unit :=
  match assigneeId with
  | none => pure ()
  | some userId =>
      if userId = actor.id then pure ()
      else do
        let id ← Prog.freshId
        let createdAt ← now
        Prog.insertOrHalt (σ := schema) .notifications
          { id, userId, organizationId := some organizationId
            kind := "issue.assigned", payload := issueId, createdAt }

def createIssue (organizationId : Uuid) (user : User) (body : IssueCreate) :
    Tx Issue := do
  let _ ← requireMembership organizationId user.id [.owner, .admin, .member]
  let project ← getProject organizationId body.projectId
  Prog.ensure (!project.archived) projectArchived
  validateAssignee organizationId body.assigneeId
  let number ← takeNumber project.id
  let id ← Prog.freshId
  let createdAt ← now
  let updatedAt ← now
  let issue : Issue :=
    { id, organizationId, projectId := body.projectId, number
      title := body.title, description := body.description
      priority := body.priority, reporterId := user.id
      assigneeId := body.assigneeId, dueDate := body.dueDate
      createdAt, updatedAt }
  Prog.insertOrHalt (σ := schema) .issues issue
  audit user.id (some organizationId) "issue.created" "issue" issue.id .empty
    none
  notifyAssignee organizationId issue.id user issue.assigneeId
  Prog.commitNow
  return issue

/-! ## Changes -/

def staleIssueVersion : AppError where
  status := 409
  code := "stale_issue_version"
  detail := "Issue was modified by another client"

/-- `optimistic_update`; `values` gives none for a row that a constraint
rejects.  The answer is the row that the statement returns. -/
def optimisticUpdate (issue : Issue) (expected : ℕ)
    (values : Issue → Option Issue) : Tx Issue := do
  let updatedAt ← now
  let rows ← Prog.locking (σ := schema) (t := .issues)
    { pred := fun i => i.id = issue.id ∧
        i.organizationId = issue.organizationId ∧ i.version = expected
      effect := fun i => writeOrReject <| (values i).map fun i' =>
        { i' with version := i.version + 1, updatedAt } }
  let updated ← scalarOneOrNone rows
  Prog.require updated staleIssueVersion

def updateIssue (organizationId issueId : Uuid) (user : User)
    (body : IssueUpdate) : Tx Issue := do
  let _ ← requireMembership organizationId user.id [.owner, .admin, .member]
  let issue ← getIssue organizationId issueId
  let result ← optimisticUpdate issue body.expectedVersion body.apply
  Prog.commitNow
  return result

def invalidStatusTransition (current target : IssueStatus) : AppError where
  status := 409
  code := "invalid_status_transition"
  detail := "Cannot transition from " ++ statusText current ++ " to " ++
    statusText target

def changeStatus (organizationId issueId : Uuid) (user : User)
    (body : StatusChange) : Tx Issue := do
  let _ ← requireMembership organizationId user.id [.owner, .admin, .member]
  let issue ← getIssue organizationId issueId
  Prog.ensure (canTransition issue.status body.status)
    (invalidStatusTransition issue.status body.status)
  let previousStatus := issue.status
  let result ← optimisticUpdate issue body.expectedVersion
    fun i => some { i with status := body.status }
  audit user.id (some organizationId) "issue.status_changed" "issue" issue.id
    (.statuses previousStatus body.status) none
  Prog.commitNow
  return result

def assign (organizationId issueId : Uuid) (user : User) (body : Assignment) :
    Tx Issue := do
  let _ ← requireMembership organizationId user.id [.owner, .admin, .member]
  validateAssignee organizationId body.assigneeId
  let issue ← getIssue organizationId issueId
  let result ← optimisticUpdate issue body.expectedVersion
    fun i => some { i with assigneeId := body.assigneeId }
  audit user.id (some organizationId) "issue.assigned" "issue" issue.id
    (.assignee body.assigneeId) none
  notifyAssignee organizationId issue.id user body.assigneeId
  Prog.commitNow
  return result

def archive (organizationId issueId : Uuid) (user : User) : Tx Unit := do
  let _ ← requireMembership organizationId user.id [.owner, .admin]
  let issue ← getIssue organizationId issueId
  let archivedAt ← now
  let updatedAt ← now
  Prog.updateKey (σ := schema) .issues (.id issue.id)
    fun i => { i with archivedAt := some archivedAt, updatedAt }
  Prog.commitNow

/-! ## Requests -/

/-- The requests that change projects and issues. -/
inductive Request where
  | createProject (organizationId : Uuid) (user : User) (body : ProjectCreate)
  | updateProject (organizationId projectId : Uuid) (user : User)
      (body : ProjectUpdate)
  | setArchived (organizationId projectId : Uuid) (user : User)
      (archived : Bool)
  | createIssue (organizationId : Uuid) (user : User) (body : IssueCreate)
  | updateIssue (organizationId issueId : Uuid) (user : User)
      (body : IssueUpdate)
  | changeStatus (organizationId issueId : Uuid) (user : User)
      (body : StatusChange)
  | assign (organizationId issueId : Uuid) (user : User) (body : Assignment)
  | archive (organizationId issueId : Uuid) (user : User)

inductive Response where
  | project (project : Project)
  | issue (issue : Issue)
  | noContent

def serve : Request → Tx Response
  | .createProject organizationId user body =>
      .project <$> createProject organizationId user body
  | .updateProject organizationId projectId user body =>
      .project <$> updateProject organizationId projectId user body
  | .setArchived organizationId projectId user archived =>
      (fun _ => .noContent) <$>
        Projects.setArchived organizationId projectId user archived
  | .createIssue organizationId user body =>
      .issue <$> createIssue organizationId user body
  | .updateIssue organizationId issueId user body =>
      .issue <$> updateIssue organizationId issueId user body
  | .changeStatus organizationId issueId user body =>
      .issue <$> changeStatus organizationId issueId user body
  | .assign organizationId issueId user body =>
      .issue <$> assign organizationId issueId user body
  | .archive organizationId issueId user =>
      (fun _ => .noContent) <$> archive organizationId issueId user

end Workstream.Issues
