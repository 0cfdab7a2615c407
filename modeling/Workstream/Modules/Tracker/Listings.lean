import Workstream.Api.Listing
import Workstream.Modules.Issues.Service
import Workstream.Text.Like

/-!
# The listings

The four `list_` endpoints with a cursor: issues, comments, notifications and
the audit log.
-/

namespace Workstream

open ReadCommitted

/-! ## Issues -/

namespace Issues

/-- `title || ' ' || description`. -/
def searchText (i : Issue) : List Char :=
  i.title.toList ++ [' '] ++ i.description.toList

/-- `ILIKE`, which compares in lower case. -/
def ilike (P : Platform) (text pattern : List Char) : Bool :=
  Text.like (pattern.map P.lowerCase) (text.map P.lowerCase)

structure Filters where
  projectId : Option Uuid := none
  status : Option IssueStatus := none
  priority : Option Priority := none
  assigneeId : Option Uuid := none
  reporterId : Option Uuid := none
  labelId : Option Uuid := none
  createdFrom : Option Instant := none
  createdTo : Option Instant := none
  dueFrom : Option Date := none
  dueTo : Option Date := none
  search : Option String := none

/-- The `WHERE` clause; a column that is null satisfies no comparison. -/
def Filters.matches (P : Platform) (f : Filters) (i : Issue) : Bool :=
  f.projectId.all (i.projectId = ·) ∧ f.status.all (i.status = ·) ∧
    f.priority.all (i.priority = ·) ∧
    f.assigneeId.all (i.assigneeId = some ·) ∧
    f.reporterId.all (i.reporterId = ·) ∧
    f.createdFrom.all (· ≤ i.createdAt) ∧ f.createdTo.all (i.createdAt ≤ ·) ∧
    f.dueFrom.all (fun d => i.dueDate.any (d ≤ ·)) ∧
    f.dueTo.all (fun d => i.dueDate.any (· ≤ d)) ∧
    f.search.all fun search => search = "" ∨
      ilike P (searchText i) (['%'] ++ search.toList ++ ['%'])

/-- The join with the links of a label. -/
def joinLabel (db : Db) (labelId : Option Uuid) (rows : List Issue) :
    List Issue :=
  match labelId with
  | none => rows
  | some labelId => rows.flatMap fun i =>
      ((db .issueLabels).rows.filter fun x : IssueLabel =>
        x.issueId = i.id ∧ x.labelId = labelId).map fun _ => i

def listed (P : Platform) (organizationId : Uuid) (f : Filters) (db : Db) :
    List Issue :=
  joinLabel db f.labelId ((db .issues).rows.filter fun i : Issue =>
    i.organizationId = organizationId ∧ i.archivedAt = none ∧ f.matches P i)

inductive SortOrder where
  | createdDesc
  | createdAsc
  deriving DecidableEq

def sorting (sort : SortOrder) : Sorting Issue where
  createdAt := Issue.createdAt
  id := Issue.id
  descending := sort = .createdDesc

def list (P : Platform) (organizationId : Uuid) (user : User) (f : Filters)
    (sort : SortOrder) (cursor : Option String) (limit : Limit) :
    Tx (CursorPage Issue) := do
  let _ ← requireMembership organizationId user.id []
  listPage P (sorting sort) (listed P organizationId f) cursor limit

end Issues

/-! ## Comments -/

namespace Comments

def sorting : Sorting Comment where
  createdAt := Comment.createdAt
  id := Comment.id

def listed (organizationId issueId : Uuid) (db : Db) : List Comment :=
  (db .comments).rows.filter fun x : Comment =>
    x.issueId = issueId ∧ x.organizationId = organizationId

def list (P : Platform) (organizationId issueId : Uuid) (user : User)
    (cursor : Option String) (limit : Limit) : Tx (CursorPage Comment) := do
  let _ ← requireMembership organizationId user.id []
  let _ ← Issues.getIssue organizationId issueId
  listPage P sorting (listed organizationId issueId) cursor limit

end Comments

/-! ## Notifications -/

namespace Notifications

def sorting : Sorting Notification where
  createdAt := Notification.createdAt
  id := Notification.id

def listed (user : User) (db : Db) : List Notification :=
  (db .notifications).rows.filter fun x : Notification => x.userId = user.id

def list (P : Platform) (user : User) (cursor : Option String)
    (limit : Limit) : Tx (CursorPage Notification) :=
  listPage P sorting (listed user) cursor limit

end Notifications

/-! ## The audit log -/

namespace Audit

structure AuditEventResponse where
  id : Uuid
  actorId : Option Uuid
  action : String
  entityType : String
  entityId : Option Uuid
  metadata : Metadata
  requestId : Option String
  createdAt : Instant
  deriving DecidableEq

def payload (e : AuditEvent) : AuditEventResponse where
  id := e.id
  actorId := e.actorId
  action := e.action
  entityType := e.entityType
  entityId := e.entityId
  metadata := e.metadata
  requestId := e.requestId
  createdAt := e.createdAt

def sorting : Sorting AuditEvent where
  createdAt := AuditEvent.createdAt
  id := AuditEvent.id

def listed (organizationId : Uuid) (db : Db) : List AuditEvent :=
  (db .auditEvents).rows.filter fun e : AuditEvent =>
    e.organizationId = some organizationId

def list (P : Platform) (organizationId : Uuid) (user : User)
    (cursor : Option String) (limit : Limit) :
    Tx (CursorPage AuditEventResponse) := do
  let _ ← requireMembership organizationId user.id [.owner, .admin]
  let page ← listPage P sorting (listed organizationId) cursor limit
  return { items := page.items.map payload, nextCursor := page.nextCursor }

end Audit

end Workstream
