import Workstream.Modules.Auth.Router
import Workstream.Modules.Tracker.Listings
import Workstream.Modules.Tracker.Requests

/-!
# The endpoints

The routers for organizations, projects, issues, labels, comments and the
audit log, from the bearer token to the response.
-/

namespace Workstream

open ReadCommitted

/-- How the database compares texts in `ORDER BY`. -/
structure Collation where
  le : String → String → Bool
  trans : ∀ a b c, le a b = true → le b c = true → le a c = true
  total : ∀ a b, (le a b || le b a) = true

/-- `ORDER BY` of a text column; rows with equal texts stay in the order of
the table. -/
def Collation.orderBy {ρ : Type} (C : Collation) (column : ρ → String)
    (rows : List ρ) : List ρ :=
  rows.mergeSort fun a b => C.le (column a) (column b)

/-! ## Organizations -/

namespace Organizations

/-- `select(Organization).join(Membership)`. -/
def joined (userId : Uuid) (db : Db) : List Organization :=
  (db .organizations).rows.flatMap fun o : Organization =>
    ((db .memberships).rows.filter fun m : Membership =>
      m.organizationId = o.id ∧ m.userId = userId).map fun _ => o

def listOrgs (C : Collation) (user : User) : Tx (List Organization) :=
  Prog.select fun db =>
    (C.orderBy Organization.name (joined user.id db)).take 100

def getOrg (organizationId : Uuid) (user : User) : Tx Organization := do
  let _ ← requireMembership organizationId user.id []
  let org ← get .organizations (.id organizationId)
  Prog.require org (notFound "Organization not found")

structure MemberOut where
  userId : Uuid
  role : Role
  email : String
  displayName : String
  deriving DecidableEq

/-- `select(Membership, User).join(User, User.id == Membership.user_id)`. -/
def memberRows (organizationId : Uuid) (db : Db) : List (Membership × User) :=
  ((db .memberships).rows.filter fun m : Membership =>
    m.organizationId = organizationId).flatMap fun m =>
      ((db .users).rows.filter fun u : User => u.id = m.userId).map
        fun u => (m, u)

def members (C : Collation) (organizationId : Uuid) (user : User) :
    Tx (List MemberOut) := do
  let _ ← requireMembership organizationId user.id []
  let rows ← Prog.select fun db =>
    C.orderBy (fun x => x.2.displayName) (memberRows organizationId db)
  return rows.map fun (m, u) =>
    { userId := m.userId, role := m.role, email := u.email
      displayName := u.displayName }

structure InvitationOut where
  id : Uuid
  email : String
  role : Role
  expiresAt : Instant
  deriving DecidableEq

/-- The open invitations; the statement has no `ORDER BY`. -/
def openInvitations (organizationId : Uuid) (time : Instant) (db : Db) :
    List Invitation :=
  (db .invitations).rows.filter fun x : Invitation =>
    x.organizationId = organizationId ∧ x.acceptedAt = none ∧
      x.revokedAt = none ∧ time < x.expiresAt

def invitations (organizationId : Uuid) (user : User) :
    Tx (List InvitationOut) := do
  let _ ← requireMembership organizationId user.id [.owner, .admin]
  let time ← now
  let rows ← Prog.select fun db =>
    (openInvitations organizationId time db).take 100
  return rows.map fun x =>
    { id := x.id, email := x.invitedEmail, role := x.role
      expiresAt := x.expiresAt }

/-- The endpoint counts invitations by their address. -/
def inviteLimited (H : TokenHash) (settings : Settings)
    (client : Auth.Client) (organizationId : Uuid) (user : User)
    (body : InvitationCreate) : Tx Invitation := do
  enforceRateLimit "invitation" client.address body.email
    settings.invitationRateLimit
  invite H organizationId user body

end Organizations

/-! ## Projects, issues and labels -/

namespace Projects

def listed (organizationId : Uuid) (includeArchived : Bool) (db : Db) :
    List Project :=
  (db .projects).rows.filter fun p : Project =>
    p.organizationId = organizationId ∧
      (includeArchived ∨ p.archived = false)

def list (C : Collation) (organizationId : Uuid) (user : User)
    (includeArchived : Bool) : Tx (List Project) := do
  let _ ← requireMembership organizationId user.id []
  Prog.select fun db =>
    (C.orderBy Project.name (listed organizationId includeArchived db)).take
      100

def read (organizationId projectId : Uuid) (user : User) : Tx Project := do
  let _ ← requireMembership organizationId user.id []
  getProject organizationId projectId

end Projects

namespace Issues

def read (organizationId issueId : Uuid) (user : User) : Tx Issue := do
  let _ ← requireMembership organizationId user.id []
  getIssue organizationId issueId

end Issues

namespace Labels

def listed (organizationId : Uuid) (db : Db) : List Label :=
  (db .labels).rows.filter fun l : Label => l.organizationId = organizationId

def list (C : Collation) (organizationId : Uuid) (user : User) :
    Tx (List Label) := do
  let _ ← requireMembership organizationId user.id []
  Prog.select fun db =>
    (C.orderBy Label.name (listed organizationId db)).take 200

end Labels

/-! ## Requests -/

namespace Tracker

/-- A request to one of the endpoints: its path, its query and its body. -/
inductive Endpoint where
  | createOrganization (body : Organizations.OrganizationCreate)
  | listOrgs
  | getOrg (organizationId : Uuid)
  | updateOrg (organizationId : Uuid) (body : Organizations.OrganizationUpdate)
  | members (organizationId : Uuid)
  | changeRole (organizationId memberId : Uuid)
      (body : Organizations.RoleChange)
  | removeMember (organizationId memberId : Uuid)
  | invite (organizationId : Uuid) (body : Organizations.InvitationCreate)
  | invitations (organizationId : Uuid)
  | revokeInvitation (organizationId invitationId : Uuid)
  | acceptInvitation (body : Organizations.InvitationAccept)
  | createProject (organizationId : Uuid) (body : Projects.ProjectCreate)
  | listProjects (organizationId : Uuid) (includeArchived : Bool)
  | getProject (organizationId projectId : Uuid)
  | updateProject (organizationId projectId : Uuid)
      (body : Projects.ProjectUpdate)
  | setArchived (organizationId projectId : Uuid) (archived : Bool)
  | createIssue (organizationId : Uuid) (body : Issues.IssueCreate)
  | listIssues (organizationId : Uuid) (filters : Issues.Filters)
      (sort : Issues.SortOrder) (cursor : Option String) (limit : Limit)
  | getIssue (organizationId issueId : Uuid)
  | updateIssue (organizationId issueId : Uuid) (body : Issues.IssueUpdate)
  | changeStatus (organizationId issueId : Uuid) (body : Issues.StatusChange)
  | assign (organizationId issueId : Uuid) (body : Issues.Assignment)
  | archiveIssue (organizationId issueId : Uuid)
  | createLabel (organizationId : Uuid) (body : Labels.LabelCreate)
  | listLabels (organizationId : Uuid)
  | updateLabel (organizationId labelId : Uuid) (body : Labels.LabelCreate)
  | deleteLabel (organizationId labelId : Uuid)
  | attach (organizationId issueId labelId : Uuid)
  | detach (organizationId issueId labelId : Uuid)
  | createComment (organizationId issueId : Uuid)
      (body : Comments.CommentCreate)
  | listComments (organizationId issueId : Uuid) (cursor : Option String)
      (limit : Limit)
  | updateComment (organizationId commentId : Uuid)
      (body : Comments.CommentCreate)
  | deleteComment (organizationId commentId : Uuid)
  | listAudit (organizationId : Uuid) (cursor : Option String) (limit : Limit)

/-- What an endpoint responds, if it raises no error. -/
inductive Answer where
  | organization (organization : Organization)
  | organizations (organizations : List Organization)
  | members (members : List Organizations.MemberOut)
  | invited (id : Uuid) (expiresAt : Instant)
  | invitations (invitations : List Organizations.InvitationOut)
  | project (project : Project)
  | projects (projects : List Project)
  | issue (issue : Issue)
  | issues (page : CursorPage Issue)
  | label (label : Label)
  | labels (labels : List Label)
  | comment (comment : Comment)
  | comments (page : CursorPage Comment)
  | audit (page : CursorPage Audit.AuditEventResponse)
  | noContent

/-- What the endpoints know of their surroundings. -/
structure Deployment where
  tokens : TokenHash
  platform : Platform
  collation : Collation
  settings : Settings

def Endpoint.handle (D : Deployment) (client : Auth.Client) (user : User) :
    Endpoint → Tx Answer
  | .createOrganization body =>
      .organization <$> Organizations.create user body client.requestId
  | .listOrgs => .organizations <$> Organizations.listOrgs D.collation user
  | .getOrg O => .organization <$> Organizations.getOrg O user
  | .updateOrg O body => .organization <$> Organizations.update O user body
  | .members O => .members <$> Organizations.members D.collation O user
  | .changeRole O memberId body =>
      (fun _ => .noContent) <$> Organizations.changeRole O memberId user body
  | .removeMember O memberId =>
      (fun _ => .noContent) <$> Organizations.removeMember O memberId user
  | .invite O body =>
      (fun x => .invited x.id x.expiresAt) <$>
        Organizations.inviteLimited D.tokens D.settings client O user body
  | .invitations O => .invitations <$> Organizations.invitations O user
  | .revokeInvitation O invitationId =>
      (fun _ => .noContent) <$>
        Organizations.revokeInvitation O invitationId user
  | .acceptInvitation body =>
      (fun _ => .noContent) <$> Organizations.accept D.tokens user body
  | .createProject O body => .project <$> Projects.createProject O user body
  | .listProjects O includeArchived =>
      .projects <$> Projects.list D.collation O user includeArchived
  | .getProject O projectId => .project <$> Projects.read O projectId user
  | .updateProject O projectId body =>
      .project <$> Projects.updateProject O projectId user body
  | .setArchived O projectId archived =>
      (fun _ => .noContent) <$> Projects.setArchived O projectId user archived
  | .createIssue O body => .issue <$> Issues.createIssue O user body
  | .listIssues O filters sort cursor limit =>
      .issues <$> Issues.list D.platform O user filters sort cursor limit
  | .getIssue O issueId => .issue <$> Issues.read O issueId user
  | .updateIssue O issueId body =>
      .issue <$> Issues.updateIssue O issueId user body
  | .changeStatus O issueId body =>
      .issue <$> Issues.changeStatus O issueId user body
  | .assign O issueId body => .issue <$> Issues.assign O issueId user body
  | .archiveIssue O issueId =>
      (fun _ => .noContent) <$> Issues.archive O issueId user
  | .createLabel O body => .label <$> Labels.create O user body
  | .listLabels O => .labels <$> Labels.list D.collation O user
  | .updateLabel O labelId body =>
      .label <$> Labels.update O labelId user body
  | .deleteLabel O labelId =>
      (fun _ => .noContent) <$> Labels.delete O labelId user
  | .attach O issueId labelId =>
      (fun _ => .noContent) <$> Labels.attach O issueId labelId user
  | .detach O issueId labelId =>
      (fun _ => .noContent) <$> Labels.detach O issueId labelId user
  | .createComment O issueId body =>
      .comment <$> Comments.create O issueId user body
  | .listComments O issueId cursor limit =>
      .comments <$> Comments.list D.platform O issueId user cursor limit
  | .updateComment O commentId body =>
      .comment <$> Comments.update O commentId user body
  | .deleteComment O commentId =>
      (fun _ => .noContent) <$> Comments.delete O commentId user
  | .listAudit O cursor limit =>
      .audit <$> Audit.list D.platform O user cursor limit

/-- A request with its bearer token. -/
def Endpoint.serve (D : Deployment) (client : Auth.Client)
    (authorization : Authorization) (endpoint : Endpoint) : Tx Answer := do
  let user ← currentUser authorization
  endpoint.handle D client user

end Tracker

end Workstream
