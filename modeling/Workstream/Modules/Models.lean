import Workstream.ReadCommitted.Program
import Workstream.Text.Lower

/-!
# Tables

The rows of the migrated schema, with the columns that some endpoint reads or
returns.  Identifiers, opaque tokens and digests are only ever compared for
equality, so they are numbers; instants are microseconds.
-/

namespace Workstream

open ReadCommitted

abbrev Uuid : Type := ℕ
abbrev Token : Type := ℕ
abbrev Digest : Type := ℕ
abbrev PasswordHash : Type := ℕ
abbrev Instant : Type := ℕ
abbrev Date : Type := ℕ

def seconds (n : ℕ) : Instant := n * 1000000
def minutes (n : ℕ) : Instant := seconds (n * 60)
def hours (n : ℕ) : Instant := minutes (n * 60)
def days (n : ℕ) : Instant := hours (n * 24)

/-- `token_hash`, which is taken to have no collisions. -/
structure TokenHash where
  hash : Token → Digest
  injective : Function.Injective hash

/-- A hash for runs on given inputs. -/
def plainHash : TokenHash where
  hash := id
  injective := Function.injective_id

/-! ## Enumerations -/

inductive Role where
  | owner
  | admin
  | member
  | viewer
  deriving DecidableEq

inductive IssueStatus where
  | backlog
  | todo
  | inProgress
  | done
  | canceled
  deriving DecidableEq

inductive Priority where
  | noPriority
  | low
  | medium
  | high
  | urgent
  deriving DecidableEq

/-- `OneTimeToken.purpose`. -/
inductive Purpose where
  | verifyEmail
  | passwordReset
  deriving DecidableEq

/-- `AuditEvent.metadata_`: the dictionaries that the services write. -/
inductive Metadata where
  | empty
  | roles (previous target : Role)
  | statuses (previous target : IssueStatus)
  | invited (email : String) (role : Role)
  | assignee (assigneeId : Option Uuid)
  deriving DecidableEq

/-- A value of an outbox payload. -/
inductive PayloadValue where
  | text (s : String)
  | uuid (id : Uuid)
  | token (raw : Token)
  | bool (b : Bool)
  deriving DecidableEq

abbrev Payload : Type := List (String × PayloadValue)

/-! ## Rows -/

structure User where
  id : Uuid
  email : String
  passwordHash : PasswordHash
  displayName : String
  emailVerifiedAt : Option Instant := none
  isActive : Bool := true
  deriving DecidableEq

structure Organization where
  id : Uuid
  name : String
  slug : String
  createdAt : Instant
  updatedAt : Instant
  deriving DecidableEq

structure Membership where
  organizationId : Uuid
  userId : Uuid
  role : Role
  deriving DecidableEq

structure Invitation where
  id : Uuid
  organizationId : Uuid
  invitedEmail : String
  role : Role
  tokenHash : Digest
  inviterId : Uuid
  expiresAt : Instant
  acceptedAt : Option Instant := none
  revokedAt : Option Instant := none
  deriving DecidableEq

structure Project where
  id : Uuid
  organizationId : Uuid
  name : String
  key : String
  description : String := ""
  archived : Bool := false
  nextIssueNumber : ℕ := 1
  createdAt : Instant
  deriving DecidableEq

structure Issue where
  id : Uuid
  organizationId : Uuid
  projectId : Uuid
  number : ℕ
  title : String
  description : String := ""
  status : IssueStatus := .backlog
  priority : Priority := .noPriority
  reporterId : Uuid
  assigneeId : Option Uuid := none
  dueDate : Option Date := none
  version : ℕ := 1
  archivedAt : Option Instant := none
  createdAt : Instant
  updatedAt : Instant
  deriving DecidableEq

structure Label where
  id : Uuid
  organizationId : Uuid
  name : String
  color : String
  deriving DecidableEq

structure IssueLabel where
  issueId : Uuid
  labelId : Uuid
  deriving DecidableEq

structure Comment where
  id : Uuid
  organizationId : Uuid
  issueId : Uuid
  authorId : Uuid
  body : String
  editedAt : Option Instant := none
  createdAt : Instant
  deriving DecidableEq

/-- `payload` is the identifier under the key `issue_id`. -/
structure Notification where
  id : Uuid
  userId : Uuid
  organizationId : Option Uuid
  kind : String
  payload : Uuid
  createdAt : Instant
  readAt : Option Instant := none
  deriving DecidableEq

structure AuditEvent where
  id : Uuid
  actorId : Option Uuid
  organizationId : Option Uuid := none
  action : String
  entityType : String
  entityId : Option Uuid
  metadata : Metadata := .empty
  requestId : Option String := none
  createdAt : Instant
  deriving DecidableEq

structure AuthSession where
  id : Uuid
  userId : Uuid
  familyId : Uuid
  refreshTokenHash : Digest
  createdAt : Instant
  expiresAt : Instant
  rotatedAt : Option Instant := none
  revokedAt : Option Instant := none
  userAgent : Option String := none
  ipAddress : Option String := none
  deriving DecidableEq

structure OneTimeToken where
  id : Uuid
  userId : Uuid
  purpose : Purpose
  tokenHash : Digest
  expiresAt : Instant
  usedAt : Option Instant := none
  deriving DecidableEq

structure OutboxEvent where
  id : Uuid
  topic : String
  payload : Payload
  occurredAt : Instant
  availableAt : Instant
  attempts : ℕ := 0
  lockedAt : Option Instant := none
  lockedBy : Option String := none
  processedAt : Option Instant := none
  failedAt : Option Instant := none
  lastError : Option String := none
  deriving DecidableEq

/-! ## The schema -/

inductive Table where
  | users
  | organizations
  | memberships
  | invitations
  | projects
  | issues
  | labels
  | issueLabels
  | comments
  | notifications
  | auditEvents
  | authSessions
  | oneTimeTokens
  | outboxEvents
  deriving DecidableEq

/-- Primary keys and entries of unique indexes. -/
inductive Key where
  | id (id : Uuid)
  | pair (a b : Uuid)
  | email (email : String)
  | slug (slug : String)
  | projectKey (organizationId : Uuid) (key : String)
  | issueNumber (projectId : Uuid) (number : ℕ)
  | labelName (organizationId : Uuid) (name : String)
  | tokenHash (digest : Digest)
  deriving DecidableEq

/-- What the application asks of its surroundings.  `caught` is the class of
the exception in which the delivery of an event has ended. -/
inductive Call where
  | now
  | rateLimitHit (scope client account : String)
  | rateLimitTtl (scope client account : String)
  | hashPassword (password : String)
  | verifyPassword (password : String) (encoded : PasswordHash)
  | sendEmail (eventId : Uuid) (recipient token : PayloadValue) (path : String)
  | caught (eventId : Uuid)
  | jitter (base : ℕ)
  deriving DecidableEq

abbrev Row : Table → Type
  | .users => User
  | .organizations => Organization
  | .memberships => Membership
  | .invitations => Invitation
  | .projects => Project
  | .issues => Issue
  | .labels => Label
  | .issueLabels => IssueLabel
  | .comments => Comment
  | .notifications => Notification
  | .auditEvents => AuditEvent
  | .authSessions => AuthSession
  | .oneTimeTokens => OneTimeToken
  | .outboxEvents => OutboxEvent

/-- `str.lower`. -/
def lower (s : String) : String := String.ofList (Text.lower s.toList)

theorem toList_lower (s : String) : (lower s).toList = Text.lower s.toList :=
  String.toList_ofList

theorem lower_lower (s : String) : lower (lower s) = lower s := by
  rw [lower, toList_lower, Text.lower_lower]
  rfl

theorem length_lower_le (s : String) : (lower s).length ≤ s.utf8ByteSize := by
  rw [← String.length_toList, toList_lower]
  have hlength := Text.length_lowerFrom_le [] s.toList
  rwa [String.ofList_toList] at hlength

def primaryKey : (t : Table) → Row t → Key
  | .users, r => .id r.id
  | .organizations, r => .id r.id
  | .memberships, r => .pair r.organizationId r.userId
  | .invitations, r => .id r.id
  | .projects, r => .id r.id
  | .issues, r => .id r.id
  | .labels, r => .id r.id
  | .issueLabels, r => .pair r.issueId r.labelId
  | .comments, r => .id r.id
  | .notifications, r => .id r.id
  | .auditEvents, r => .id r.id
  | .authSessions, r => .id r.id
  | .oneTimeTokens, r => .id r.id
  | .outboxEvents, r => .id r.id

def uniqueEntries : (t : Table) → Row t → List Key
  | .users, r => [.email (lower r.email)]
  | .organizations, r => [.slug r.slug]
  | .invitations, r => [.tokenHash r.tokenHash]
  | .projects, r => [.projectKey r.organizationId r.key]
  | .issues, r => [.issueNumber r.projectId r.number]
  | .labels, r => [.labelName r.organizationId r.name]
  | .authSessions, r => [.tokenHash r.refreshTokenHash]
  | .oneTimeTokens, r => [.tokenHash r.tokenHash]
  | _, _ => []

instance : (t : Table) → DecidableEq (Row t)
  | .users => inferInstanceAs (DecidableEq User)
  | .organizations => inferInstanceAs (DecidableEq Organization)
  | .memberships => inferInstanceAs (DecidableEq Membership)
  | .invitations => inferInstanceAs (DecidableEq Invitation)
  | .projects => inferInstanceAs (DecidableEq Project)
  | .issues => inferInstanceAs (DecidableEq Issue)
  | .labels => inferInstanceAs (DecidableEq Label)
  | .issueLabels => inferInstanceAs (DecidableEq IssueLabel)
  | .comments => inferInstanceAs (DecidableEq Comment)
  | .notifications => inferInstanceAs (DecidableEq Notification)
  | .auditEvents => inferInstanceAs (DecidableEq AuditEvent)
  | .authSessions => inferInstanceAs (DecidableEq AuthSession)
  | .oneTimeTokens => inferInstanceAs (DecidableEq OneTimeToken)
  | .outboxEvents => inferInstanceAs (DecidableEq OutboxEvent)

abbrev schema : Schema where
  Table := Table
  Key := Key
  Call := Call
  Row := Row
  key := fun {t} r => primaryKey t r
  unique := fun {t} r => uniqueEntries t r

abbrev Db : Type := Store schema

end Workstream
