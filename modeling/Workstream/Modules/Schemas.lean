import Mathlib.Algebra.Group.Nat.Defs
import Workstream.Modules.Auth.Router
import Workstream.Modules.Tracker.Requests
import Workstream.ReadCommitted.Constraints

/-!
# Request bodies and the migrated schema

What the request models accept, and the constraints that the migrations put on
the rows.  The two state their lengths and patterns independently of each
other.
-/

namespace Workstream.Schemas

open ReadCommitted

/-! ## Patterns -/

/-- `^[a-z0-9]+(?:-[a-z0-9]+)*$`. -/
def slugPattern (s : String) : Bool :=
  (s.toList.splitOn '-').all fun part =>
    !part.isEmpty && part.all fun c => c.isLower || c.isDigit

/-- `^[A-Z][A-Z0-9]{1,9}$`. -/
def keyPattern (s : String) : Bool :=
  match s.toList with
  | [] => false
  | c :: cs => c.isUpper && decide (1 ≤ cs.length ∧ cs.length ≤ 9) &&
      cs.all fun d => d.isUpper || d.isDigit

def isHexDigit (c : Char) : Bool :=
  c.isDigit || decide ('A' ≤ c ∧ c ≤ 'F') || decide ('a' ≤ c ∧ c ≤ 'f')

/-- `^#[0-9A-Fa-f]{6}$`. -/
def colorPattern (s : String) : Bool :=
  match s.toList with
  | '#' :: cs => cs.length = 6 && cs.all isHexDigit
  | _ => false

/-! ## Request models -/

/-- `Field(min_length=a, max_length=b)`. -/
def Length (a b : ℕ) (s : String) : Prop :=
  a ≤ s.length ∧ s.length ≤ b

/-- A field of type `str | None` that may be left unset. -/
def Given (P : String → Prop) (field : Option (Option String)) : Prop :=
  ∀ s, field = some (some s) → P s

/-- `SAFE_REQUEST_ID`. -/
def safeRequestId (candidate : String) : Bool :=
  decide (1 ≤ candidate.length ∧ candidate.length ≤ 128) &&
    candidate.toList.all fun c => c.isAlphanum || c = '.' || c = '_' || c = '-'

/-- The identifier that `request_middleware` gives to a request; `uuid` is the
text of the one that it draws. -/
def requestId (candidate uuid : String) : String :=
  if safeRequestId candidate then candidate else uuid

/-- The identifier is one that the middleware gives. -/
def Stamped (id : String) : Prop :=
  ∃ candidate uuid, uuid.length = 36 ∧ id = requestId candidate uuid

theorem Stamped.length {id : String} (h : Stamped id) : id.length ≤ 128 := by
  obtain ⟨candidate, uuid, huuid, rfl⟩ := h
  unfold requestId
  split
  · next hsafe =>
      simp only [safeRequestId, Bool.and_eq_true, decide_eq_true_eq] at hsafe
      exact hsafe.1.2
  · omega

section Accepted

variable (EmailStr : String → Prop)

def AcceptedOrganizationCreate (body : Organizations.OrganizationCreate) :
    Prop :=
  Length 1 120 body.name ∧ slugPattern body.slug = true ∧
    body.slug.length ≤ 63

def AcceptedOrganizationUpdate (body : Organizations.OrganizationUpdate) :
    Prop :=
  Length 1 120 body.name

def AcceptedInvitationCreate (body : Organizations.InvitationCreate) : Prop :=
  EmailStr body.email

def AcceptedProjectCreate (body : Projects.ProjectCreate) : Prop :=
  Length 1 120 body.name ∧ keyPattern body.key = true ∧
    Length 0 10000 body.description

def AcceptedProjectUpdate (body : Projects.ProjectUpdate) : Prop :=
  Given (Length 1 120) body.name ∧ Given (Length 0 10000) body.description

def AcceptedIssueCreate (body : Issues.IssueCreate) : Prop :=
  Length 1 240 body.title ∧ Length 0 100000 body.description

def AcceptedIssueUpdate (body : Issues.IssueUpdate) : Prop :=
  Given (Length 1 240) body.title ∧ Given (Length 0 100000) body.description

def AcceptedLabelCreate (body : Labels.LabelCreate) : Prop :=
  Length 1 50 body.name ∧ colorPattern body.color = true

def AcceptedCommentCreate (body : Comments.CommentCreate) : Prop :=
  Length 1 20000 body.body

def AcceptedRegisterRequest (body : Auth.RegisterRequest) : Prop :=
  EmailStr body.email ∧ Length 12 256 body.password ∧
    Length 1 120 body.displayName

end Accepted

/-! ## The migrated schema -/

def roleText : Role → String
  | .owner => "owner"
  | .admin => "admin"
  | .member => "member"
  | .viewer => "viewer"

def priorityText : Priority → String
  | .noPriority => "no_priority"
  | .low => "low"
  | .medium => "medium"
  | .high => "high"
  | .urgent => "urgent"

def purposeText : Purpose → String
  | .verifyEmail => "verify_email"
  | .passwordReset => "password_reset"

/-- `hexdigest`, from the last of the digits to the first. -/
def hexdigest (digest : Digest) : String :=
  String.ofList ((List.range 64).map fun i => Nat.digitChar (digest / 16 ^ i % 16))

/-- The `varchar` columns and the checks of a table.  A column that admits no
null has a type without one. -/
def Columns : (t : Table) → Row t → Prop
  | .users, (r : User) => r.email.length ≤ 320 ∧ r.displayName.length ≤ 120
  | .organizations, (r : Organization) =>
      r.name.length ≤ 120 ∧ r.slug.length ≤ 63 ∧ slugPattern r.slug = true
  | .memberships, (r : Membership) =>
      (roleText r.role).length ≤ 16 ∧
        roleText r.role ∈ ["owner", "admin", "member", "viewer"]
  | .invitations, (r : Invitation) =>
      r.invitedEmail.length ≤ 320 ∧ (roleText r.role).length ≤ 16 ∧
        (hexdigest r.tokenHash).length ≤ 64
  | .projects, (r : Project) =>
      r.name.length ≤ 120 ∧ r.key.length ≤ 10 ∧ keyPattern r.key = true
  | .issues, (r : Issue) =>
      r.title.length ≤ 240 ∧ (Issues.statusText r.status).length ≤ 20 ∧
        Issues.statusText r.status ∈
          ["backlog", "todo", "in_progress", "done", "canceled"] ∧
        (priorityText r.priority).length ≤ 20 ∧
        priorityText r.priority ∈
          ["no_priority", "low", "medium", "high", "urgent"] ∧
        1 ≤ r.version
  | .labels, (r : Label) =>
      r.name.length ≤ 50 ∧ r.color.length ≤ 7 ∧ colorPattern r.color = true
  | .issueLabels, _ => True
  | .comments, _ => True
  | .notifications, (r : Notification) => r.kind.length ≤ 50
  | .auditEvents, (r : AuditEvent) =>
      r.action.length ≤ 100 ∧ r.entityType.length ≤ 50 ∧
        ∀ id, r.requestId = some id → id.length ≤ 128
  | .authSessions, (r : AuthSession) =>
      (hexdigest r.refreshTokenHash).length ≤ 64 ∧
        (∀ agent, r.userAgent = some agent → agent.length ≤ 300) ∧
        ∀ address, r.ipAddress = some address → address.length ≤ 64
  | .oneTimeTokens, (r : OneTimeToken) =>
      (purposeText r.purpose).length ≤ 30 ∧ (hexdigest r.tokenHash).length ≤ 64
  | .outboxEvents, (r : OutboxEvent) =>
      r.topic.length ≤ 100 ∧
        ∀ worker, r.lockedBy = some worker → worker.length ≤ 100

def userRef (id : Uuid) : schema.Ref := (.users, .id id)

def organizationRef (id : Uuid) : schema.Ref := (.organizations, .id id)

def projectRef (id : Uuid) : schema.Ref := (.projects, .id id)

def issueRef (id : Uuid) : schema.Ref := (.issues, .id id)

/-- The foreign keys of a table, but for the one to a label, which the label
service looks after. -/
def references : (t : Table) → Row t → List schema.Ref
  | .memberships, (r : Membership) =>
      [organizationRef r.organizationId, userRef r.userId]
  | .invitations, (r : Invitation) =>
      [organizationRef r.organizationId, userRef r.inviterId]
  | .projects, (r : Project) => [organizationRef r.organizationId]
  | .issues, (r : Issue) =>
      organizationRef r.organizationId :: projectRef r.projectId ::
        userRef r.reporterId :: r.assigneeId.toList.map userRef
  | .labels, (r : Label) => [organizationRef r.organizationId]
  | .issueLabels, (r : IssueLabel) => [issueRef r.issueId]
  | .comments, (r : Comment) =>
      [organizationRef r.organizationId, issueRef r.issueId, userRef r.authorId]
  | .notifications, (r : Notification) =>
      userRef r.userId :: r.organizationId.toList.map organizationRef
  | .auditEvents, (r : AuditEvent) =>
      r.actorId.toList.map userRef ++ r.organizationId.toList.map organizationRef
  | .authSessions, (r : AuthSession) => [userRef r.userId]
  | .oneTimeTokens, (r : OneTimeToken) => [userRef r.userId]
  | _, _ => []

/-- The tables to which the foreign keys lead. -/
def referenced : Table → Bool
  | .users | .organizations | .projects | .issues => true
  | _ => false

/-- The constraints of the migrated schema. -/
def constraints : Constraints schema where
  row := fun {t} r => Columns t r
  refs := fun {t} r => references t r
  permanent := fun t => referenced t = true

theorem length_of_keyPattern {s : String} (h : keyPattern s = true) :
    s.length ≤ 10 := by
  rw [← String.length_toList]
  unfold keyPattern at h
  cases hs : s.toList with
  | nil => simp
  | cons c cs =>
      simp only [hs, Bool.and_eq_true, decide_eq_true_eq] at h
      have hcs := h.1.2.2
      simp only [List.length_cons]
      omega

theorem length_of_colorPattern {s : String} (h : colorPattern s = true) :
    s.length ≤ 7 := by
  rw [← String.length_toList]
  unfold colorPattern at h
  split at h
  · next cs hs =>
      simp only [Bool.and_eq_true, decide_eq_true_eq] at h
      simp [hs, h.1]
  · contradiction

theorem length_role (role : Role) : (roleText role).length ≤ 16 := by
  cases role <;> decide

theorem columns_membership (m : Membership) : Columns .memberships m := by
  refine ⟨length_role m.role, ?_⟩
  cases m.role <;> simp [roleText]

/-- The texts of the enumerations fit their columns and checks. -/
theorem columns_issue {i : Issue} (htitle : i.title.length ≤ 240)
    (hversion : 1 ≤ i.version) : Columns .issues i := by
  refine ⟨htitle, ?_, ?_, ?_, ?_, hversion⟩
  · cases i.status <;> decide
  · cases i.status <;> simp [Issues.statusText]
  · cases i.priority <;> decide
  · cases i.priority <;> simp [priorityText]

theorem length_hexdigest (digest : Digest) : (hexdigest digest).length = 64 := by
  simp [hexdigest]

end Workstream.Schemas
