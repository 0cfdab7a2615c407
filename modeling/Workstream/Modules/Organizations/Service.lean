import Workstream.Api.Dependencies

/-!
# The organization service

Every function is one request on one session.  `SELECT ... FOR UPDATE` on the
organization row is the lock that serializes owner changes; the flush of a
dirty object is the `UPDATE` of its row by primary key.
-/

namespace Workstream.Organizations

open ReadCommitted

/-! ## Request bodies -/

structure OrganizationCreate where
  name : String
  slug : String

structure OrganizationUpdate where
  name : String

structure RoleChange where
  role : Role

/-- The pattern of `role` admits every role but `owner`. -/
structure InvitationCreate where
  email : String
  role : Role
  role_ne_owner : role ≠ .owner

structure InvitationAccept where
  token : Token

/-! ## Organizations -/

def slugConflict : AppError where
  status := 409
  code := "organization_slug_conflict"
  detail := "Organization slug is already in use"

def create (user : User) (body : OrganizationCreate) (requestId : String) :
    Tx Organization := do
  let id ← Prog.freshId
  let createdAt ← now
  let updatedAt ← now
  let org : Organization :=
    { id, name := body.name, slug := body.slug, createdAt, updatedAt }
  let conflict ← Prog.insertRow (σ := schema) .organizations org
  match conflict with
  | some (.slug _) => do
      Prog.rollbackNow
      .raise slugConflict
  | some _ => .halt
  | none => do
      Prog.insertOrHalt (σ := schema) .memberships
        { organizationId := org.id, userId := user.id, role := .owner }
      audit user.id (some org.id) "organization.created" "organization" org.id
        .empty (some requestId)
      Prog.commitNow
      return org

/-- The flush sends only what differs from the loaded row. -/
def update (organizationId : Uuid) (user : User) (body : OrganizationUpdate) :
    Tx Organization := do
  let _ ← requireMembership organizationId user.id [.owner, .admin]
  let org ← get .organizations (.id organizationId)
  let org ← Prog.require org (notFound "Organization not found")
  let updatedAt ← now
  (if org.name = body.name then pure ()
    else Prog.updateKey (σ := schema) .organizations (.id organizationId)
      fun o => { o with name := body.name, updatedAt })
  audit user.id (some organizationId) "organization.updated" "organization"
    org.id .empty none
  Prog.commitNow
  return if org.name = body.name then org
    else { org with name := body.name, updatedAt }

/-! ## Members -/

def finalOwner : AppError where
  status := 409
  code := "final_owner"
  detail := "An organization must retain at least one owner"

/-- `lock_member`.  `held` is the membership that the session already holds
for this key; `db.get` then does not read the row again. -/
def lockMember (organizationId userId : Uuid) (held : Option Membership) :
    Tx Membership := do
  let _ ← Prog.locking (σ := schema) (t := .organizations)
    (Prog.byKey (.id organizationId) fun _ => .lock)
  let member ← (match held with
    | some m => pure (some m)
    | none => get .memberships (membershipKey organizationId userId))
  Prog.require member (notFound "Member not found")

def protectOwner (organizationId : Uuid) (member : Membership) : Tx Unit :=
  if member.role = .owner then do
    let owners ← Prog.select fun db : Db =>
      (db .memberships).rows.filter fun m =>
        m.organizationId = organizationId ∧ m.role = .owner
    Prog.ensure (1 < owners.length) finalOwner
  else pure ()

def changeRole (organizationId memberId : Uuid) (actor : User)
    (body : RoleChange) : Tx Unit := do
  let _ ← requireMembership organizationId actor.id [.owner]
  let member ← lockMember organizationId memberId none
  (if body.role ≠ .owner then protectOwner organizationId member
    else pure ())
  let previous := member.role
  (if previous = body.role then pure ()
    else Prog.updateKey (σ := schema) .memberships
      (membershipKey organizationId memberId)
      fun m => { m with role := body.role })
  audit actor.id (some organizationId) "membership.role_changed" "membership"
    memberId (.roles previous body.role) none
  Prog.commitNow

/-- The session keeps `actorMembership`, so a target that is the actor is not
read again under the lock. -/
def removeMember (organizationId memberId : Uuid) (actor : User) :
    Tx Unit := do
  let actorMembership ←
    requireMembership organizationId actor.id [.owner, .admin]
  let member ← lockMember organizationId memberId
    (if memberId = actor.id then some actorMembership else none)
  Prog.ensure (!(actorMembership.role = .admin ∧ member.role = .owner))
    (insufficientPermission "Admins cannot remove organization owners")
  protectOwner organizationId member
  audit actor.id (some organizationId) "membership.removed" "membership"
    memberId .empty none
  Prog.deleteKey (σ := schema) .memberships
    (membershipKey organizationId memberId)
  Prog.commitNow

/-! ## Invitations -/

section Invitations

variable (H : TokenHash)

def invite (organizationId : Uuid) (actor : User) (body : InvitationCreate) :
    Tx Invitation := do
  let _ ← requireMembership organizationId actor.id [.owner, .admin]
  let raw ← Prog.freshId
  let expiresFrom ← now
  let id ← Prog.freshId
  let invitation : Invitation :=
    { id, organizationId, invitedEmail := lower body.email, role := body.role,
      tokenHash := H.hash raw, inviterId := actor.id,
      expiresAt := expiresFrom + days 7 }
  Prog.insertOrHalt (σ := schema) .invitations invitation
  audit actor.id (some organizationId) "invitation.created" "invitation"
    invitation.id (.invited invitation.invitedEmail invitation.role) none
  let eventId ← Prog.freshId
  let occurredAt ← now
  Prog.insertOrHalt (σ := schema) .outboxEvents
    { id := eventId, topic := "email.invitation"
      payload := [("invitation_id", .uuid invitation.id),
        ("email", .text invitation.invitedEmail), ("token", .token raw)]
      occurredAt, availableAt := occurredAt }
  Prog.commitNow
  return invitation

def revokeInvitation (organizationId invitationId : Uuid) (actor : User) :
    Tx Unit := do
  let _ ← requireMembership organizationId actor.id [.owner, .admin]
  let invitation ← Prog.locking (σ := schema) (t := .invitations)
    { pred := fun i =>
        i.id = invitationId ∧ i.organizationId = organizationId }
  let invitation ← scalarOneOrNone invitation
  let invitation ← Prog.require invitation (notFound "Invitation not found")
  let revokedAt ← now
  Prog.updateKey (σ := schema) .invitations (.id invitation.id)
    fun i => { i with revokedAt := some revokedAt }
  audit actor.id (some organizationId) "invitation.revoked" "invitation"
    invitation.id .empty none
  Prog.commitNow

def invalidInvitation : AppError where
  status := 400
  code := "invalid_invitation"
  detail := "Invitation is invalid or expired"

def invitationEmailMismatch : AppError where
  status := 403
  code := "invitation_email_mismatch"
  detail := "Invitation belongs to another account"

/-- The part of `accept` after its checks. -/
def join (actor : User) (invitation : Invitation) (time : Instant) :
    Tx Unit := do
  let membership ← get .memberships
    (membershipKey invitation.organizationId actor.id)
  (if membership.isNone then
      Prog.insertOrHalt (σ := schema) .memberships
        { organizationId := invitation.organizationId, userId := actor.id
          role := invitation.role }
    else pure ())
  Prog.updateKey (σ := schema) .invitations (.id invitation.id)
    fun i => { i with acceptedAt := some (invitation.acceptedAt.getD time) }
  audit actor.id (some invitation.organizationId) "invitation.accepted"
    "invitation" invitation.id .empty none
  Prog.commitNow

def accept (actor : User) (body : InvitationAccept) : Tx Unit := do
  let invitation ← Prog.locking (σ := schema) (t := .invitations)
    { pred := fun i => i.tokenHash = H.hash body.token }
  let invitation ← scalarOneOrNone invitation
  let time ← now
  let invitation ← Prog.require invitation invalidInvitation
  Prog.ensure (invitation.revokedAt.isNone && time < invitation.expiresAt)
    invalidInvitation
  Prog.ensure (invitation.invitedEmail = actor.email) invitationEmailMismatch
  if invitation.acceptedAt.isSome then pure ()
  else join actor invitation time

end Invitations

/-! ## Requests -/

inductive Request where
  | create (user : User) (body : OrganizationCreate) (requestId : String)
  | changeRole (organizationId memberId : Uuid) (actor : User)
      (body : RoleChange)
  | removeMember (organizationId memberId : Uuid) (actor : User)
  | invite (organizationId : Uuid) (actor : User) (body : InvitationCreate)
  | revokeInvitation (organizationId invitationId : Uuid) (actor : User)
  | accept (actor : User) (body : InvitationAccept)

def serve (H : TokenHash) : Request → Tx Unit
  | .create user body requestId => do
      let _ ← create user body requestId
  | .changeRole organizationId memberId actor body =>
      changeRole organizationId memberId actor body
  | .removeMember organizationId memberId actor =>
      removeMember organizationId memberId actor
  | .invite organizationId actor body => do
      let _ ← invite H organizationId actor body
  | .revokeInvitation organizationId invitationId actor =>
      revokeInvitation organizationId invitationId actor
  | .accept actor body => accept H actor body

end Workstream.Organizations
