import Workstream.Api.Requests
import Workstream.Modules.Organizations.FinalOwner

/-!
# What the commits of the organization service do

`Effects` lists, for every kind of request, the rows that it commits, what it
has checked before, and on which stores.  Permissions are read before any lock
is taken, a member under the lock of the organization, and invitations are
locked themselves.
-/

namespace Workstream.Organizations

open ReadCommitted Contract

/-! ## Checks -/

/-- The owners that `protect_owner` counts. -/
def owners (O : Uuid) (db : Db) : List Membership :=
  (db .memberships).rows.filter fun m : Membership =>
    m.organizationId = O ∧ m.role = .owner

section Checks

variable (past : List schema.Ref → Db → Prop) (c : Commit schema)

/-- The permission check has read `m` before anything else. -/
def Checked (O actorId : Uuid) (roles : List Role) (m : Membership) : Prop :=
  m.role ∈ roles ∧ ∃ db, checkedOn c = some db ∧ past [] db ∧
    (db .memberships).lookup (membershipKey O actorId) = some m

/-- The locks that `lock_member` has taken; where there is no organization,
there are none. -/
inductive Locked (O : Uuid) : List schema.Ref → Prop where
  | held (h : c.Held (.organizations, .id O)) :
      Locked O [(.organizations, .id O)]
  | missing (db : Db) (h : past [] db)
      (hnone : (db .organizations).lookup (.id O) = none) : Locked O []

/-- `lock_member` has returned `m`: the membership that the session holds, or
the one that is there once the organization is locked. -/
def Found (O k : Uuid) (held : Option Membership) (m : Membership) : Prop :=
  ∃ refs, Locked past c O refs ∧
    match held with
    | some am => m = am
    | none => ∃ db, past refs db ∧
        (db .memberships).lookup (membershipKey O k) = some m

/-- `protect_owner` has found more owners than `m`, if `m` is one. -/
def Spared (O : Uuid) (m : Membership) : Prop :=
  m.role = .owner → ∃ db, past [] db ∧ 1 < (owners O db).length

end Checks

/-! ## Effects -/

/-- The row that `invite` inserts. -/
def InvitationCreate.invitation (body : InvitationCreate) (H : TokenHash)
    (O : Uuid) (actor : User) (id : Uuid) (raw : Token) (time : Instant) :
    Invitation where
  id := id
  organizationId := O
  invitedEmail := lower body.email
  role := body.role
  tokenHash := H.hash raw
  inviterId := actor.id
  expiresAt := time + days 7

/-- The outbox event that `invite` inserts. -/
def invitationEvent (invitation : Invitation) (raw : Token) (id : Uuid)
    (time : Instant) : OutboxEvent where
  id := id
  topic := "email.invitation"
  payload := [("invitation_id", .uuid invitation.id),
    ("email", .text invitation.invitedEmail), ("token", .token raw)]
  occurredAt := time
  availableAt := time

/-- The writes that an accepted invitation makes: a membership, if there is
none, and the mark of the invitation. -/
inductive Joins (past : List schema.Ref → Db → Prop) (c : Commit schema)
    (actor : User) (r : Invitation) (time : Instant) :
    List (Write schema) → Prop where
  | member (hnone : (c.before .memberships).lookup
        (membershipKey r.organizationId actor.id) = none) :
      Joins past c actor r time
        [.put .memberships
          { organizationId := r.organizationId, userId := actor.id
            role := r.role },
          .put .invitations { r with acceptedAt := some time }]
  | already (db : Db) (m : Membership) (hpast : past [] db)
      (hm : (db .memberships).lookup
        (membershipKey r.organizationId actor.id) = some m) :
      Joins past c actor r time
        [.put .invitations { r with acceptedAt := some time }]

/-- What the commit of a request does. -/
inductive Effects (H : TokenHash) (past : List schema.Ref → Db → Prop) :
    Request → Commit schema → Prop where
  | created {user : User} {body : OrganizationCreate} {requestId : String}
      {c : Commit schema} (org : Organization) (event : AuditEvent)
      (hname : org.name = body.name) (hslug : org.slug = body.slug)
      (hnew : (c.before .organizations).lookup (.id org.id) = none)
      (hmember : (c.before .memberships).lookup
        (membershipKey org.id user.id) = none)
      (haudit : Audited c.before user.id org.id "organization.created"
        "organization" org.id .empty event)
      (hwrites : c.session.writes =
        [.put .organizations org,
          .put .memberships
            { organizationId := org.id, userId := user.id, role := .owner },
          .put .auditEvents event]) :
      Effects H past (.create user body requestId) c
  | roleKept {O k : Uuid} {actor : User} {body : RoleChange}
      {c : Commit schema} (am m : Membership) (event : AuditEvent)
      (hchecked : Checked past c O actor.id [.owner] am)
      (hfound : Found past c O k none m) (hsame : m.role = body.role)
      (haudit : Audited c.before actor.id O "membership.role_changed"
        "membership" k (.roles m.role body.role) event)
      (hwrites : c.session.writes = [.put .auditEvents event]) :
      Effects H past (.changeRole O k actor body) c
  | roleChanged {O k : Uuid} {actor : User} {body : RoleChange}
      {c : Commit schema} (am m r : Membership) (event : AuditEvent)
      (hchecked : Checked past c O actor.id [.owner] am)
      (hfound : Found past c O k none m) (hother : m.role ≠ body.role)
      (hrow : (c.before .memberships).lookup (membershipKey O k) = some r)
      (haudit : Audited c.before actor.id O "membership.role_changed"
        "membership" k (.roles m.role body.role) event)
      (hwrites : c.session.writes =
        [.put .memberships { r with role := body.role },
          .put .auditEvents event]) :
      Effects H past (.changeRole O k actor body) c
  | removed {O k : Uuid} {actor : User} {c : Commit schema}
      (am m : Membership) (event : AuditEvent)
      (hchecked : Checked past c O actor.id [.owner, .admin] am)
      (hfound : Found past c O k
        (if k = actor.id then some am else none) m)
      (hallowed : am.role = .admin → m.role ≠ .owner)
      (hspared : Spared past O m)
      (haudit : Audited c.before actor.id O "membership.removed" "membership"
        k .empty event)
      (hwrites : c.session.writes =
        [.put .auditEvents event, .del .memberships (membershipKey O k)]) :
      Effects H past (.removeMember O k actor) c
  | unremoved {O k : Uuid} {actor : User} {c : Commit schema}
      (am m : Membership) (event : AuditEvent) (db : Db)
      (hchecked : Checked past c O actor.id [.owner, .admin] am)
      (hfound : Found past c O k
        (if k = actor.id then some am else none) m)
      (hallowed : am.role = .admin → m.role ≠ .owner)
      (hpast : past [] db)
      (hgone : (db .memberships).lookup (membershipKey O k) = none)
      (haudit : Audited c.before actor.id O "membership.removed" "membership"
        k .empty event)
      (hwrites : c.session.writes = [.put .auditEvents event]) :
      Effects H past (.removeMember O k actor) c
  | invited {O : Uuid} {actor : User} {body : InvitationCreate}
      {c : Commit schema} (am : Membership) (id eventId : Uuid) (raw : Token)
      (time occurredAt : Instant) (event : AuditEvent)
      (hchecked : Checked past c O actor.id [.owner, .admin] am)
      (hdrawn : raw ∈ c.session.ids)
      (hnew : (c.before .invitations).lookup (.id id) = none)
      (hevent : (c.before .outboxEvents).lookup (.id eventId) = none)
      (haudit : Audited c.before actor.id O "invitation.created" "invitation"
        id (.invited (lower body.email) body.role) event)
      (hwrites : c.session.writes =
        [.put .invitations (body.invitation H O actor id raw time),
          .put .auditEvents event,
          .put .outboxEvents (invitationEvent
            (body.invitation H O actor id raw time) raw eventId
              occurredAt)]) :
      Effects H past (.invite O actor body) c
  | revoked {O i : Uuid} {actor : User} {c : Commit schema}
      (am : Membership) (r : Invitation) (time : Instant) (event : AuditEvent)
      (hchecked : Checked past c O actor.id [.owner, .admin] am)
      (hrow : (c.before .invitations).lookup (.id i) = some r)
      (horganization : r.organizationId = O)
      (haudit : Audited c.before actor.id O "invitation.revoked" "invitation"
        i .empty event)
      (hwrites : c.session.writes =
        [.put .invitations { r with revokedAt := some time },
          .put .auditEvents event]) :
      Effects H past (.revokeInvitation O i actor) c
  | accepted {actor : User} {body : InvitationAccept} {c : Commit schema}
      (r : Invitation) (time : Instant) (ws : List (Write schema))
      (event : AuditEvent) (hclock : readNow c = some time)
      (hrow : (c.before .invitations).lookup (.id r.id) = some r)
      (hhash : r.tokenHash = H.hash body.token)
      (hemail : r.invitedEmail = actor.email)
      (hopen : r.acceptedAt = none) (hvalid : r.revokedAt = none)
      (hexpires : time < r.expiresAt) (hjoins : Joins past c actor r time ws)
      (haudit : Audited c.before actor.id r.organizationId
        "invitation.accepted" "invitation" r.id .empty event)
      (hwrites : c.session.writes = ws ++ [.put .auditEvents event]) :
      Effects H past (.accept actor body) c

/-- What the commit of `update` does. -/
inductive Renames (past : List schema.Ref → Db → Prop) (c : Commit schema)
    (O : Uuid) (user : User) (body : OrganizationUpdate) : Prop where
  | kept (m : Membership) (org : Organization) (event : AuditEvent)
      (hpermitted : Permitted past O user.id [.owner, .admin] m)
      (horganization : ∃ db, past [] db ∧
        (db .organizations).lookup (.id O) = some org)
      (hsame : org.name = body.name)
      (haudit : Audited c.before user.id O "organization.updated"
        "organization" O .empty event)
      (hwrites : c.session.writes = [.put .auditEvents event])
  | renamed (m : Membership) (org r : Organization) (time : Instant)
      (event : AuditEvent)
      (hpermitted : Permitted past O user.id [.owner, .admin] m)
      (horganization : ∃ db, past [] db ∧
        (db .organizations).lookup (.id O) = some org)
      (hother : org.name ≠ body.name)
      (hrow : (c.before .organizations).lookup (.id O) = some r)
      (haudit : Audited c.before user.id O "organization.updated"
        "organization" O .empty event)
      (hwrites : c.session.writes =
        [.put .organizations { r with name := body.name, updatedAt := time },
          .put .auditEvents event])

end Workstream.Organizations
