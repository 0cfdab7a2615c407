import Workstream.Modules.Organizations.Invitations
import Workstream.Modules.Tracker.Tenancy

/-!
# What a role may write

The rows of an organization that a request changes, each of them judged
against the store before the request, by the role that the user has there.
The services check roles one by one; accepting an invitation asks for none,
and comments have their authors.
-/

namespace Workstream.Tracker

open ReadCommitted Contract World Organizations

/-- The user who makes a request. -/
def Request.user : Request → User
  | .organization (.create user _ _) => user
  | .organization (.changeRole _ _ actor _) => actor
  | .organization (.removeMember _ _ actor) => actor
  | .organization (.invite _ actor _) => actor
  | .organization (.revokeInvitation _ _ actor) => actor
  | .organization (.accept actor _) => actor
  | .rename _ user _ => user
  | .issue (.createProject _ user _) => user
  | .issue (.updateProject _ _ user _) => user
  | .issue (.setArchived _ _ user _) => user
  | .issue (.createIssue _ user _) => user
  | .issue (.updateIssue _ _ user _) => user
  | .issue (.changeStatus _ _ user _) => user
  | .issue (.assign _ _ user _) => user
  | .issue (.archive _ _ user) => user
  | .label (.create _ user _) => user
  | .label (.update _ _ user _) => user
  | .label (.delete _ _ user) => user
  | .label (.attach _ _ _ user) => user
  | .label (.detach _ _ _ user) => user
  | .comment (.create _ _ user _) => user
  | .comment (.update _ _ user _) => user
  | .comment (.delete _ _ user) => user

/-- The row belongs to organization `O`; a link does with its issue.
Notifications belong to their readers. -/
def Owned (db : Db) (O : Uuid) : (t : Table) → Row t → Prop
  | .issueLabels, x => ∃ y : Issue,
      (db .issues).lookup (.id (IssueLabel.issueId x)) = some y ∧
        y.organizationId = O
  | .notifications, _ => False
  | t, r => organizationOf t r = some O

/-! ## The bounds

The changes of one row, from what it was to what it is, in organization `O`
and by user `u`, on the store `s`. -/

section Bounds

variable (s : Db) (u : User) (O : Uuid)

/-- An invitation to `O` that `u` can accept. -/
structure Invited (r : Invitation) : Prop where
  row : (s .invitations).lookup (.id r.id) = some r
  organization : r.organizationId = O
  email : r.invitedEmail = u.email
  unaccepted : r.acceptedAt = none
  unrevoked : r.revokedAt = none

/-- The audit event of one of `actions`. -/
def Records (actions : List String) (event : AuditEvent) : Prop :=
  event.actorId = some u.id ∧ event.action ∈ actions

/-- What anybody does by accepting an invitation. -/
inductive Accepting : (t : Table) → Option (Row t) → Option (Row t) → Prop where
  | joined (r : Invitation) (hinvited : Invited s u O r)
      (hnone : roleOf s O u.id = none) :
      Accepting .memberships none
        (some { organizationId := O, userId := u.id, role := r.role })
  | marked (r : Invitation) (time : Instant) (hinvited : Invited s u O r)
      (hexpires : time < r.expiresAt) :
      Accepting .invitations (some r) (some { r with acceptedAt := some time })
  | audited (r : Invitation) (event : AuditEvent) (hinvited : Invited s u O r)
      (hentity : event.entityId = some r.id)
      (hevent : Records u ["invitation.accepted"] event) :
      Accepting .auditEvents none (some event)

/-- What every member does with the comments that are its own. -/
inductive Authoring : (t : Table) → Option (Row t) → Option (Row t) → Prop where
  | edited (x : Comment) (body : String) (time : Instant)
      (hauthor : x.authorId = u.id) :
      Authoring .comments (some x)
        (some { x with body, editedAt := some time })
  | deleted (x : Comment) (hauthor : x.authorId = u.id) :
      Authoring .comments (some x) none

/-- What comes with the role of a member. -/
inductive Contributing :
    (t : Table) → Option (Row t) → Option (Row t) → Prop where
  | commented (x : Comment) (hauthor : x.authorId = u.id) :
      Contributing .comments none (some x)
  | project (p : Project) (hunarchived : p.archived = false) :
      Contributing .projects none (some p)
  | projectEdited (p : Project) (name description : String) :
      Contributing .projects (some p) (some { p with name, description })
  | numbered (p : Project) :
      Contributing .projects (some p)
        (some { p with nextIssueNumber := p.nextIssueNumber + 1 })
  | issue (x : Issue) (hreporter : x.reporterId = u.id)
      (hunarchived : x.archivedAt = none) :
      Contributing .issues none (some x)
  | issueEdited (x : Issue) (title description : String)
      (priority : Priority) (dueDate : Option Date) (status : IssueStatus)
      (assigneeId : Option Uuid) (updatedAt : Instant) :
      Contributing .issues (some x) (some
        { x with
          title, description, priority, dueDate, status, assigneeId
          version := x.version + 1, updatedAt })
  | label (x : Label) : Contributing .labels none (some x)
  | labelEdited (x : Label) (name color : String) :
      Contributing .labels (some x) (some { x with name, color })
  | linked (x : IssueLabel) : Contributing .issueLabels none (some x)
  | unlinked (x : IssueLabel) : Contributing .issueLabels (some x) none
  | audited (event : AuditEvent)
      (hevent : Records u ["project.created", "issue.created",
        "issue.status_changed", "issue.assigned"] event) :
      Contributing .auditEvents none (some event)

/-- What comes with the role of an admin. -/
inductive Administering :
    (t : Table) → Option (Row t) → Option (Row t) → Prop where
  | renamed (o : Organization) (name : String) (updatedAt : Instant) :
      Administering .organizations (some o) (some { o with name, updatedAt })
  | projectArchived (p : Project) (archived : Bool) :
      Administering .projects (some p) (some { p with archived })
  | issueArchived (x : Issue) (archivedAt updatedAt : Instant) :
      Administering .issues (some x)
        (some { x with archivedAt := some archivedAt, updatedAt })
  | labelDeleted (x : Label) : Administering .labels (some x) none
  | commentDeleted (x : Comment) : Administering .comments (some x) none
  | invited (r : Invitation) (hinviter : r.inviterId = u.id)
      (hunaccepted : r.acceptedAt = none) :
      Administering .invitations none (some r)
  | revoked (r : Invitation) (time : Instant) :
      Administering .invitations (some r)
        (some { r with revokedAt := some time })
  | removed (m : Membership) (hrole : m.role ≠ .owner) :
      Administering .memberships (some m) none
  | audited (event : AuditEvent)
      (hevent : Records u ["organization.updated", "project.archived",
        "project.unarchived", "membership.removed", "invitation.created",
        "invitation.revoked"] event) :
      Administering .auditEvents none (some event)

/-- What comes with the role of an owner. -/
inductive Governing :
    (t : Table) → Option (Row t) → Option (Row t) → Prop where
  | roleChanged (m : Membership) (role : Role) :
      Governing .memberships (some m) (some { m with role })
  | ownerRemoved (m : Membership) : Governing .memberships (some m) none
  | audited (event : AuditEvent)
      (hevent : Records u ["membership.role_changed"] event) :
      Governing .auditEvents none (some event)

/-- The changes of a row that are bounded by the role of `u` in `O`. -/
def Bounded (role : Option Role) (t : Table) (r r' : Option (Row t)) : Prop :=
  match role with
  | none => Accepting s u O t r r'
  | some .viewer => Accepting s u O t r r' ∨ Authoring u t r r'
  | some .member => Accepting s u O t r r' ∨ Authoring u t r r' ∨
      Contributing u t r r'
  | some .admin => Accepting s u O t r r' ∨ Authoring u t r r' ∨
      Contributing u t r r' ∨ Administering u t r r'
  | some .owner => Accepting s u O t r r' ∨ Authoring u t r r' ∨
      Contributing u t r r' ∨ Administering u t r r' ∨ Governing u t r r'

end Bounds

section Roles

variable {s : Db} {u : User} {O : Uuid} {t : Table} {r r' : Option (Row t)}
  {role : Role}

/-- The user has one of `roles`. -/
abbrev HasRole (s : Db) (u : User) (O : Uuid) (roles : List Role)
    (role : Role) : Prop :=
  roleOf s O u.id = some role ∧ role ∈ roles

theorem bounded_of_accepting (h : Accepting s u O t r r') :
    Bounded s u O (roleOf s O u.id) t r r' := by
  rcases roleOf s O u.id with _ | _ | _ | _ | _ <;> simp [Bounded, h]

theorem bounded_of_authoring (hrole : HasRole s u O everyone role)
    (h : Authoring u t r r') : Bounded s u O (roleOf s O u.id) t r r' := by
  rw [hrole.1]
  cases role <;> simp [Bounded, h]

theorem bounded_of_contributing (hrole : HasRole s u O Issues.writers role)
    (h : Contributing u t r r') : Bounded s u O (roleOf s O u.id) t r r' := by
  obtain ⟨hu, hmem⟩ := hrole
  rw [hu]
  cases role <;> simp [Bounded, h] at hmem ⊢

theorem bounded_of_administering
    (hrole : HasRole s u O [.owner, .admin] role)
    (h : Administering u t r r') : Bounded s u O (roleOf s O u.id) t r r' := by
  obtain ⟨hu, hmem⟩ := hrole
  rw [hu]
  cases role <;> simp [Bounded, h] at hmem ⊢

theorem bounded_of_governing (hrole : HasRole s u O [.owner] role)
    (h : Governing u t r r') : Bounded s u O (roleOf s O u.id) t r r' := by
  obtain ⟨hu, hmem⟩ := hrole
  rw [hu]
  cases role <;> simp [Bounded, h] at hmem ⊢

end Roles

/-! ## Writes -/

/-- What the request writes on a store with which it starts. -/
abbrev Now (c : Commit schema) : List schema.Ref → Db → Prop :=
  fun _ db => db = c.before

/-- A write is bounded in the organization to which its row belongs, before or
after it. -/
def Judged (c : Commit schema) (u : User) : Write schema → Prop
  | .put t r => ∀ O, Registered c.before O →
      (Owned c.after O t r ∨ ∃ x, (c.before t).lookup (primaryKey t r) =
        some x ∧ Owned c.before O t x) →
      Bounded c.before u O (roleOf c.before O u.id) t
        ((c.before t).lookup (primaryKey t r)) (some r)
  | .del t k => ∀ O x, (c.before t).lookup k = some x →
      Owned c.before O t x →
      Bounded c.before u O (roleOf c.before O u.id) t (some x) none

section Judged

variable {c : Commit schema} {u : User} {O : Uuid} {t : Table}

theorem Owned.organization {db : Db} {r : Row t} (h : Owned db O t r)
    (ht : t ≠ .issueLabels) : organizationOf t r = some O := by
  cases t with
  | issueLabels => exact absurd rfl ht
  | notifications => exact h.elim
  | _ => exact h

theorem judged_new {r : Row t} (ht : t ≠ .issueLabels)
    (horganization : organizationOf t r = some O)
    (hnew : (c.before t).lookup (primaryKey t r) = none)
    (h : Bounded c.before u O (roleOf c.before O u.id) t none (some r)) :
    Judged c u (.put t r) := by
  intro O' _ howned
  rw [hnew] at howned ⊢
  rcases howned with howned | ⟨x, hx, _⟩
  · have hO := howned.organization ht
    rw [horganization] at hO
    obtain rfl := Option.some.inj hO
    exact h
  · cases hx

theorem judged_row {r r' : Row t} (ht : t ≠ .issueLabels)
    (hrow : (c.before t).lookup (primaryKey t r') = some r)
    (horganization : organizationOf t r = some O)
    (hsame : organizationOf t r' = organizationOf t r)
    (h : Bounded c.before u O (roleOf c.before O u.id) t (some r)
      (some r')) : Judged c u (.put t r') := by
  intro O' _ howned
  rw [hrow] at howned ⊢
  have hO : organizationOf t r = some O' := by
    rcases howned with howned | ⟨x, hx, howned⟩
    · rw [← hsame]
      exact howned.organization ht
    · obtain rfl := Option.some.inj hx
      exact howned.organization ht
  rw [horganization] at hO
  obtain rfl := Option.some.inj hO
  exact h

theorem judged_gone {r : Row t} {k : Key} (ht : t ≠ .issueLabels)
    (hrow : (c.before t).lookup k = some r)
    (horganization : organizationOf t r = some O)
    (h : Bounded c.before u O (roleOf c.before O u.id) t (some r) none) :
    Judged c u (.del t k) := by
  intro O' x hx howned
  rw [hrow] at hx
  obtain rfl := Option.some.inj hx
  have hO := howned.organization ht
  rw [horganization] at hO
  obtain rfl := Option.some.inj hO
  exact h

/-- A row that belongs to nobody. -/
theorem judged_aside {r : Row t} (h : ∀ db O x, ¬ Owned db O t x) :
    Judged c u (.put t r) := by
  intro O _ howned
  rcases howned with howned | ⟨x, _, howned⟩
  · exact absurd howned (h _ _ _)
  · exact absurd howned (h _ _ _)

theorem role_of_permitted {roles : List Role} {m : Membership}
    (h : Permitted (Now c) O u.id roles m) :
    HasRole c.before u O roles m.role := by
  obtain ⟨hrole, db, rfl, hm⟩ := h
  exact ⟨roleOf_eq hm, hrole⟩

theorem role_of_checked {roles : List Role} {m : Membership}
    (h : Checked (Now c) c O u.id roles m) :
    HasRole c.before u O roles m.role := by
  obtain ⟨hrole, db, _, rfl, hm⟩ := h
  exact ⟨roleOf_eq hm, hrole⟩

theorem judged_audited {action entityType : String} {entityId : Uuid}
    {metadata : Metadata} {event : AuditEvent}
    (haudit : Audited c.before u.id O action entityType entityId metadata
      event)
    (h : Records u [action] event → event.entityId = some entityId →
      Bounded c.before u O (roleOf c.before O u.id) .auditEvents none
        (some event)) : Judged c u (.put .auditEvents event) := by
  refine judged_new (by decide) haudit.organization haudit.new ?_
  refine h ⟨haudit.actor, ?_⟩ haudit.entity
  rw [haudit.action]
  exact List.mem_singleton_self action

theorem Records.of_mem {action : String} {actions : List String}
    {event : AuditEvent} (h : Records u [action] event)
    (hmem : action ∈ actions) : Records u actions event := by
  obtain ⟨hactor, haction⟩ := h
  refine ⟨hactor, ?_⟩
  rw [List.mem_singleton.mp haction]
  exact hmem

theorem judged_contributed {action entityType : String} {entityId : Uuid}
    {metadata : Metadata} {event : AuditEvent} {role : Role}
    (hrole : HasRole c.before u O Issues.writers role)
    (haudit : Audited c.before u.id O action entityType entityId metadata
      event)
    (hmem : action ∈ ["project.created", "issue.created",
      "issue.status_changed", "issue.assigned"]) :
    Judged c u (.put .auditEvents event) := by
  refine judged_audited haudit fun hevent _ => ?_
  exact bounded_of_contributing hrole (.audited event (hevent.of_mem hmem))

theorem judged_administered {action entityType : String} {entityId : Uuid}
    {metadata : Metadata} {event : AuditEvent} {role : Role}
    (hrole : HasRole c.before u O [.owner, .admin] role)
    (haudit : Audited c.before u.id O action entityType entityId metadata
      event)
    (hmem : action ∈ ["organization.updated", "project.archived",
      "project.unarchived", "membership.removed", "invitation.created",
      "invitation.revoked"]) :
    Judged c u (.put .auditEvents event) := by
  refine judged_audited haudit fun hevent _ => ?_
  exact bounded_of_administering hrole (.audited event (hevent.of_mem hmem))

/-- A row of an organization that was not there before. -/
theorem judged_unregistered {r : Row t} (ht : t ≠ .issueLabels)
    (horganization : organizationOf t r = some O)
    (hO : (c.before .organizations).lookup (.id O) = none)
    (hnew : (c.before t).lookup (primaryKey t r) = none) :
    Judged c u (.put t r) := by
  intro O' hregistered howned
  rw [hnew] at howned
  rcases howned with howned | ⟨x, hx, _⟩
  · have hsame := howned.organization ht
    rw [horganization] at hsame
    obtain rfl := Option.some.inj hsame
    obtain ⟨o, ho⟩ := hregistered
    rw [hO] at ho
    cases ho
  · cases hx

end Judged

section Organizations

variable {H : TokenHash} {c : Commit schema}

theorem judged_membership {O k : Uuid} {u : User} {r : Membership}
    {role : Role}
    (hrow : (c.before .memberships).lookup (membershipKey O k) = some r)
    (h : Bounded c.before u O (roleOf c.before O u.id) .memberships (some r)
      (some { r with role })) : Judged c u (.put .memberships { r with role }) := by
  have hkey : Key.pair r.organizationId r.userId = .pair O k :=
    Relation.key_of_lookup hrow
  obtain ⟨hO, -⟩ := Key.pair.inj hkey
  refine judged_row (by decide) ?_ (congrArg some hO) rfl h
  change (c.before .memberships).lookup (.pair r.organizationId r.userId) = _
  rw [hkey]
  exact hrow

theorem judged_invitation {O : Uuid} {u : User} {r v : Invitation}
    (hrow : (c.before .invitations).lookup (.id r.id) = some r)
    (hid : v.id = r.id) (hsame : v.organizationId = r.organizationId)
    (horganization : r.organizationId = O)
    (h : Bounded c.before u O (roleOf c.before O u.id) .invitations (some r)
      (some v)) : Judged c u (.put .invitations v) := by
  refine judged_row (by decide) ?_ (congrArg some horganization)
    (congrArg some hsame) h
  change (c.before .invitations).lookup (.id v.id) = some r
  rw [hid]
  exact hrow

theorem judged_organizations {request : Organizations.Request}
    (h : Organizations.Effects H (Now c) request c) :
    ∀ w ∈ c.session.writes,
      Judged c (Request.user (.organization request)) w := by
  cases h with
  | created org event _ _ hnew hmember haudit hwrites =>
      simp only [hwrites, List.forall_mem_cons, List.not_mem_nil,
        false_implies, implies_true, and_true]
      refine ⟨judged_unregistered (by decide) rfl hnew hnew,
        judged_unregistered (by decide) rfl hnew hmember,
        judged_unregistered (by decide) haudit.organization hnew haudit.new⟩
  | roleKept am m event hchecked _ _ haudit hwrites =>
      have hrole := role_of_checked hchecked
      rw [hwrites]
      intro w hw
      rw [List.mem_singleton.mp hw]
      refine judged_audited haudit fun hevent _ => ?_
      exact bounded_of_governing hrole (.audited event hevent)
  | roleChanged am m r event hchecked _ _ hrow haudit hwrites =>
      have hrole := role_of_checked hchecked
      rw [hwrites]
      intro w hw
      rcases List.mem_pair.mp hw with rfl | rfl
      · refine judged_membership hrow ?_
        exact bounded_of_governing hrole (.roleChanged r _)
      · refine judged_audited haudit fun hevent _ => ?_
        exact bounded_of_governing hrole (.audited event hevent)
  | @removed O k actor _ am m event hchecked hfound hallowed _ haudit hwrites =>
      have hrole := role_of_checked hchecked
      have hm : (c.before .memberships).lookup (membershipKey O k) =
          some m := by
        obtain ⟨_, _, hfound⟩ := hfound
        by_cases hk : k = actor.id
        · rw [if_pos hk] at hfound
          obtain ⟨_, _, _, rfl, ham⟩ := hchecked
          rw [hk, hfound]
          exact ham
        · rw [if_neg hk] at hfound
          obtain ⟨_, rfl, hm⟩ := hfound
          exact hm
      have hkey : Key.pair m.organizationId m.userId = .pair O k :=
        Relation.key_of_lookup hm
      obtain ⟨hO, -⟩ := Key.pair.inj hkey
      rw [hwrites]
      intro w hw
      rcases List.mem_pair.mp hw with rfl | rfl
      · exact judged_administered hrole haudit (by simp)
      · refine judged_gone (by decide) hm (congrArg some hO) ?_
        by_cases hadmin : am.role = .admin
        · exact bounded_of_administering hrole (.removed m (hallowed hadmin))
        · have howner : am.role ∈ [Role.owner] := by
            simpa [hadmin] using hrole.2
          exact bounded_of_governing ⟨hrole.1, howner⟩ (.ownerRemoved m)
  | unremoved am m event db hchecked _ _ _ _ haudit hwrites =>
      have hrole := role_of_checked hchecked
      rw [hwrites]
      intro w hw
      rw [List.mem_singleton.mp hw]
      exact judged_administered hrole haudit (by simp)
  | invited am id eventId raw time occurredAt event hchecked _ hnew _ haudit
      hwrites =>
      have hrole := role_of_checked hchecked
      rw [hwrites]
      intro w hw
      rcases List.mem_cons.mp hw with rfl | hw
      · refine judged_new (by decide) rfl hnew ?_
        exact bounded_of_administering hrole (.invited _ rfl rfl)
      rcases List.mem_pair.mp hw with rfl | rfl
      · exact judged_administered hrole haudit (by simp)
      · refine judged_aside fun db O x howned => ?_
        cases howned
  | revoked am r time event hchecked hrow horganization haudit hwrites =>
      have hrole := role_of_checked hchecked
      obtain rfl : r.id = _ := Key.id.inj (Relation.key_of_lookup hrow)
      rw [hwrites]
      intro w hw
      rcases List.mem_pair.mp hw with rfl | rfl
      · refine judged_invitation hrow rfl rfl horganization ?_
        exact bounded_of_administering hrole (.revoked r time)
      · exact judged_administered hrole haudit (by simp)
  | @accepted actor body _ r time ws event _ hrow _ hemail hopen hvalid hexpires
      hjoins haudit hwrites =>
      have hinvited : Invited c.before actor r.organizationId r :=
        ⟨hrow, rfl, hemail, hopen, hvalid⟩
      have hmark := judged_invitation (v := { r with acceptedAt := some time })
        hrow rfl rfl rfl
        (bounded_of_accepting (.marked r time hinvited hexpires))
      have hevent := judged_audited haudit fun hevent hentity =>
        bounded_of_accepting (.audited r event hinvited hentity hevent)
      cases hjoins with
      | member hnone =>
          simp only [hwrites, List.cons_append, List.nil_append,
            List.forall_mem_cons, List.not_mem_nil, false_implies,
            implies_true, and_true]
          have hrole : roleOf c.before r.organizationId actor.id = none := by
            rw [roleOf, hnone]
            rfl
          refine ⟨judged_new (by decide) rfl hnone ?_, hmark, hevent⟩
          exact bounded_of_accepting (.joined r hinvited hrole)
      | already db m _ _ =>
          simpa [hwrites] using ⟨hmark, hevent⟩

theorem judged_renames {O : Uuid} {user : User}
    {body : Organizations.OrganizationUpdate}
    (h : Organizations.Renames (Now c) c O user body) :
    ∀ w ∈ c.session.writes, Judged c user w := by
  cases h with
  | kept m org event hpermitted _ _ haudit hwrites =>
      have hrole := role_of_permitted hpermitted
      rw [hwrites]
      intro w hw
      rw [List.mem_singleton.mp hw]
      exact judged_administered hrole haudit (by simp)
  | renamed m org r time event hpermitted _ _ hrow haudit hwrites =>
      have hrole := role_of_permitted hpermitted
      obtain rfl : r.id = O := Key.id.inj (Relation.key_of_lookup hrow)
      rw [hwrites]
      intro w hw
      rcases List.mem_pair.mp hw with rfl | rfl
      · refine judged_row (by decide) hrow rfl rfl ?_
        exact bounded_of_administering hrole (.renamed r _ time)
      · exact judged_administered hrole haudit (by simp)

end Organizations

section Issues

variable {c : Commit schema} {u : User} {O : Uuid}

theorem organization_of_project {k : Uuid} {project r : Project}
    (h : Issues.GotProject (Now c) O k project)
    (hrow : (c.before .projects).lookup (.id k) = some r) :
    r.organizationId = O := by
  obtain ⟨horganization, db, rfl, hread⟩ := h
  rw [hrow] at hread
  obtain rfl := Option.some.inj hread
  exact horganization

theorem organization_of_issue {i : Uuid} {db : Db} {x r : Issue}
    (h : Issues.Got (Now c) c O i db x)
    (hrow : (c.before .issues).lookup (.id i) = some r) :
    r.organizationId = O := by
  have hread := h.row
  rw [h.past, hrow] at hread
  obtain rfl := Option.some.inj hread
  exact h.organization

theorem judged_project {k : Uuid} {r r' : Project}
    (hrow : (c.before .projects).lookup (.id k) = some r)
    (horganization : r.organizationId = O) (hid : r'.id = r.id)
    (hsame : r'.organizationId = r.organizationId)
    (h : Bounded c.before u O (roleOf c.before O u.id) .projects (some r)
      (some r')) : Judged c u (.put .projects r') := by
  have hk : r.id = k := Key.id.inj (Relation.key_of_lookup hrow)
  refine judged_row (by decide) ?_ (congrArg some horganization)
    (congrArg some hsame) h
  change (c.before .projects).lookup (.id r'.id) = some r
  rw [hid, hk]
  exact hrow

theorem judged_issue {i : Uuid} {r r' : Issue}
    (hrow : (c.before .issues).lookup (.id i) = some r)
    (horganization : r.organizationId = O) (hid : r'.id = r.id)
    (hsame : r'.organizationId = r.organizationId)
    (h : Bounded c.before u O (roleOf c.before O u.id) .issues (some r)
      (some r')) : Judged c u (.put .issues r') := by
  have hi : r.id = i := Key.id.inj (Relation.key_of_lookup hrow)
  refine judged_row (by decide) ?_ (congrArg some horganization)
    (congrArg some hsame) h
  change (c.before .issues).lookup (.id r'.id) = some r
  rw [hid, hi]
  exact hrow

theorem judged_notified {i : Uuid} {actor : User} {assigneeId : Option Uuid}
    {ws : List (Write schema)} {db : Db}
    (h : Issues.Notified db O i actor assigneeId ws) :
    ∀ w ∈ ws, Judged c u w := by
  intro w hw
  cases h with
  | nobody => cases hw
  | actor => cases hw
  | assignee userId id createdAt _ _ =>
      rw [List.mem_singleton.mp hw]
      exact judged_aside fun db O x howned => howned

theorem judged_issues {request : Issues.Request}
    (h : Issues.Transacts (Now c) request c) :
    ∀ w ∈ c.session.writes, Judged c (Request.user (.issue request)) w := by
  cases h with
  | projectCreated m id createdAt event hpermitted hnew haudit hwrites =>
      have hrole := role_of_permitted hpermitted
      rw [hwrites]
      intro w hw
      rcases List.mem_pair.mp hw with rfl | rfl
      · refine judged_new (by decide) rfl hnew ?_
        exact bounded_of_contributing hrole (.project _ rfl)
      · exact judged_contributed hrole haudit (by simp)
  | projectKept m project _ _ _ hwrites => simp [hwrites]
  | projectChanged m project r r' hpermitted hproject hrow hvalues hwrites =>
      have hrole := role_of_permitted hpermitted
      have horganization := organization_of_project hproject hrow
      obtain ⟨name, description, rfl⟩ :=
        Projects.ProjectUpdate.apply_cases hvalues
      rw [hwrites]
      intro w hw
      rw [List.mem_singleton.mp hw]
      refine judged_project hrow horganization rfl rfl ?_
      exact bounded_of_contributing hrole (.projectEdited r name description)
  | @archivedKept _ _ _ archived _ m project event hpermitted _ _ haudit
      hwrites =>
      have hrole := role_of_permitted hpermitted
      rw [hwrites]
      intro w hw
      rw [List.mem_singleton.mp hw]
      exact judged_administered hrole haudit (by cases archived <;> simp)
  | @archivedChanged _ _ _ archived _ m project r event hpermitted hproject _
      hrow haudit hwrites =>
      have hrole := role_of_permitted hpermitted
      have horganization := organization_of_project hproject hrow
      rw [hwrites]
      intro w hw
      rcases List.mem_pair.mp hw with rfl | rfl
      · refine judged_project hrow horganization rfl rfl ?_
        exact bounded_of_administering hrole (.projectArchived r archived)
      · exact judged_administered hrole haudit (by cases archived <;> simp)
  | issueCreated m project r id createdAt updatedAt event ws hpermitted
      hproject _ _ hrow hnew haudit hnotified hwrites =>
      have hrole := role_of_permitted hpermitted
      have horganization := organization_of_project hproject hrow
      rw [hwrites]
      intro w hw
      rcases List.mem_cons.mp hw with rfl | hw
      · refine judged_project hrow horganization rfl rfl ?_
        exact bounded_of_contributing hrole (.numbered r)
      rcases List.mem_cons.mp hw with rfl | hw
      · refine judged_new (by decide) rfl hnew ?_
        exact bounded_of_contributing hrole (.issue _ rfl rfl)
      rcases List.mem_cons.mp hw with rfl | hw
      · exact judged_contributed hrole haudit (by simp)
      · exact judged_notified hnotified w hw
  | updated m db x r v time hpermitted _ hexpected hvalues hwrites =>
      have hrole := role_of_permitted hpermitted
      obtain ⟨title, description, priority, dueDate, rfl⟩ :=
        Issues.IssueUpdate.apply_cases hvalues
      rw [hwrites]
      intro w hw
      rw [List.mem_singleton.mp hw]
      refine judged_issue hexpected.row hexpected.organization rfl rfl ?_
      exact bounded_of_contributing hrole (.issueEdited r title description
        priority dueDate r.status r.assigneeId time)
  | statusChanged m db x r time event hpermitted _ _ _ hexpected haudit
      hwrites =>
      have hrole := role_of_permitted hpermitted
      rw [hwrites]
      intro w hw
      rcases List.mem_pair.mp hw with rfl | rfl
      · refine judged_issue hexpected.row hexpected.organization rfl rfl ?_
        exact bounded_of_contributing hrole (.issueEdited r r.title
          r.description r.priority r.dueDate _ r.assigneeId time)
      · exact judged_contributed hrole haudit (by simp)
  | assigned m db x r time event ws hpermitted _ _ hexpected haudit hnotified
      hwrites =>
      have hrole := role_of_permitted hpermitted
      rw [hwrites]
      intro w hw
      rcases List.mem_cons.mp hw with rfl | hw
      · refine judged_issue hexpected.row hexpected.organization rfl rfl ?_
        exact bounded_of_contributing hrole (.issueEdited r r.title
          r.description r.priority r.dueDate r.status _ time)
      rcases List.mem_cons.mp hw with rfl | hw
      · exact judged_contributed hrole haudit (by simp)
      · exact judged_notified hnotified w hw
  | archived m db x r archivedAt updatedAt hpermitted hgot _ hrow hwrites =>
      have hrole := role_of_permitted hpermitted
      have horganization := organization_of_issue hgot hrow
      rw [hwrites]
      intro w hw
      rw [List.mem_singleton.mp hw]
      refine judged_issue hrow horganization rfl rfl ?_
      exact bounded_of_administering hrole
        (.issueArchived r archivedAt updatedAt)

end Issues

section Labels

variable {c : Commit schema} {u : User} {O : Uuid}

theorem organization_of_label {k : Uuid} {label r : Label}
    (h : Labels.GotLabel (Now c) O k label)
    (hrow : (c.before .labels).lookup (.id k) = some r) :
    r.organizationId = O := by
  obtain ⟨horganization, db, rfl, hread⟩ := h
  rw [hrow] at hread
  obtain rfl := Option.some.inj hread
  exact horganization

/-- A link belongs where its issue does. -/
theorem judged_link {x : IssueLabel} {y : Issue}
    (hnew : (c.before .issueLabels).lookup (Labels.linkKey x.issueId x.labelId)
      = none)
    (hissue : (c.after .issues).lookup (.id x.issueId) = some y)
    (horganization : y.organizationId = O)
    (h : Bounded c.before u O (roleOf c.before O u.id) .issueLabels none
      (some x)) : Judged c u (.put .issueLabels x) := by
  intro O' _ howned
  have hprimary : (c.before .issueLabels).lookup
      (primaryKey .issueLabels x) = none := hnew
  rw [hprimary] at howned ⊢
  rcases howned with ⟨y', hy', hO⟩ | ⟨x', hx', _⟩
  · rw [hissue] at hy'
    obtain rfl := Option.some.inj hy'
    rw [← hO, horganization]
    exact h
  · cases hx'

theorem judged_unlink {i k : Uuid}
    (horganization : ∀ (x : IssueLabel) (y : Issue),
      (c.before .issueLabels).lookup (Labels.linkKey i k) = some x →
      (c.before .issues).lookup (.id x.issueId) = some y →
      y.organizationId = O)
    (h : ∀ x, Bounded c.before u O (roleOf c.before O u.id) .issueLabels
      (some x) none) :
    Judged c u (.del .issueLabels (Labels.linkKey i k)) := by
  rintro O' x hx ⟨y, hy, hO⟩
  rw [← hO, horganization x y hx hy]
  exact h x

theorem judged_labels {request : Labels.Request} (htenancy : Tenancy c.before)
    (h : Labels.Transacts (Now c) request c) :
    ∀ w ∈ c.session.writes, Judged c (Request.user (.label request)) w := by
  cases h with
  | created m id hpermitted _ hnew hwrites =>
      have hrole := role_of_permitted hpermitted
      rw [hwrites]
      intro w hw
      rw [List.mem_singleton.mp hw]
      refine judged_new (by decide) rfl hnew ?_
      exact bounded_of_contributing hrole (.label _)
  | @updated O k user body _ m label r hpermitted hlabel _ hrow hwrites =>
      have hrole := role_of_permitted hpermitted
      have horganization := organization_of_label hlabel hrow
      have hid : r.id = k := Key.id.inj (Relation.key_of_lookup hrow)
      rw [hwrites]
      intro w hw
      rw [List.mem_singleton.mp hw]
      refine judged_row (r := r) (by decide) ?_ (congrArg some horganization)
        rfl ?_
      · change (c.before .labels).lookup (.id r.id) = some r
        rw [hid]
        exact hrow
      · exact bounded_of_contributing hrole (.labelEdited r _ _)
  | @deleted O k user _ m label r ws hpermitted hlabel _ hrow hunlinks
      hwrites =>
      have hrole := role_of_permitted hpermitted
      have horganization := organization_of_label hlabel hrow
      rw [hwrites]
      intro w hw
      rcases List.mem_cons.mp hw with rfl | hw
      · refine judged_gone (by decide) hrow (congrArg some horganization) ?_
        exact bounded_of_administering hrole (.labelDeleted r)
      · obtain ⟨i, rfl⟩ := hunlinks.links w hw
        refine judged_unlink (O := O) (fun x y hx hy => ?_) fun x => ?_
        · obtain ⟨y', z, hy', hz, hsame⟩ :=
            htenancy.links x (Relation.mem_of_lookup hx)
          rw [hy] at hy'
          obtain rfl := Option.some.inj hy'
          rw [Labels.labelId_of_linkKey hx, hrow] at hz
          obtain rfl := Option.some.inj hz
          exact hsame.trans horganization
        · have hwriter : m.role ∈ Issues.writers := by
            have hadmin := hrole.2
            simp only [List.mem_cons, List.not_mem_nil, or_false] at hadmin ⊢
            rcases hadmin with h | h <;> simp [h]
          exact bounded_of_contributing ⟨hrole.1, hwriter⟩ (.unlinked x)
  | attached m db x label r hpermitted hgot _ _ _ hnew hwrites =>
      have hrole := role_of_permitted hpermitted
      have hissue := hgot.row
      rw [hgot.past, ← lookup_after_of_writes (by simp [hwrites, Write.ref])]
        at hissue
      rw [hwrites]
      intro w hw
      rw [List.mem_singleton.mp hw]
      refine judged_link hnew hissue hgot.organization ?_
      exact bounded_of_contributing hrole (.linked _)
  | @detached O i k user _ m db x label hpermitted hgot _ _ hwrites =>
      have hrole := role_of_permitted hpermitted
      have hissue := hgot.row
      rw [hgot.past] at hissue
      rw [hwrites]
      intro w hw
      rw [List.mem_singleton.mp hw]
      refine judged_unlink (O := O) (fun z y hz hy => ?_) fun z => ?_
      · have hkey : Key.pair z.issueId z.labelId = .pair i k :=
          Relation.key_of_lookup hz
        rw [(Key.pair.inj hkey).1, hissue] at hy
        obtain rfl := Option.some.inj hy
        exact hgot.organization
      · exact bounded_of_contributing hrole (.unlinked z)
  | kept _ _ _ _ _ hwrites => simp [hwrites]
  | missed _ _ _ _ _ _ _ hwrites => simp [hwrites]
  | attachedBefore _ _ _ _ _ _ _ _ _ _ hwrites => simp [hwrites]
  | detachedBefore _ _ _ _ _ _ _ _ _ _ hwrites => simp [hwrites]

end Labels

section Comments

variable {c : Commit schema} {O : Uuid}

theorem row_of_comment {k : Uuid} {row r : Comment}
    (h : Comments.GotComment (Now c) O k row)
    (hrow : (c.before .comments).lookup (.id k) = some r) :
    row = r ∧ r.organizationId = O := by
  obtain ⟨horganization, db, rfl, hread⟩ := h
  rw [hrow] at hread
  obtain rfl := Option.some.inj hread
  exact ⟨rfl, horganization⟩

theorem judged_comments {request : Comments.Request}
    (h : Comments.Transacts (Now c) request c) :
    ∀ w ∈ c.session.writes, Judged c (Request.user (.comment request)) w := by
  cases h with
  | created m db x id createdAt hpermitted _ hnew hwrites =>
      have hrole := role_of_permitted hpermitted
      rw [hwrites]
      intro w hw
      rw [List.mem_singleton.mp hw]
      refine judged_new (by decide) rfl hnew ?_
      exact bounded_of_contributing hrole (.commented _ rfl)
  | @updated O k user body _ m row r time hpermitted hgot hauthor hrow
      hwrites =>
      have hrole := role_of_permitted hpermitted
      obtain ⟨rfl, horganization⟩ := row_of_comment hgot hrow
      have hid : row.id = k := Key.id.inj (Relation.key_of_lookup hrow)
      rw [hwrites]
      intro w hw
      rw [List.mem_singleton.mp hw]
      refine judged_row (r := row) (by decide) ?_
        (congrArg some horganization) rfl ?_
      · change (c.before .comments).lookup (.id row.id) = some row
        rw [hid]
        exact hrow
      · exact bounded_of_authoring hrole (.edited row _ time hauthor)
  | deleted m row r hpermitted hgot hallowed hrow hwrites =>
      have hrole := role_of_permitted hpermitted
      obtain ⟨rfl, horganization⟩ := row_of_comment hgot hrow
      rw [hwrites]
      intro w hw
      rw [List.mem_singleton.mp hw]
      refine judged_gone (by decide) hrow (congrArg some horganization) ?_
      rcases hallowed with hauthor | hadmin
      · exact bounded_of_authoring hrole (.deleted row hauthor)
      · refine bounded_of_administering ⟨hrole.1, ?_⟩ (.commentDeleted row)
        simpa using hadmin
  | missed _ _ _ _ _ _ _ hwrites => simp [hwrites]

end Comments

theorem judged_transacts {H : TokenHash} {c : Commit schema}
    {request : Request} (htenancy : Tenancy c.before)
    (h : Transacts H (Now c) c request) :
    ∀ w ∈ c.session.writes, Judged c request.user w := by
  cases h with
  | organization request h => exact judged_organizations h
  | rename O user body h => exact judged_renames h
  | issue request h => exact judged_issues h
  | label request h => exact judged_labels htenancy h
  | comment request h => exact judged_comments h

/-! ## Requests -/

/-- The row at `k` belongs to organization `O`. -/
def OwnedAt (db : Db) (O : Uuid) (t : Table) (k : Key) : Prop :=
  ∃ r, (db t).lookup k = some r ∧ Owned db O t r

theorem bounded_after {c : Commit schema} {u : User} {O : Uuid}
    (h : ∀ w ∈ c.session.writes, Judged c u w) (hO : Registered c.before O)
    {t : Table} {k : Key}
    (howned : OwnedAt c.before O t k ∨ OwnedAt c.after O t k) :
    (c.after t).lookup k = (c.before t).lookup k ∨
      Bounded c.before u O (roleOf c.before O u.id) t
        ((c.before t).lookup k) ((c.after t).lookup k) := by
  rcases hafter : (c.after t).lookup k with _ | r'
  · rcases after_none hafter with hbefore | hdel
    · exact Or.inl hbefore.symm
    · rcases howned with ⟨x, hx, howned⟩ | ⟨x, hx, _⟩
      · rw [hx]
        exact Or.inr (h _ hdel O x hx howned)
      · rw [hafter] at hx
        cases hx
  · rcases after_cases hafter with hbefore | hput
    · exact Or.inl hbefore.symm
    · have hkey : primaryKey t r' = k := Relation.key_of_lookup hafter
      have hjudged := h _ hput O hO
      rw [hkey] at hjudged
      refine Or.inr (hjudged ?_)
      rcases howned with ⟨x, hx, howned⟩ | ⟨x, hx, howned⟩
      · exact Or.inr ⟨x, hx, howned⟩
      · rw [hafter] at hx
        obtain rfl := Option.some.inj hx
        exact Or.inl howned

/-- The rows of an organization that a request changes are bounded by the
role that its user has there. -/
theorem writes_bounded {H : TokenHash} {requests : Pid → Request} {s₀ : Db}
    {w : World schema AppError Response} (hs₀ : Vacant s₀)
    (hreach : Reachable (clients H requests s₀) w) {request : Request}
    {s' : Db} (hcompletes : Completes w.store (serve H request) s')
    {O : Uuid} (hO : Registered w.store O) {t : Table} {k : Key}
    (howned : OwnedAt w.store O t k ∨ OwnedAt s' O t k) :
    (s' t).lookup k = (w.store t).lookup k ∨
      Bounded w.store request.user O (roleOf w.store O request.user.id) t
        ((w.store t).lookup k) ((s' t).lookup k) := by
  have htenancy := (organizations_apart hs₀ hreach).1
  rcases hcompletes.cases (fun C p u hallows hinv =>
    requests_serve (H := H) hallows hinv) with rfl | ⟨c, h, hbefore, rfl⟩
  · exact Or.inl rfl
  · rw [← hbefore] at htenancy hO howned h ⊢
    exact bounded_after (judged_transacts htenancy h) hO howned

theorem vacant_team : Vacant Organizations.oneOwner where
  projects := rfl
  issues := rfl
  labels := rfl
  issueLabels := rfl
  comments := rfl
  notifications := rfl

/-- Bob adds a label to his organization. -/
def labelRequest : Request :=
  .label (.create 10 bob { name := "Bug", color := "#112233" })

def labelSteps : List (Input schema) := [.go, .value 70, .go, .go]

theorem writes_bounded_label :
    let s' := outcome Organizations.oneOwner (serve plainHash labelRequest)
      labelSteps
    (s' .labels).lookup (.id 70) ≠
        (Organizations.oneOwner .labels).lookup (.id 70) ∧
      Bounded Organizations.oneOwner bob 10
        (roleOf Organizations.oneOwner 10 bob.id) .labels
        ((Organizations.oneOwner .labels).lookup (.id 70))
        ((s' .labels).lookup (.id 70)) := by
  have hrun : ((solo Organizations.oneOwner
      (serve plainHash labelRequest)).run
        (labelSteps.map fun x => (0, x))).any stopped = true := by
    decide +kernel
  have hlook : (outcome Organizations.oneOwner
      (serve plainHash labelRequest) labelSteps .labels).lookup (.id 70) =
        some { id := 70, organizationId := 10, name := "Bug"
               color := "#112233" } := by
    decide +kernel
  have hO : Registered Organizations.oneOwner 10 := ⟨_, rfl⟩
  have hother : (outcome Organizations.oneOwner
      (serve plainHash labelRequest) labelSteps .labels).lookup (.id 70) ≠
        (Organizations.oneOwner .labels).lookup (.id 70) := by
    rw [hlook]
    exact Option.some_ne_none _
  refine ⟨hother, ?_⟩
  have hstart : Reachable (clients plainHash (fun _ => labelRequest)
      Organizations.oneOwner) _ := .start
  have hbounded := writes_bounded vacant_team hstart (completes_outcome hrun)
    hO (.inr ⟨_, hlook, rfl⟩)
  exact hbounded.resolve_left hother

end Workstream.Tracker
