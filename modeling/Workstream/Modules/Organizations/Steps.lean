import Workstream.Modules.Organizations.Commits

/-!
# What a commit does to one membership and to one invitation
-/

namespace Workstream.Organizations

open ReadCommitted Contract World

/-- The membership of `u` in `O`. -/
def member (O u : Uuid) (db : Db) : Option Membership :=
  (db .memberships).lookup (membershipKey O u)

/-- The invitation with identifier `i`. -/
def invitation (i : Uuid) (db : Db) : Option Invitation :=
  (db .invitations).lookup (.id i)

/-- The role of user `u` in organization `O`. -/
def roleOf (db : Db) (O u : Uuid) : Option Role :=
  ((db .memberships).lookup (membershipKey O u)).map Membership.role

theorem roleOf_eq {db : Db} {O u : Uuid} {m : Membership}
    (h : (db .memberships).lookup (membershipKey O u) = some m) :
    roleOf db O u = some m.role := by
  rw [roleOf, h, Option.map_some]

theorem member_key {O u : Uuid} {db : Db} {m : Membership}
    (h : member O u db = some m) : m.organizationId = O ∧ m.userId = u :=
  Key.pair.inj (Relation.key_of_lookup h)

theorem invitation_id {i : Uuid} {db : Db} {r : Invitation}
    (h : invitation i db = some r) : r.id = i :=
  Key.id.inj (Relation.key_of_lookup h)

/-- The conditions under which `accept` lets an actor in: he presents the
token of `r`, is the one invited, and comes in time.  The invitation is marked
in the same commit. -/
structure Accepts (H : TokenHash) (request : Request) (c : Commit schema)
    (u : Uuid) (r : Invitation) : Prop where
  request : ∃ actor body, request = .accept actor body ∧ actor.id = u ∧
    r.tokenHash = H.hash body.token ∧ r.invitedEmail = actor.email
  row : invitation r.id c.before = some r
  opened : r.acceptedAt = none
  valid : r.revokedAt = none
  inTime : ∃ τ, readNow c = some τ ∧ τ < r.expiresAt
  marked : ∃ τ, invitation r.id c.after = some { r with acceptedAt := some τ }

/-- A commit leaves the membership of `u` in `O` alone, or changes it on
behalf of a request. -/
inductive MemberStep (H : TokenHash) (request : Request) (c : Commit schema)
    (O u : Uuid) : Prop where
  | same (h : member O u c.after = member O u c.before)
  | founded (user : User) (body : OrganizationCreate) (requestId : String)
      (hrequest : request = .create user body requestId)
      (hnew : ¬ Registered c.before O) (hregistered : Registered c.after O)
      (hbefore : member O u c.before = none)
      (hafter : member O u c.after = some
        { organizationId := O, userId := u, role := .owner })
  | roleSet (actor : User) (body : RoleChange) (m : Membership)
      (hrequest : request = .changeRole O u actor body)
      (hbefore : member O u c.before = some m)
      (hafter : member O u c.after = some { m with role := body.role })
  | removed (actor : User) (hrequest : request = .removeMember O u actor)
      (hafter : member O u c.after = none)
  | joined (r : Invitation) (haccepts : Accepts H request c u r)
      (horganization : r.organizationId = O)
      (hbefore : member O u c.before = none)
      (hafter : member O u c.after = some
        { organizationId := O, userId := u, role := r.role })

/-- A commit leaves the invitation `i` alone, or changes it on behalf of a
request. -/
inductive InvitationStep (H : TokenHash)
    (past : List schema.Ref → Db → Prop) (request : Request)
    (c : Commit schema) (i : Uuid) : Prop where
  | same (h : invitation i c.after = invitation i c.before)
  | invited (O : Uuid) (actor : User) (body : InvitationCreate) (raw : Token)
      (time : Instant) (am : Membership)
      (hrequest : request = .invite O actor body)
      (hchecked : Checked past c O actor.id [.owner, .admin] am)
      (hbefore : invitation i c.before = none)
      (hafter : invitation i c.after =
        some (body.invitation H O actor i raw time))
  | revoked (r : Invitation) (time : Instant)
      (hbefore : invitation i c.before = some r)
      (hafter : invitation i c.after = some { r with revokedAt := some time })
  | accepted (u : Uuid) (r : Invitation) (haccepts : Accepts H request c u r)
      (hid : r.id = i)

section Steps

variable {H : TokenHash} {past : List schema.Ref → Db → Prop}
  {request : Request} {c : Commit schema}

theorem member_of_writes {O u : Uuid}
    (h : ∀ x ∈ c.session.writes, x.ref ≠ (.memberships, membershipKey O u)) :
    member O u c.after = member O u c.before :=
  Store.lookup_view_of_not_mem h

theorem invitation_of_writes {i : Uuid}
    (h : ∀ x ∈ c.session.writes, x.ref ≠ (.invitations, .id i)) :
    invitation i c.after = invitation i c.before :=
  Store.lookup_view_of_not_mem h

/-- A membership that a commit writes once. -/
theorem member_of_put {O u : Uuid} {m : Membership}
    (vs : List (Write schema)) {ws : List (Write schema)}
    (hwrites : c.session.writes = vs ++ .put .memberships m :: ws)
    (hO : m.organizationId = O) (hu : m.userId = u)
    (hws : ∀ x ∈ ws, x.ref.1 ≠ Table.memberships) :
    member O u c.after = some m := by
  subst hO hu
  unfold member Commit.after Session.view
  rw [hwrites]
  exact Store.lookup_view_put vs fun x hx href => hws x hx (by rw [href])

theorem invitation_of_put {r : Invitation} (vs : List (Write schema))
    {ws : List (Write schema)}
    (hwrites : c.session.writes = vs ++ .put .invitations r :: ws)
    (hws : ∀ x ∈ ws, x.ref.1 ≠ Table.invitations) :
    invitation r.id c.after = some r := by
  unfold invitation Commit.after Session.view
  rw [hwrites]
  exact Store.lookup_view_put vs fun x hx href => hws x hx (by rw [href])

/-- An organization that is new is not one that is there. -/
theorem ne_of_new {db : Db} {O o : Uuid} (hO : Registered db O)
    (hnew : (db .organizations).lookup (.id o) = none) : o ≠ O := by
  rintro rfl
  obtain ⟨org, horg⟩ := hO
  rw [horg] at hnew
  cases hnew

/-- A membership with one key is not written under another one. -/
theorem ref_ne {O u o v : Uuid} {m : Membership} (ho : m.organizationId = o)
    (hv : m.userId = v) (h : membershipKey o v ≠ membershipKey O u) :
    Write.ref (.put (σ := schema) .memberships m) ≠
      (.memberships, membershipKey O u) := by
  intro href
  subst ho hv
  exact h (Prod.mk.inj href).2

theorem Effects.memberStep (h : Effects H past request c) (O u : Uuid) :
    MemberStep H request c O u := by
  cases h with
  | @created user body requestId _ org event _ _ hnew hmember _ hwrites =>
      by_cases hkey : membershipKey org.id user.id = membershipKey O u
      · obtain ⟨rfl, rfl⟩ := Key.pair.inj hkey
        have hregistered : Registered c.after org.id := by
          refine ⟨org, ?_⟩
          rw [Commit.after, Session.view, hwrites]
          exact Store.lookup_view_put [] (by simp [Write.ref])
        refine .founded user body requestId rfl ?_ hregistered hmember
          (member_of_put [_] hwrites rfl rfl (by simp [Write.ref]))
        exact fun hO => ne_of_new hO hnew rfl
      · refine .same (member_of_writes ?_)
        simp only [hwrites, List.mem_cons, List.not_mem_nil, or_false,
          forall_eq_or_imp, forall_eq]
        exact ⟨by simp [Write.ref], ref_ne rfl rfl hkey, by simp [Write.ref]⟩
  | roleKept am m event _ _ _ _ hwrites =>
      exact .same (member_of_writes (by simp [hwrites, Write.ref]))
  | @roleChanged o k actor body _ am m r event _ _ _ hrow _ hwrites =>
      obtain ⟨ho, hk⟩ := member_key hrow
      by_cases hkey : membershipKey o k = membershipKey O u
      · obtain ⟨rfl, rfl⟩ := Key.pair.inj hkey
        exact .roleSet actor body r rfl hrow
          (member_of_put [] hwrites ho hk (by simp [Write.ref]))
      · refine .same (member_of_writes ?_)
        simp only [hwrites, List.mem_cons, List.not_mem_nil, or_false,
          forall_eq_or_imp, forall_eq]
        exact ⟨ref_ne ho hk hkey, by simp [Write.ref]⟩
  | @removed o k actor _ am m event _ _ _ _ _ hwrites =>
      by_cases hkey : membershipKey o k = membershipKey O u
      · obtain ⟨rfl, rfl⟩ := Key.pair.inj hkey
        refine .removed actor rfl ?_
        simp [member, Commit.after, Session.view, hwrites]
      · refine .same (member_of_writes ?_)
        simpa [hwrites, Write.ref] using hkey
  | unremoved am m event db _ _ _ _ _ _ hwrites =>
      exact .same (member_of_writes (by simp [hwrites, Write.ref]))
  | invited am id eventId raw time occurredAt event _ _ _ _ _ hwrites =>
      exact .same (member_of_writes (by simp [hwrites, Write.ref]))
  | revoked am r time event _ _ _ _ hwrites =>
      exact .same (member_of_writes (by simp [hwrites, Write.ref]))
  | @accepted actor body _ r time ws event hclock hrow hhash hemail hopen
      hvalid hexpires hjoins _ hwrites =>
      cases hjoins with
      | already db m _ _ =>
          exact .same (member_of_writes (by simp [hwrites, Write.ref]))
      | member hnone =>
          by_cases hkey : membershipKey r.organizationId actor.id =
            membershipKey O u
          · obtain ⟨rfl, rfl⟩ := Key.pair.inj hkey
            have hmarked := invitation_of_put [_] hwrites
              (by simp [Write.ref])
            refine .joined r ⟨⟨actor, body, rfl, rfl, hhash, hemail⟩, hrow,
              hopen, hvalid, ⟨time, hclock, hexpires⟩, time, hmarked⟩ rfl hnone
              ?_
            exact member_of_put [] hwrites rfl rfl (by simp [Write.ref])
          · refine .same (member_of_writes ?_)
            simp only [hwrites, List.cons_append, List.nil_append,
              List.mem_cons, List.not_mem_nil, or_false, forall_eq_or_imp,
              forall_eq]
            exact ⟨ref_ne rfl rfl hkey, by simp [Write.ref],
              by simp [Write.ref]⟩

theorem Effects.invitationStep (h : Effects H past request c) (i : Uuid) :
    InvitationStep H past request c i := by
  cases h with
  | created org event _ _ _ _ _ hwrites =>
      exact .same (invitation_of_writes (by simp [hwrites, Write.ref]))
  | roleKept am m event _ _ _ _ hwrites =>
      exact .same (invitation_of_writes (by simp [hwrites, Write.ref]))
  | roleChanged am m r event _ _ _ _ _ hwrites =>
      exact .same (invitation_of_writes (by simp [hwrites, Write.ref]))
  | removed am m event _ _ _ _ _ hwrites =>
      exact .same (invitation_of_writes (by simp [hwrites, Write.ref]))
  | unremoved am m event db _ _ _ _ _ _ hwrites =>
      exact .same (invitation_of_writes (by simp [hwrites, Write.ref]))
  | @invited O actor body _ am id eventId raw time occurredAt event hchecked _
      hnew _ _ hwrites =>
      by_cases hi : id = i
      · subst hi
        exact .invited O actor body raw time am rfl hchecked hnew
          (invitation_of_put [] hwrites (by simp [Write.ref]))
      · refine .same (invitation_of_writes ?_)
        simpa [hwrites, Write.ref, primaryKey,
          InvitationCreate.invitation] using hi
  | @revoked O j actor _ am r time event _ hrow _ _ hwrites =>
      obtain rfl := invitation_id hrow
      by_cases hi : r.id = i
      · subst hi
        exact .revoked r time hrow
          (invitation_of_put [] hwrites (by simp [Write.ref]))
      · refine .same (invitation_of_writes ?_)
        simpa [hwrites, Write.ref, primaryKey] using hi
  | @accepted actor body _ r time ws event hclock hrow hhash hemail hopen
      hvalid hexpires hjoins _ hwrites =>
      by_cases hi : r.id = i
      · subst hi
        refine .accepted actor.id r ⟨⟨actor, body, rfl, rfl, hhash, hemail⟩,
          hrow, hopen, hvalid, ⟨time, hclock, hexpires⟩, time, ?_⟩ rfl
        cases hjoins with
        | already db m _ _ =>
            exact invitation_of_put [] hwrites (by simp [Write.ref])
        | member hnone =>
            exact invitation_of_put [_] hwrites (by simp [Write.ref])
      · refine .same (invitation_of_writes ?_)
        cases hjoins <;> simpa [hwrites, Write.ref, primaryKey] using hi

/-- No organization is ever deleted. -/
theorem Effects.registered (h : Effects H past request c) {O : Uuid}
    (hO : Registered c.before O) : Registered c.after O := by
  cases h with
  | created org event _ _ hnew _ _ hwrites =>
      have hne := ne_of_new hO hnew
      refine (registered_after ?_).mpr hO
      simp [hwrites, Write.ref, primaryKey, hne]
  | accepted r time ws event _ _ _ _ _ _ _ hjoins _ hwrites =>
      refine (registered_after ?_).mpr hO
      cases hjoins <;> simp [hwrites, Write.ref]
  | _ =>
      refine (registered_after ?_).mpr hO
      simp [*, Write.ref]

end Steps

end Workstream.Organizations
