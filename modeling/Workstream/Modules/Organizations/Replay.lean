import Workstream.Modules.Organizations.Removal

/-!
# The audit log replays to the members

Every completed request adds one audit event.  Folding the events of an
organization in the order of their commits gives its current members, and a
change of role records the role that the fold had before it.
-/

namespace Workstream.Organizations

open ReadCommitted Contract World

/-! ## The fold -/

/-- What the events so far say: the roles of the members, and the roles that
invitations give. -/
structure Replay where
  members : Uuid → Option Role := fun _ => none
  invited : Uuid → Option Role := fun _ => none

def Replay.set (R : Replay) (u : Uuid) (role : Option Role) : Replay :=
  { R with members := Function.update R.members u role }

def Replay.invite (R : Replay) (i : Uuid) (role : Role) : Replay :=
  { R with invited := Function.update R.invited i (some role) }

def Replay.step (R : Replay) (e : AuditEvent) : Replay :=
  match e.actorId, e.entityId with
  | some actorId, some entityId =>
      if e.action = "organization.created" then R.set actorId (some .owner)
      else if e.action = "invitation.created" then
        match e.metadata with
        | .invited _ role => R.invite entityId role
        | _ => R
      else if e.action = "invitation.accepted" then
        if R.members actorId = none then R.set actorId (R.invited entityId)
        else R
      else if e.action = "membership.role_changed" then
        match e.metadata with
        | .roles _ target => R.set entityId (some target)
        | _ => R
      else if e.action = "membership.removed" then R.set entityId none
      else R
  | _, _ => R

/-- The audit events of `O`, in the order of their commits. -/
def events (O : Uuid) (db : Db) : List AuditEvent :=
  (db .auditEvents).rows.filter fun e : AuditEvent =>
    e.organizationId = some O

def replay (es : List AuditEvent) : Replay :=
  es.foldl Replay.step {}

theorem replay_append (es : List AuditEvent) (e : AuditEvent) :
    replay (es ++ [e]) = (replay es).step e := by
  simp [replay]

/-- The role that a `membership.role_changed` event records as the former
one is the role that the fold had. -/
def Honest (R : Replay) (e : AuditEvent) : Prop :=
  e.action = "membership.role_changed" → ∃ k previous target,
    e.entityId = some k ∧ e.metadata = .roles previous target ∧
      R.members k = some previous

/-! ## One commit -/

/-- The fold agrees with the store about `O`. -/
structure Mirrors (O : Uuid) (R : Replay) (db : Db) : Prop where
  members : ∀ u, R.members u = roleOf db O u
  invited : ∀ i r, invitation i db = some r → r.organizationId = O →
    R.invited i = some r.role

/-- Every invitation to `O` was there before, and gives the same role. -/
def KeepsInvitations (O : Uuid) (c : Commit schema) : Prop :=
  ∀ i r, invitation i c.after = some r → r.organizationId = O →
    ∃ r₀, invitation i c.before = some r₀ ∧ r₀.organizationId = O ∧
      r₀.role = r.role

section Commits

variable {H : TokenHash} {past : List schema.Ref → Db → Prop}
  {request : Request} {c : Commit schema} {O u : Uuid} {R : Replay}

theorem Effects.keepsInvitations (h : Effects H past request c)
    (hrequest : ∀ actor body, request ≠ .invite O actor body) :
    KeepsInvitations O c := by
  intro i r hr hO
  cases h.invitationStep i with
  | same h => exact ⟨r, h ▸ hr, hO, rfl⟩
  | invited o actor body raw time am heq _ _ hafter =>
      rw [hafter] at hr
      obtain rfl := Option.some.inj hr
      obtain rfl : o = O := hO
      exact absurd heq (hrequest actor body)
  | revoked r' time hbefore hafter =>
      rw [hafter] at hr
      obtain rfl := Option.some.inj hr
      exact ⟨r', hbefore, hO, rfl⟩
  | accepted u r' haccepts hid =>
      obtain ⟨τ, hmarked⟩ := haccepts.marked
      rw [← hid, hmarked] at hr
      obtain rfl := Option.some.inj hr
      exact ⟨r', hid ▸ haccepts.row, hO, rfl⟩

theorem Mirrors.keep (h : Mirrors O R c.before) (hkeeps : KeepsInvitations O c)
    (hroles : ∀ u, roleOf c.after O u = roleOf c.before O u) :
    Mirrors O R c.after where
  members := fun u => (h.members u).trans (hroles u).symm
  invited := by
    intro i r hr hO
    obtain ⟨r₀, hr₀, hO₀, hrole⟩ := hkeeps i r hr hO
    rw [← hrole]
    exact h.invited i r₀ hr₀ hO₀

theorem Mirrors.set (h : Mirrors O R c.before) (hkeeps : KeepsInvitations O c)
    {k : Uuid} {role : Option Role}
    (hroles : ∀ u, roleOf c.after O u =
      if u = k then role else roleOf c.before O u) :
    Mirrors O (R.set k role) c.after where
  members := by
    intro u
    rw [hroles, ← h.members u]
    exact Function.update_apply R.members k role u
  invited := by
    intro i r hr hO
    obtain ⟨r₀, hr₀, hO₀, hrole⟩ := hkeeps i r hr hO
    rw [← hrole]
    exact h.invited i r₀ hr₀ hO₀

theorem roleOf_of_writes
    (h : ∀ x ∈ c.session.writes, x.ref.1 ≠ Table.memberships) :
    roleOf c.after O u = roleOf c.before O u := by
  have hsame : member O u c.after = member O u c.before :=
    member_of_writes fun x hx href => h x hx (by rw [href])
  exact congrArg (Option.map Membership.role) hsame

/-- The roles after a commit that writes one membership. -/
theorem roleOf_of_put {m : Membership} (vs : List (Write schema))
    {ws : List (Write schema)}
    (hwrites : c.session.writes = vs ++ .put .memberships m :: ws)
    (hvs : ∀ x ∈ vs, x.ref.1 ≠ Table.memberships)
    (hws : ∀ x ∈ ws, x.ref.1 ≠ Table.memberships) :
    roleOf c.after O u =
      if membershipKey m.organizationId m.userId = membershipKey O u
        then some m.role else roleOf c.before O u := by
  by_cases hkey : membershipKey m.organizationId m.userId = membershipKey O u
  · obtain ⟨hO, hu⟩ := Key.pair.inj hkey
    rw [if_pos hkey]
    exact roleOf_eq (member_of_put vs hwrites hO hu hws)
  · rw [if_neg hkey]
    have hsame : member O u c.after = member O u c.before := by
      refine member_of_writes fun x hx => ?_
      rw [hwrites, List.mem_append, List.mem_cons] at hx
      rcases hx with hx | rfl | hx
      · exact fun href => hvs x hx (by rw [href])
      · exact ref_ne rfl rfl hkey
      · exact fun href => hws x hx (by rw [href])
    exact congrArg (Option.map Membership.role) hsame

theorem roleOf_of_put_here {m : Membership} (vs : List (Write schema))
    {ws : List (Write schema)}
    (hwrites : c.session.writes = vs ++ .put .memberships m :: ws)
    (hvs : ∀ x ∈ vs, x.ref.1 ≠ Table.memberships)
    (hws : ∀ x ∈ ws, x.ref.1 ≠ Table.memberships) (u : Uuid) :
    roleOf c.after m.organizationId u =
      if u = m.userId then some m.role
        else roleOf c.before m.organizationId u := by
  rw [roleOf_of_put vs hwrites hvs hws]
  by_cases hu : u = m.userId
  · rw [if_pos hu, if_pos (by rw [hu])]
  · rw [if_neg hu]
    exact if_neg fun hkey => hu (Key.pair.inj hkey).2.symm

theorem roleOf_of_put_elsewhere {m : Membership} (vs : List (Write schema))
    {ws : List (Write schema)}
    (hwrites : c.session.writes = vs ++ .put .memberships m :: ws)
    (hvs : ∀ x ∈ vs, x.ref.1 ≠ Table.memberships)
    (hws : ∀ x ∈ ws, x.ref.1 ≠ Table.memberships)
    (hO : m.organizationId ≠ O) (u : Uuid) :
    roleOf c.after O u = roleOf c.before O u := by
  rw [roleOf_of_put vs hwrites hvs hws]
  exact if_neg fun hkey => hO (Key.pair.inj hkey).1

/-- The events after a commit that adds one. -/
theorem events_of_put {event : AuditEvent} (vs : List (Write schema))
    {ws : List (Write schema)}
    (hwrites : c.session.writes = vs ++ .put .auditEvents event :: ws)
    (hvs : ∀ x ∈ vs, x.ref.1 ≠ Table.auditEvents)
    (hws : ∀ x ∈ ws, x.ref.1 ≠ Table.auditEvents)
    (hnew : (c.before .auditEvents).lookup (.id event.id) = none) :
    events O c.after = events O c.before ++
      if event.organizationId = some O then [event] else [] := by
  have hafter : c.after .auditEvents = (c.before .auditEvents).put event := by
    rw [Commit.after, Session.view, hwrites, Store.view_append,
      Store.view_cons, Store.view_of_table_ne hws, Store.write_put_self,
      Store.view_of_table_ne hvs]
  rw [events, hafter, Relation.put_rows_of_not_mem hnew, List.filter_append]
  congr 1
  by_cases horg : event.organizationId = some O <;> simp [horg]

/-! ## The event of a commit -/

/-- `e` is the event that the commit adds, and it says what has become of the
members of `O`. -/
structure Recorded (O : Uuid) (c : Commit schema) (e : AuditEvent) : Prop where
  events : events O c.after = events O c.before ++
    if e.organizationId = some O then [e] else []
  elsewhere : e.organizationId ≠ some O → ∀ R, Mirrors O R c.before →
    Mirrors O R c.after
  here : e.organizationId = some O → ∀ R, Mirrors O R c.before →
    Mirrors O (R.step e) c.after ∧ Honest R e

section Events

variable {db : Db} {actorId entityId : Uuid} {action entityType : String}
  {metadata : Metadata} {e : AuditEvent}

theorem honest_of_action (h : Audited db actorId O action entityType entityId
    metadata e) (haction : action ≠ "membership.role_changed") :
    Honest R e := by
  intro heq
  exact absurd (h.action.symm.trans heq) haction

theorem step_created (h : Audited db actorId O "organization.created"
    entityType entityId metadata e) :
    R.step e = R.set actorId (some .owner) := by
  simp [Replay.step, h.actor, h.entity, h.action]

theorem step_invited {email : String} {role : Role}
    (h : Audited db actorId O "invitation.created" entityType entityId
      (.invited email role) e) : R.step e = R.invite entityId role := by
  simp [Replay.step, h.actor, h.entity, h.action, h.metadata]

theorem step_revoked (h : Audited db actorId O "invitation.revoked"
    entityType entityId metadata e) : R.step e = R := by
  simp [Replay.step, h.actor, h.entity, h.action]

theorem step_accepted (h : Audited db actorId O "invitation.accepted"
    entityType entityId metadata e) :
    R.step e = if R.members actorId = none
      then R.set actorId (R.invited entityId) else R := by
  simp [Replay.step, h.actor, h.entity, h.action]

theorem step_roleChanged {previous target : Role}
    (h : Audited db actorId O "membership.role_changed" entityType entityId
      (.roles previous target) e) :
    R.step e = R.set entityId (some target) := by
  simp [Replay.step, h.actor, h.entity, h.action, h.metadata]

theorem step_removed (h : Audited db actorId O "membership.removed"
    entityType entityId metadata e) : R.step e = R.set entityId none := by
  simp [Replay.step, h.actor, h.entity, h.action]

end Events

/-- A commit that changes no role, or sets the role of one member of `o`. -/
theorem recorded_of_roles (k : Uuid) (role : Option Role)
    {actorId o entityId : Uuid} {action entityType : String}
    {metadata : Metadata} {e : AuditEvent}
    (haudit : Audited c.before actorId o action entityType entityId metadata e)
    (hevents : events O c.after = events O c.before ++
      if e.organizationId = some O then [e] else [])
    (hkeeps : KeepsInvitations O c)
    (helsewhere : o ≠ O → ∀ u, roleOf c.after O u = roleOf c.before O u)
    (hhere : o = O → ∀ u, roleOf c.after O u =
      if u = k then role else roleOf c.before O u)
    (hstep : o = O → ∀ R, Mirrors O R c.before → R.step e = R.set k role ∧
      Honest R e) : Recorded O c e where
  events := hevents
  elsewhere := by
    intro hO R hR
    exact hR.keep hkeeps (helsewhere fun h => hO (haudit.organization.trans
      (congrArg some h)))
  here := by
    intro hO R hR
    have ho : o = O := Option.some.inj (haudit.organization.symm.trans hO)
    obtain ⟨hset, hhonest⟩ := hstep ho R hR
    rw [hset]
    exact ⟨hR.set hkeeps (hhere ho), hhonest⟩

/-- Setting a role to what it is already changes nothing. -/
theorem roles_same {role : Option Role} {k : Uuid}
    (hsame : ∀ u, roleOf c.after O u = roleOf c.before O u)
    (hrole : roleOf c.before O k = role) (u : Uuid) :
    roleOf c.after O u = if u = k then role else roleOf c.before O u := by
  rw [hsame]
  by_cases hu : u = k
  · rw [if_pos hu, hu, hrole]
  · rw [if_neg hu]

/-- The member that `lock_member` has found is there when the change is
committed. -/
theorem role_of_found {k : Uuid} {m : Membership}
    (h : Found (fun _ db => db = c.before) c O k none m) :
    roleOf c.before O k = some m.role := by
  obtain ⟨refs, _, db, rfl, hm⟩ := h
  exact roleOf_eq hm

theorem honest_of_found {actorId k : Uuid} {m : Membership} {target : Role}
    {e : AuditEvent} (hR : Mirrors O R c.before)
    (haudit : Audited c.before actorId O "membership.role_changed"
      "membership" k (.roles m.role target) e)
    (hfound : Found (fun _ db => db = c.before) c O k none m) :
    Honest R e := by
  intro _
  refine ⟨k, m.role, target, haudit.entity, haudit.metadata, ?_⟩
  rw [hR.members, role_of_found hfound]

theorem recorded_created {user : User} {body : OrganizationCreate}
    {requestId : String} {org : Organization} {e : AuditEvent}
    (h : Alone H (.create user body requestId) c)
    (haudit : Audited c.before user.id org.id "organization.created"
      "organization" org.id .empty e)
    (hwrites : c.session.writes =
      [.put .organizations org, .put .memberships
        { organizationId := org.id, userId := user.id, role := .owner },
        .put .auditEvents e]) : Recorded O c e := by
  have hput : c.session.writes = [.put .organizations org] ++
      .put .memberships
        { organizationId := org.id, userId := user.id, role := .owner } ::
      [.put .auditEvents e] := hwrites
  refine recorded_of_roles user.id (some .owner) haudit
    (events_of_put [_, _] hwrites (by simp [Write.ref]) (by simp) haudit.new)
    (h.keepsInvitations (by simp)) ?_ ?_ ?_
  · exact roleOf_of_put_elsewhere [_] hput (by simp [Write.ref])
      (by simp [Write.ref])
  · rintro rfl
    exact roleOf_of_put_here [_] hput (by simp [Write.ref])
      (by simp [Write.ref])
  · rintro rfl R _
    exact ⟨step_created haudit, honest_of_action haudit (by decide)⟩

theorem recorded_roleKept {o k : Uuid} {actor : User} {body : RoleChange}
    {m : Membership} {e : AuditEvent}
    (h : Alone H (.changeRole o k actor body) c)
    (hfound : Found (fun _ db => db = c.before) c o k none m)
    (hsame : m.role = body.role)
    (haudit : Audited c.before actor.id o "membership.role_changed"
      "membership" k (.roles m.role body.role) e)
    (hwrites : c.session.writes = [.put .auditEvents e]) :
    Recorded O c e := by
  have hroles : ∀ u, roleOf c.after O u = roleOf c.before O u :=
    fun u => roleOf_of_writes (by simp [hwrites, Write.ref])
  refine recorded_of_roles k (some body.role) haudit
    (events_of_put [] hwrites (by simp) (by simp) haudit.new)
    (h.keepsInvitations (by simp)) (fun _ => hroles) ?_ ?_
  · rintro rfl
    refine roles_same hroles ?_
    rw [role_of_found hfound, hsame]
  · rintro rfl R hR
    exact ⟨step_roleChanged haudit, honest_of_found hR haudit hfound⟩

theorem recorded_roleChanged {o k : Uuid} {actor : User} {body : RoleChange}
    {m r : Membership} {e : AuditEvent}
    (h : Alone H (.changeRole o k actor body) c)
    (hfound : Found (fun _ db => db = c.before) c o k none m)
    (hrow : (c.before .memberships).lookup (membershipKey o k) = some r)
    (haudit : Audited c.before actor.id o "membership.role_changed"
      "membership" k (.roles m.role body.role) e)
    (hwrites : c.session.writes =
      [.put .memberships { r with role := body.role }, .put .auditEvents e]) :
    Recorded O c e := by
  obtain ⟨rfl, rfl⟩ := member_key hrow
  refine recorded_of_roles r.userId (some body.role) haudit
    (events_of_put [_] hwrites (by simp [Write.ref]) (by simp) haudit.new)
    (h.keepsInvitations (by simp)) ?_ ?_ ?_
  · intro ho
    exact roleOf_of_put_elsewhere [] hwrites (by simp) (by simp [Write.ref])
      ho
  · rintro rfl
    exact roleOf_of_put_here [] hwrites (by simp) (by simp [Write.ref])
  · rintro rfl R hR
    exact ⟨step_roleChanged haudit, honest_of_found hR haudit hfound⟩

theorem recorded_removed {o k : Uuid} {actor : User} {e : AuditEvent}
    (h : Alone H (.removeMember o k actor) c)
    (haudit : Audited c.before actor.id o "membership.removed" "membership" k
      .empty e)
    (hwrites : c.session.writes =
      [.put .auditEvents e, .del .memberships (membershipKey o k)]) :
    Recorded O c e := by
  have hroles : ∀ u, membershipKey o k ≠ membershipKey O u →
      roleOf c.after O u = roleOf c.before O u := by
    intro u hkey
    have hsame : member O u c.after = member O u c.before := by
      refine member_of_writes ?_
      simpa [hwrites, Write.ref] using hkey
    exact congrArg (Option.map Membership.role) hsame
  refine recorded_of_roles k none haudit
    (events_of_put [] hwrites (by simp) (by simp [Write.ref]) haudit.new)
    (h.keepsInvitations (by simp)) ?_ ?_ ?_
  · exact fun ho u => hroles u fun hkey => ho (Key.pair.inj hkey).1
  · rintro rfl u
    by_cases hu : u = k
    · subst hu
      simp [roleOf, Commit.after, Session.view, hwrites]
    · rw [if_neg hu]
      exact hroles u fun hkey => hu (Key.pair.inj hkey).2.symm
  · rintro rfl R _
    exact ⟨step_removed haudit, honest_of_action haudit (by decide)⟩

theorem recorded_revoked {o i : Uuid} {actor : User} {r : Invitation}
    {time : Instant} {e : AuditEvent}
    (h : Alone H (.revokeInvitation o i actor) c)
    (haudit : Audited c.before actor.id o "invitation.revoked" "invitation" i
      .empty e)
    (hwrites : c.session.writes =
      [.put .invitations { r with revokedAt := some time },
        .put .auditEvents e]) : Recorded O c e := by
  have hroles : ∀ u, roleOf c.after O u = roleOf c.before O u :=
    fun u => roleOf_of_writes (by simp [hwrites, Write.ref])
  have hkeeps : KeepsInvitations O c := h.keepsInvitations (by simp)
  constructor
  · exact events_of_put [_] hwrites (by simp [Write.ref]) (by simp) haudit.new
  · exact fun _ R hR => hR.keep hkeeps hroles
  · intro _ R hR
    have hhonest : Honest R e := honest_of_action haudit (by decide)
    rw [step_revoked haudit]
    exact ⟨hR.keep hkeeps hroles, hhonest⟩

theorem recorded_invited {o id : Uuid} {actor : User}
    {body : InvitationCreate} {raw : Token} {time : Instant} {e : AuditEvent}
    {event : OutboxEvent}
    (hnew : (c.before .invitations).lookup (.id id) = none)
    (haudit : Audited c.before actor.id o "invitation.created" "invitation" id
      (.invited (lower body.email) body.role) e)
    (hwrites : c.session.writes =
      [.put .invitations (body.invitation H o actor id raw time),
        .put .auditEvents e, .put .outboxEvents event]) :
    Recorded O c e := by
  have hroles : ∀ u, roleOf c.after O u = roleOf c.before O u :=
    fun u => roleOf_of_writes (by simp [hwrites, Write.ref])
  have hother : ∀ i, i ≠ id →
      invitation i c.after = invitation i c.before := by
    intro i hi
    refine invitation_of_writes ?_
    simpa [hwrites, Write.ref, primaryKey,
      InvitationCreate.invitation] using hi.symm
  have hthere : invitation id c.after =
      some (body.invitation H o actor id raw time) :=
    invitation_of_put [] hwrites (by simp [Write.ref])
  constructor
  · exact events_of_put [_] hwrites (by simp [Write.ref]) (by simp [Write.ref])
      haudit.new
  · intro hO R hR
    refine hR.keep (fun i r hr hr' => ?_) hroles
    by_cases hi : i = id
    · subst hi
      rw [hthere] at hr
      obtain rfl := Option.some.inj hr
      exact absurd (haudit.organization.trans (congrArg some hr')) hO
    · exact ⟨r, (hother i hi).symm.trans hr, hr', rfl⟩
  · intro hO R hR
    refine ⟨?_, honest_of_action haudit (by decide)⟩
    rw [step_invited haudit]
    refine ⟨fun u => (hR.members u).trans (hroles u).symm, fun i r hr hr' => ?_⟩
    by_cases hi : i = id
    · subst hi
      rw [hthere] at hr
      obtain rfl := Option.some.inj hr
      exact Function.update_self _ _ _
    · exact (Function.update_of_ne hi _ _).trans
        (hR.invited i r ((hother i hi).symm.trans hr) hr')

theorem recorded_accepted {actor : User} {body : InvitationAccept}
    {r : Invitation} {time : Instant} {ws : List (Write schema)}
    {e : AuditEvent} (h : Alone H (.accept actor body) c)
    (hrow : (c.before .invitations).lookup (.id r.id) = some r)
    (hjoins : Joins (fun _ db => db = c.before) c actor r time ws)
    (haudit : Audited c.before actor.id r.organizationId "invitation.accepted"
      "invitation" r.id .empty e)
    (hwrites : c.session.writes = ws ++ [.put .auditEvents e]) :
    Recorded O c e := by
  have hkeeps : KeepsInvitations O c := h.keepsInvitations (by simp)
  cases hjoins with
  | already db m hpast hm =>
      subst hpast
      have hroles : ∀ u, roleOf c.after O u = roleOf c.before O u :=
        fun u => roleOf_of_writes (by simp [hwrites, Write.ref])
      constructor
      · exact events_of_put [_] hwrites (by simp [Write.ref]) (by simp)
          haudit.new
      · exact fun _ R hR => hR.keep hkeeps hroles
      · intro hO R hR
        have ho : r.organizationId = O :=
          Option.some.inj (haudit.organization.symm.trans hO)
        have hthere : R.members actor.id ≠ none := by
          rw [hR.members, ← ho, roleOf_eq hm]
          exact Option.some_ne_none _
        refine ⟨?_, honest_of_action haudit (by decide)⟩
        rw [step_accepted haudit, if_neg hthere]
        exact hR.keep hkeeps hroles
  | member hnone =>
      refine recorded_of_roles actor.id (some r.role) haudit
        (events_of_put [_, _] hwrites (by simp [Write.ref]) (by simp)
          haudit.new) hkeeps ?_ ?_ ?_
      · exact roleOf_of_put_elsewhere [] hwrites (by simp) (by simp [Write.ref])
      · rintro rfl
        exact roleOf_of_put_here [] hwrites (by simp) (by simp [Write.ref])
      · rintro rfl R hR
        have hfree : R.members actor.id = none := by
          rw [hR.members, roleOf, hnone]
          rfl
        refine ⟨?_, honest_of_action haudit (by decide)⟩
        rw [step_accepted haudit, if_pos hfree, hR.invited r.id r hrow rfl]

/-- Every commit records what it does. -/
theorem Effects.recorded (h : Alone H request c) (O : Uuid) :
    ∃ e, Recorded O c e := by
  have halone := h
  cases h with
  | created org event _ _ _ _ haudit hwrites =>
      exact ⟨event, recorded_created halone haudit hwrites⟩
  | roleKept am m event _ hfound hsame haudit hwrites =>
      exact ⟨event, recorded_roleKept halone hfound hsame haudit hwrites⟩
  | roleChanged am m r event _ hfound _ hrow haudit hwrites =>
      exact ⟨event, recorded_roleChanged halone hfound hrow haudit hwrites⟩
  | removed am m event _ _ _ _ haudit hwrites =>
      exact ⟨event, recorded_removed halone haudit hwrites⟩
  | @unremoved o k actor _ am m event db hchecked hfound _ hpast hgone _ _ =>
      subst hpast
      exfalso
      obtain ⟨refs, _, hm⟩ := hfound
      obtain ⟨_, db, _, hdb, ham⟩ := hchecked
      by_cases hself : k = actor.id
      · rw [hdb, ← hself, hgone] at ham
        cases ham
      · rw [if_neg hself] at hm
        obtain ⟨db', hdb', hm⟩ := hm
        rw [hdb', hgone] at hm
        cases hm
  | invited am id eventId raw time occurredAt event _ _ hnew _ haudit
      hwrites =>
      exact ⟨event, recorded_invited hnew haudit hwrites⟩
  | revoked am r time event _ _ _ haudit hwrites =>
      exact ⟨event, recorded_revoked halone haudit hwrites⟩
  | accepted r time ws event _ hrow _ _ _ _ _ hjoins haudit hwrites =>
      exact ⟨event, recorded_accepted halone hrow hjoins haudit hwrites⟩

end Commits

/-! ## Histories -/

theorem mirrors_of_absent {db : Db} {O : Uuid} (h : Absent db O) :
    Mirrors O {} db where
  members := by
    intro u
    cases hm : member O u db with
    | none => exact (congrArg (Option.map Membership.role) hm).symm
    | some m =>
        exact absurd (member_key hm).1
          (h.memberships m (Relation.mem_of_lookup hm))
  invited := by
    intro i r hr hO
    exact absurd hO (h.invitations r (Relation.mem_of_lookup hr))

/-- The events before one of the events, when a new one has been added. -/
theorem append_singleton_cases {α : Type} {es pre post : List α} {e x : α}
    (h : es ++ [e] = pre ++ x :: post) :
    es = pre ∧ e = x ∨ ∃ post', es = pre ++ x :: post' := by
  rcases post.eq_nil_or_concat with rfl | ⟨post', y, rfl⟩
  · obtain ⟨rfl, hx⟩ := List.append_inj' h rfl
    exact Or.inl ⟨rfl, (List.cons.inj hx).1⟩
  · rw [List.concat_eq_append, ← List.cons_append, ← List.append_assoc] at h
    exact Or.inr ⟨post', (List.append_inj' h rfl).1⟩

/-- What the events of `O` say, after any number of turns. -/
structure Faithful (O : Uuid) (turns : List (Turn schema Request)) (db : Db) :
    Prop where
  mirrors : Mirrors O (replay (events O db)) db
  honest : ∀ pre e post, events O db = pre ++ e :: post →
    Honest (replay pre) e
  appended : ∀ t ∈ turns, events O t.before <+: events O t.after

theorem Faithful.commit {H : TokenHash} {O : Uuid}
    {turns : List (Turn schema Request)} {t : Turn schema Request}
    {c : Commit schema} (h : Faithful O turns c.before)
    (heffects : Alone H t.request c) (hbefore : c.before = t.before)
    (hafter : c.after = t.after) : Faithful O (t :: turns) c.after := by
  obtain ⟨e, hrecorded⟩ := heffects.recorded O
  have happended : ∀ t' ∈ t :: turns,
      events O t'.before <+: events O t'.after := by
    intro t' ht'
    rcases List.mem_cons.mp ht' with rfl | ht'
    · rw [← hbefore, ← hafter, hrecorded.events]
      exact List.prefix_append _ _
    · exact h.appended t' ht'
  by_cases hO : e.organizationId = some O
  · have hevents : events O c.after = events O c.before ++ [e] := by
      rw [hrecorded.events, if_pos hO]
    obtain ⟨hmirrors, hhonest⟩ := hrecorded.here hO _ h.mirrors
    refine ⟨?_, ?_, happended⟩
    · rw [hevents, replay_append]
      exact hmirrors
    · intro pre x post hsplit
      rw [hevents] at hsplit
      rcases append_singleton_cases hsplit with ⟨rfl, rfl⟩ | ⟨post', hold⟩
      · exact hhonest
      · exact h.honest pre x post' hold
  · have hevents : events O c.after = events O c.before := by
      rw [hrecorded.events, if_neg hO, List.append_nil]
    refine ⟨?_, ?_, happended⟩
    · rw [hevents]
      exact hrecorded.elsewhere hO _ h.mirrors
    · rw [hevents]
      exact h.honest

/-- The audit events of an organization that a history has created, folded in
the order of their commits, give its members, and every change of a role
records the role that the fold had. -/
theorem audit_log_replays (H : TokenHash) {s₀ s : Db} {O : Uuid}
    (habsent : Absent s₀ O) (hunaudited : events O s₀ = [])
    {turns : List (Turn schema Request)} (h : History H s₀ turns s) :
    (∀ u, (replay (events O s)).members u = roleOf s O u) ∧
    (∀ pre e post, events O s = pre ++ e :: post →
      e.action = "membership.role_changed" → ∃ k previous target,
        e.entityId = some k ∧ e.metadata = .roles previous target ∧
          (replay pre).members k = some previous) ∧
    ∀ t ∈ turns, events O t.before <+: events O t.after := by
  have hall : Faithful O turns s := by
    refine h.induction (P := Faithful O) ?_ ?_
    · refine ⟨?_, ?_, by simp⟩
      · rw [hunaudited]
        exact mirrors_of_absent habsent
      · intro pre e post hsplit
        rw [hunaudited] at hsplit
        simp at hsplit
    · rintro t ts hfaithful (hidle | ⟨c, heffects, hbefore, hafter⟩)
      · rw [hidle]
        refine ⟨hfaithful.mirrors, hfaithful.honest, fun t' ht' => ?_⟩
        rcases List.mem_cons.mp ht' with rfl | ht'
        · exact hidle ▸ List.prefix_rfl
        · exact hfaithful.appended t' ht'
      · rw [← hbefore] at hfaithful heffects
        exact hafter ▸ hfaithful.commit heffects hbefore hafter
  exact ⟨hall.mirrors.members, hall.honest, hall.appended⟩

/-- Bob creates an organization, and Alice is invited and promoted. -/
def foundation : List (Request × List (Input schema)) :=
  [(.changeRole 10 2 bob ⟨.owner⟩, [.go, .order [.id 10], .go, .go, .go,
      .order [.pair 10 2], .go, .go, .value 25, .value 6, .go, .go]),
    (.accept alice ⟨20⟩, [.order [.id 21], .go, .go, .value 5, .go, .go,
      .order [.id 21], .go, .go, .value 24, .value 6, .go, .go]),
    (.invite 10 bob ⟨"alice@example.org", .admin, admin_ne_owner⟩, [.go, .value 20,
      .value 3, .value 21, .go, .value 22, .value 3, .go, .value 23, .value 3,
      .go, .go]),
    (.create bob ⟨"Team", "team"⟩ "request", [.value 10, .value 1, .value 1,
      .go, .go, .value 11, .value 2, .go, .go])]

/-- Alice and Bob are owners, in the store and in the log. -/
theorem audit_log_replays_foundation : ∃ turns s,
    History plainHash (Store.empty schema) turns s ∧
    roleOf s 10 2 = some .owner ∧
    (replay (events 10 s)).members 2 = some .owner := by
  have hended : Ended plainHash (Store.empty schema) foundation = true := by
    decide +kernel
  have hrole : roleOf (turnsOf plainHash (Store.empty schema) foundation).2
      10 2 = some .owner := by
    decide +kernel
  have habsent : Absent (Store.empty schema) 10 := by
    constructor <;> simp [Store.empty]
  have hhistory := history_turnsOf hended
  refine ⟨_, _, hhistory, hrole, ?_⟩
  rw [(audit_log_replays plainHash habsent rfl hhistory).1 2, hrole]

end Workstream.Organizations
