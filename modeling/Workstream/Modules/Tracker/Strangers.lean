import Workstream.Modules.Tracker.Divide

/-!
# Requests of strangers

Every endpoint treats two stores that differ in the rows of one organization
alike, if the request comes from a user without a membership in it.
-/

namespace Workstream.Tracker.Divide

open ReadCommitted World Organizations

variable {H : TokenHash} {D : Divide H} {user : User} {O : Uuid}

/-! ## Organizations -/

theorem blind_create {body : OrganizationCreate} {requestId : String} :
    D.Blind (Organizations.create user body requestId) := by
  apply Prog.alike_freshId_bind
  intro id hid
  apply blind_now_bind
  intro createdAt
  apply blind_now_bind
  intro updatedAt
  have hO : id ≠ D.organization := ne_of_drawn hid
  have hother : some id ≠ some D.organization :=
    fun hsame => hO (Option.some.inj hsame)
  refine blind_insertRow_bind (by decide) hother (Or.inl (by decide))
    (apart_shared (by decide)) fun conflict => ?_
  split
  · trivial
  · trivial
  · refine Prog.alike_bind ?_ fun _ => ?_
    · exact blind_insertOrHalt (by decide) hother
        (Or.inr (clear_membership hO)) (apart_nil rfl)
    · exact Prog.alike_bind (blind_audit hO) fun _ => trivial

/-- A stranger is told of the organizations that have him as a member. -/
theorem blind_listOrgs {C : Collation} (hu : D.Stranger user.id) :
    D.Blind (listOrgs C user) := by
  apply Prog.alike_select
  intro v v' halign
  have horganizations : v' .organizations = v .organizations :=
    shared_same halign (by decide)
  have hjoined : joined user.id v' = joined user.id v := by
    unfold joined
    rw [horganizations]
    refine congrArg (List.flatMap · _) (funext fun o => ?_)
    refine congrArg (List.map _) ?_
    by_cases hO : o.id = D.organization
    · have hnone : ∀ {db : Db}, (db .memberships).lookup
          (membershipKey D.organization user.id) = none →
          (db .memberships).rows.filter (fun m : Membership =>
            m.organizationId = o.id ∧ m.userId = user.id) = [] := by
        intro db hdb
        apply List.filter_eq_nil_iff.mpr
        intro m hm hmatch
        obtain ⟨horganization, huser⟩ := of_decide_eq_true hmatch
        refine Relation.lookup_eq_none_iff.mp hdb m hm ?_
        exact congrArg₂ Key.pair (horganization.trans hO) huser
      obtain ⟨hleft, hright⟩ := hu.none halign
      rw [hnone hleft, hnone hright]
    · apply filter_other (t := .memberships) halign (by decide) hO
      intro m hm
      exact congrArg some (of_decide_eq_true hm).1
  rw [hjoined]

theorem blind_getOrg (hu : D.Stranger user.id) : D.Blind (getOrg O user) := by
  apply blind_requireMembership_bind hu
  intro hO m
  apply blind_get_bind (clear_organization hO)
  intro org
  cases org <;> trivial

theorem blind_update {body : OrganizationUpdate} (hu : D.Stranger user.id) :
    D.Blind (Organizations.update O user body) := by
  apply blind_requireMembership_bind hu
  intro hO m
  apply blind_get_bind (clear_organization hO)
  intro o
  apply Prog.alike_require_bind
  intro org _
  apply blind_now_bind
  intro updatedAt
  refine Prog.alike_bind ?_ fun _ => ?_
  · refine Prog.alike_ite (fun _ => trivial) fun _ => ?_
    apply blind_updateKey (clear_organization hO)
    intro x hx _
    exact replaces (by decide) hx rfl (Or.inl (apart_shared (by decide)))
  · exact Prog.alike_bind (blind_audit hO) fun _ => trivial

theorem blind_members {C : Collation} (hu : D.Stranger user.id) :
    D.Blind (members C O user) := by
  apply blind_requireMembership_bind hu
  intro hO m
  refine Prog.alike_select_bind (fun v v' halign => ?_) fun _ _ _ => trivial
  have hmemberships : (v' .memberships).rows.filter
      (fun m : Membership => m.organizationId = O) =
      (v .memberships).rows.filter fun m : Membership =>
        m.organizationId = O := by
    apply filter_other (t := .memberships) halign (by decide) hO
    intro m hm
    exact congrArg some (of_decide_eq_true hm)
  have husers : v' .users = v .users := shared_same halign (by decide)
  simp only [memberRows, hmemberships, husers]

/-! ## Members -/

theorem blind_lockMember {memberId : Uuid} {held : Option Membership}
    (hO : O ≠ D.organization) : D.Blind (lockMember O memberId held) := by
  refine blind_locking_bind ?_ fun rows _ => ?_
  · apply Curtain.inSight_byKey (clear_organization hO)
    intro x r _ _ hlock
    cases hlock
  refine Prog.alike_bind ?_ fun member => ?_
  · cases held with
    | some m => trivial
    | none =>
        apply Prog.alike_select
        intro v v' halign
        exact halign.lookup_eq (clear_membership hO)
  · cases member <;> trivial

theorem blind_protectOwner {member : Membership} (hO : O ≠ D.organization) :
    D.Blind (protectOwner O member) := by
  refine Prog.alike_ite (fun _ => ?_) fun _ => trivial
  refine Prog.alike_select_bind (fun v v' halign => ?_) fun v v' _ => ?_
  · apply filter_other (t := .memberships) halign (by decide) hO
    intro m hm
    exact congrArg some (of_decide_eq_true hm).1
  · exact Prog.alike_ite (fun _ => trivial) fun _ => trivial

theorem blind_changeRole {memberId : Uuid} {body : RoleChange}
    (hu : D.Stranger user.id) :
    D.Blind (changeRole O memberId user body) := by
  apply blind_requireMembership_bind hu
  intro hO m
  apply Prog.alike_bind (blind_lockMember hO)
  intro member
  refine Prog.alike_bind ?_ fun _ => ?_
  · exact Prog.alike_ite (fun _ => blind_protectOwner hO) fun _ => trivial
  refine Prog.alike_bind ?_ fun _ => ?_
  · refine Prog.alike_ite (fun _ => trivial) fun _ => ?_
    apply blind_updateKey (clear_membership hO)
    intro x hx _
    exact replaces (by decide) hx rfl (Or.inl (apart_nil rfl))
  · exact Prog.alike_bind (blind_audit hO) fun _ => trivial

theorem blind_removeMember {memberId : Uuid} (hu : D.Stranger user.id) :
    D.Blind (removeMember O memberId user) := by
  apply blind_requireMembership_bind hu
  intro hO m
  apply Prog.alike_bind (blind_lockMember hO)
  intro member
  apply Prog.alike_ensure_bind
  intro _
  apply Prog.alike_bind (blind_protectOwner hO)
  intro _
  apply Prog.alike_bind (blind_audit hO)
  intro _
  exact Prog.alike_bind (blind_deleteKey (clear_membership hO)) fun _ => trivial

/-! ## Invitations -/

theorem blind_invite {body : InvitationCreate} (hu : D.Stranger user.id) :
    D.Blind (invite H O user body) := by
  apply blind_requireMembership_bind hu
  intro hO m
  apply Prog.alike_freshId_bind
  intro raw hraw
  apply blind_now_bind
  intro expiresFrom
  apply Prog.alike_freshId_bind
  intro id hid
  refine Prog.alike_bind ?_ fun _ => ?_
  · refine blind_insertOrHalt (by decide) ?_ (Or.inr (clear_id hid))
      (apart_invitation hraw rfl)
    exact fun hsame => hO (Option.some.inj hsame)
  apply Prog.alike_bind (blind_audit hO)
  intro _
  apply Prog.alike_freshId_bind
  intro eventId _
  apply blind_now_bind
  intro occurredAt
  refine Prog.alike_bind ?_ fun _ => trivial
  refine blind_insertOrHalt (by decide) ?_ (Or.inl (by decide))
    (apart_nil rfl)
  exact fun hsame => by cases hsame

theorem blind_inviteLimited {settings : Settings} {client : Auth.Client}
    {body : InvitationCreate} (hu : D.Stranger user.id) :
    D.Blind (inviteLimited H settings client O user body) := by
  simp only [inviteLimited, enforceRateLimit, bind_assoc]
  apply Prog.alike_callOut_bind
  intro count
  apply Prog.alike_ensure_bind
  intro _
  apply Prog.alike_callOut_bind
  intro ttl
  exact Prog.alike_ensure_bind fun _ => blind_invite hu

theorem blind_invitations (hu : D.Stranger user.id) :
    D.Blind (invitations O user) := by
  apply blind_requireMembership_bind hu
  intro hO m
  apply blind_now_bind
  intro time
  refine Prog.alike_select_bind (fun v v' halign => ?_) fun _ _ _ => trivial
  refine congrArg (List.take 100) ?_
  apply filter_other (t := .invitations) halign (by decide) hO
  intro x hx
  exact congrArg some (of_decide_eq_true hx).1

theorem blind_revokeInvitation {invitationId : Uuid}
    (hu : D.Stranger user.id) :
    D.Blind (revokeInvitation O invitationId user) := by
  apply blind_requireMembership_bind hu
  intro hO m
  have hsight : D.curtain.InSight (t := .invitations)
      { pred := fun i : Invitation =>
          i.id = invitationId ∧ i.organizationId = O } := by
    refine inSight_other (by decide) hO (fun x hx => ?_) fun x r _ _ hlock => ?_
    · exact congrArg some (of_decide_eq_true hx).2
    · cases hlock
  apply blind_locking_bind hsight
  intro rows hrows
  apply blind_scalarOneOrNone_bind
  intro o ho
  apply Prog.alike_require_bind
  intro invitation hinvitation
  obtain ⟨_, _, hclear⟩ := hsight.returns (fun _ => rfl)
    (hrows invitation (ho invitation hinvitation))
  apply blind_now_bind
  intro revokedAt
  refine Prog.alike_bind ?_ fun _ => ?_
  · apply blind_updateKey hclear
    intro x hx _
    exact replaces (by decide) hx rfl (Or.inr fun _ he => he)
  · exact Prog.alike_bind (blind_audit hO) fun _ => trivial

theorem blind_join {invitation : Invitation} {time : Instant}
    (hO : invitation.organizationId ≠ D.organization)
    (hclear : D.curtain.Clear .invitations (.id invitation.id)) :
    D.Blind (join user invitation time) := by
  apply blind_get_bind (clear_membership hO)
  intro membership
  refine Prog.alike_bind ?_ fun _ => ?_
  · refine Prog.alike_ite (fun _ => ?_) fun _ => trivial
    refine blind_insertOrHalt (by decide) ?_ (Or.inr (clear_membership hO))
      (apart_nil rfl)
    exact fun hsame => hO (Option.some.inj hsame)
  refine Prog.alike_bind ?_ fun _ => ?_
  · apply blind_updateKey hclear
    intro x hx _
    exact replaces (by decide) hx rfl (Or.inr fun _ he => he)
  · exact Prog.alike_bind (blind_audit hO) fun _ => trivial

/-- A token that is no invitation to the organization leads to another one, or
to none. -/
theorem blind_accept {body : InvitationAccept}
    (htoken : ∀ x : Invitation, D.curtain.Behind .invitations x →
      x.tokenHash ≠ H.hash body.token) :
    D.Blind (accept H user body) := by
  have hsight : D.curtain.InSight (t := .invitations)
      { pred := fun i : Invitation => i.tokenHash = H.hash body.token } := by
    constructor
    · exact fun x hx => decide_eq_false (htoken x hx)
    · intro x r _ _ hlock
      cases hlock
  apply blind_locking_bind hsight
  intro rows hrows
  apply blind_scalarOneOrNone_bind
  intro o ho
  apply blind_now_bind
  intro time
  apply Prog.alike_require_bind
  intro invitation hinvitation
  obtain ⟨_, hhidden, hclear⟩ := hsight.returns (fun _ => rfl)
    (hrows invitation (ho invitation hinvitation))
  apply Prog.alike_ensure_bind
  intro _
  apply Prog.alike_ensure_bind
  intro _
  refine Prog.alike_ite (fun _ => trivial) fun _ => ?_
  refine blind_join (fun hO => ?_) hclear
  exact ne_of_sight (by decide) (by decide) hhidden (congrArg some hO)

/-! ## Projects -/

/-- A project of another organization is found in both stores. -/
theorem blind_getProject_bind {α : Type} {projectId : Uuid}
    {f : Project → Tx α} (hO : O ≠ D.organization)
    (h : ∀ p : Project, p.id = projectId →
      D.curtain.Clear .projects (.id p.id) → D.Blind (f p)) :
    D.Blind (Projects.getProject O projectId >>= f) := by
  simp only [Projects.getProject, bind_assoc]
  refine blind_selectOne_bind (t := .projects) (by decide) hO
    (fun x hx => ?_) fun x hx hclear => ?_
  · exact congrArg some (of_decide_eq_true hx).2
  · exact h x (of_decide_eq_true hx).1 hclear

theorem blind_createProject {body : Projects.ProjectCreate}
    (hu : D.Stranger user.id) :
    D.Blind (Projects.createProject O user body) := by
  apply blind_requireMembership_bind hu
  intro hO m
  apply Prog.alike_freshId_bind
  intro id hid
  apply blind_now_bind
  intro createdAt
  refine blind_insertRow_bind (by decide)
    (fun hsame => hO (Option.some.inj hsame)) (Or.inr (clear_id hid))
    (apart_project hO) fun conflict => ?_
  split
  · trivial
  · trivial
  · exact Prog.alike_bind (blind_audit hO) fun _ => trivial

theorem blind_listProjects {C : Collation} {includeArchived : Bool}
    (hu : D.Stranger user.id) :
    D.Blind (Projects.list C O user includeArchived) := by
  apply blind_requireMembership_bind hu
  intro hO m
  apply Prog.alike_select
  intro v v' halign
  have hlisted : Projects.listed O includeArchived v' =
      Projects.listed O includeArchived v := by
    apply filter_other (t := .projects) halign (by decide) hO
    intro p hp
    exact congrArg some (of_decide_eq_true hp).1
  rw [hlisted]

theorem blind_readProject {projectId : Uuid} (hu : D.Stranger user.id) :
    D.Blind (Projects.read O projectId user) := by
  apply blind_requireMembership_bind hu
  intro hO m
  rw [← bind_pure (Projects.getProject O projectId)]
  exact blind_getProject_bind hO fun _ _ _ => trivial

theorem blind_updateProject {projectId : Uuid} {body : Projects.ProjectUpdate}
    (hu : D.Stranger user.id) :
    D.Blind (Projects.updateProject O projectId user body) := by
  apply blind_requireMembership_bind hu
  intro hO m
  apply blind_getProject_bind hO
  intro project _ hclear
  refine Prog.alike_bind ?_ fun _ => trivial
  refine Prog.alike_ite (fun _ => trivial) fun _ => ?_
  refine Prog.alike_alterKey (Curtain.InSight.alike ?_)
  apply Curtain.inSight_byKey hclear
  intro x r hx _ hwrite
  obtain ⟨name, description, rfl⟩ := Projects.ProjectUpdate.apply_cases
    (Projects.writeOrReject_eq_write.mp hwrite)
  exact replaces (by decide) hx rfl (Or.inr fun _ he => he)

theorem blind_setArchived {projectId : Uuid} {archived : Bool}
    (hu : D.Stranger user.id) :
    D.Blind (Projects.setArchived O projectId user archived) := by
  apply blind_requireMembership_bind hu
  intro hO m
  apply blind_getProject_bind hO
  intro project _ hclear
  refine Prog.alike_bind ?_ fun _ => ?_
  · refine Prog.alike_ite (fun _ => trivial) fun _ => ?_
    apply blind_updateKey hclear
    intro x hx _
    exact replaces (by decide) hx rfl (Or.inr fun _ he => he)
  · exact Prog.alike_bind (blind_audit hO) fun _ => trivial

/-! ## Issues -/

theorem blind_getIssue_bind {α : Type} {issueId : Uuid} {f : Issue → Tx α}
    (hO : O ≠ D.organization)
    (h : ∀ i : Issue, i.id = issueId → i.organizationId = O →
      D.curtain.Clear .issues (.id i.id) → D.Blind (f i)) :
    D.Blind (Issues.getIssue O issueId >>= f) := by
  simp only [Issues.getIssue, bind_assoc]
  refine blind_selectOne_bind (t := .issues) (by decide) hO
    (fun x hx => ?_) fun x hx hclear => ?_
  · exact congrArg some (of_decide_eq_true hx).2.1
  · obtain ⟨hid, horganization, _⟩ := of_decide_eq_true hx
    exact h x hid horganization hclear

theorem blind_readIssue {issueId : Uuid} (hu : D.Stranger user.id) :
    D.Blind (Issues.read O issueId user) := by
  apply blind_requireMembership_bind hu
  intro hO m
  rw [← bind_pure (Issues.getIssue O issueId)]
  exact blind_getIssue_bind hO fun _ _ _ _ => trivial

theorem blind_validateAssignee {assigneeId : Option Uuid}
    (hO : O ≠ D.organization) : D.Blind (Issues.validateAssignee O assigneeId) := by
  cases assigneeId with
  | none => trivial
  | some userId =>
      refine Prog.alike_select_bind (fun v v' halign => ?_) fun v v' _ => ?_
      · have hmemberships : (v' .memberships).rows.filter
            (fun m : Membership => m.organizationId = O ∧ m.userId = userId) =
            (v .memberships).rows.filter fun m : Membership =>
              m.organizationId = O ∧ m.userId = userId := by
          apply filter_other (t := .memberships) halign (by decide) hO
          intro m hm
          exact congrArg some (of_decide_eq_true hm).1
        have husers : v' .users = v .users := shared_same halign (by decide)
        simp only [Issues.activeMembers, hmemberships, husers]
      · exact Prog.alike_ite (fun _ => trivial) fun _ => trivial

theorem blind_takeNumber {projectId : Uuid}
    (hclear : D.curtain.Clear .projects (.id projectId)) :
    D.Blind (Issues.takeNumber projectId) := by
  refine blind_locking_bind ?_ fun rows _ => ?_
  · constructor
    · intro x hx
      exact decide_eq_false fun hid => hclear x hx (congrArg Key.id hid)
    · intro x r hx _ hwrite
      cases hwrite
      exact replaces (t := .projects) (by decide) hx rfl
        (Or.inr fun _ he => he)
  · split <;> trivial

theorem blind_notifyAssignee {issueId : Uuid} {assigneeId : Option Uuid}
    (hO : O ≠ D.organization) :
    D.Blind (Issues.notifyAssignee O issueId user assigneeId) := by
  cases assigneeId with
  | none => trivial
  | some userId =>
      refine Prog.alike_ite (fun _ => trivial) fun _ => ?_
      apply Prog.alike_freshId_bind
      intro id _
      apply blind_now_bind
      intro createdAt
      refine blind_insertOrHalt (by decide) ?_ (Or.inl (by decide))
        (apart_nil rfl)
      exact fun hsame => hO (Option.some.inj hsame)

theorem blind_createIssue {body : Issues.IssueCreate}
    (hu : D.Stranger user.id) : D.Blind (Issues.createIssue O user body) := by
  apply blind_requireMembership_bind hu
  intro hO m
  apply blind_getProject_bind hO
  intro project hid hclear
  apply Prog.alike_ensure_bind
  intro _
  apply Prog.alike_bind (blind_validateAssignee hO)
  intro _
  apply Prog.alike_bind (blind_takeNumber hclear)
  intro number
  apply Prog.alike_freshId_bind
  intro id hdrawn
  apply blind_now_bind
  intro createdAt
  apply blind_now_bind
  intro updatedAt
  refine Prog.alike_bind ?_ fun _ => ?_
  · rw [hid] at hclear
    exact blind_insertOrHalt (by decide)
      (fun hsame => hO (Option.some.inj hsame)) (Or.inr (clear_id hdrawn))
      (apart_issue hclear)
  apply Prog.alike_bind (blind_audit hO)
  intro _
  exact Prog.alike_bind (blind_notifyAssignee hO) fun _ => trivial

theorem blind_optimisticUpdate {issue : Issue} {expected : ℕ}
    {values : Issue → Option Issue}
    (hO : issue.organizationId ≠ D.organization)
    (hvalues : ∀ x r, values x = some r → Issues.SameIssue x r) :
    D.Blind (Issues.optimisticUpdate issue expected values) := by
  apply blind_now_bind
  intro updatedAt
  refine blind_locking_bind ?_ fun rows _ => ?_
  · refine inSight_other (t := .issues) (by decide) hO (fun x hx => ?_)
      fun x r hx _ hwrite => ?_
    · exact congrArg some (of_decide_eq_true hx).2.1
    · obtain ⟨v, hv, rfl⟩ := Option.map_eq_some_iff.mp
        (Projects.writeOrReject_eq_write.mp hwrite)
      have hsame := hvalues x v hv
      refine replaces (by decide) hx (congrArg some hsame.organization)
        (Or.inr fun e he => ?_)
      obtain rfl := List.mem_singleton.mp he
      refine List.mem_singleton.mpr ?_
      exact congrArg₂ Key.issueNumber hsame.project hsame.number
  · apply blind_scalarOneOrNone_bind
    intro o _
    cases o <;> trivial

theorem blind_updateIssue {issueId : Uuid} {body : Issues.IssueUpdate}
    (hu : D.Stranger user.id) :
    D.Blind (Issues.updateIssue O issueId user body) := by
  apply blind_requireMembership_bind hu
  intro hO m
  apply blind_getIssue_bind hO
  intro issue _ horganization _
  refine Prog.alike_bind (blind_optimisticUpdate (horganization ▸ hO)
    fun x r => ?_) fun _ => trivial
  exact Issues.IssueUpdate.apply_same

theorem blind_changeStatus {issueId : Uuid} {body : Issues.StatusChange}
    (hu : D.Stranger user.id) :
    D.Blind (Issues.changeStatus O issueId user body) := by
  apply blind_requireMembership_bind hu
  intro hO m
  apply blind_getIssue_bind hO
  intro issue _ horganization _
  apply Prog.alike_ensure_bind
  intro _
  refine Prog.alike_bind (blind_optimisticUpdate (horganization ▸ hO)
    fun x r hr => ?_) fun result => ?_
  · obtain rfl := Option.some.inj hr
    exact ⟨rfl, rfl, rfl, rfl⟩
  · exact Prog.alike_bind (blind_audit hO) fun _ => trivial

theorem blind_assign {issueId : Uuid} {body : Issues.Assignment}
    (hu : D.Stranger user.id) :
    D.Blind (Issues.assign O issueId user body) := by
  apply blind_requireMembership_bind hu
  intro hO m
  apply Prog.alike_bind (blind_validateAssignee hO)
  intro _
  apply blind_getIssue_bind hO
  intro issue _ horganization _
  refine Prog.alike_bind (blind_optimisticUpdate (horganization ▸ hO)
    fun x r hr => ?_) fun result => ?_
  · obtain rfl := Option.some.inj hr
    exact ⟨rfl, rfl, rfl, rfl⟩
  apply Prog.alike_bind (blind_audit hO)
  intro _
  exact Prog.alike_bind (blind_notifyAssignee hO) fun _ => trivial

theorem blind_archive {issueId : Uuid} (hu : D.Stranger user.id) :
    D.Blind (Issues.archive O issueId user) := by
  apply blind_requireMembership_bind hu
  intro hO m
  apply blind_getIssue_bind hO
  intro issue _ _ hclear
  apply blind_now_bind
  intro archivedAt
  apply blind_now_bind
  intro updatedAt
  refine Prog.alike_bind ?_ fun _ => trivial
  apply blind_updateKey hclear
  intro x hx _
  exact replaces (by decide) hx rfl (Or.inr fun _ he => he)

/-! ## Listings with a cursor -/

theorem blind_startPosition {P : Platform} {cursor : Option String} :
    D.Blind (startPosition P cursor) := by
  cases cursor with
  | none => trivial
  | some value =>
      refine Prog.alike_ite (fun _ => trivial) fun _ => ?_
      refine Prog.alike_bind ?_ fun position => ?_
      · unfold decodeCursor
        split <;> trivial
      · split <;> trivial

theorem blind_listPage {ρ : Type} {P : Platform} {o : Sorting ρ}
    {stmt : Db → List ρ} {cursor : Option String} {limit : Limit}
    (h : ∀ v v', D.curtain.Aligned v v' → stmt v' = stmt v) :
    D.Blind (listPage P o stmt cursor limit) := by
  apply Prog.alike_bind blind_startPosition
  intro start
  refine Prog.alike_select_bind (fun v v' halign => ?_) fun _ _ _ => trivial
  rw [h v v' halign]

/-- The links of an issue in sight are in sight. -/
theorem joinLabel_eq {v v' : Db} {labelId : Option Uuid} {rows : List Issue}
    (halign : D.curtain.Aligned v v')
    (hrows : ∀ i ∈ rows, D.curtain.Clear .issues (.id i.id)) :
    Issues.joinLabel v' labelId rows = Issues.joinLabel v labelId rows := by
  cases labelId with
  | none => rfl
  | some labelId =>
      refine List.flatMap_congr fun i hi => congrArg (List.map _) ?_
      apply halign.filter_eq (t := Table.issueLabels)
      intro x hx
      refine decide_eq_false fun ⟨hissue, _⟩ => ?_
      obtain ⟨y, hy, hkey⟩ := issue_of_behind hx
      exact hrows i hi y hy (hkey.trans (congrArg Key.id hissue))

theorem blind_listIssues {P : Platform} {filters : Issues.Filters}
    {sort : Issues.SortOrder} {cursor : Option String} {limit : Limit}
    (hu : D.Stranger user.id) :
    D.Blind (Issues.list P O user filters sort cursor limit) := by
  apply blind_requireMembership_bind hu
  intro hO m
  apply blind_listPage
  intro v v' halign
  have hrows : (v' .issues).rows.filter (fun i : Issue =>
      i.organizationId = O ∧ i.archivedAt = none ∧ filters.matches P i) =
      (v .issues).rows.filter fun i : Issue =>
        i.organizationId = O ∧ i.archivedAt = none ∧ filters.matches P i := by
    apply filter_other (t := .issues) halign (by decide) hO
    intro i hi
    exact congrArg some (of_decide_eq_true hi).1
  unfold Issues.listed
  rw [hrows]
  apply joinLabel_eq halign
  intro i hi
  obtain ⟨hmem, hmatch⟩ := List.mem_filter.mp hi
  refine halign.clear_of_mem (t := Table.issues) hmem (sight (by decide) ?_)
  intro hsame
  exact hO ((of_decide_eq_true hmatch).1.symm.trans (Option.some.inj hsame))

theorem blind_listComments {P : Platform} {issueId : Uuid}
    {cursor : Option String} {limit : Limit} (hu : D.Stranger user.id) :
    D.Blind (Comments.list P O issueId user cursor limit) := by
  apply blind_requireMembership_bind hu
  intro hO m
  apply blind_getIssue_bind hO
  intro issue _ _ _
  apply blind_listPage
  intro v v' halign
  apply filter_other (t := .comments) halign (by decide) hO
  intro x hx
  exact congrArg some (of_decide_eq_true hx).2

theorem blind_listAudit {P : Platform} {cursor : Option String}
    {limit : Limit} (hu : D.Stranger user.id) :
    D.Blind (Audit.list P O user cursor limit) := by
  apply blind_requireMembership_bind hu
  intro hO m
  refine Prog.alike_bind (blind_listPage fun v v' halign => ?_)
    fun _ => trivial
  apply filter_other (t := .auditEvents) halign (by decide) hO
  intro e he
  exact of_decide_eq_true he

/-! ## Labels -/

theorem blind_getLabel_bind {α : Type} {labelId : Uuid} {f : Label → Tx α}
    (hO : O ≠ D.organization)
    (h : ∀ l : Label, l.id = labelId →
      D.curtain.Clear .labels (.id l.id) → D.Blind (f l)) :
    D.Blind (Labels.get O labelId >>= f) := by
  simp only [Labels.get, bind_assoc]
  refine blind_selectOne_bind (t := .labels) (by decide) hO
    (fun x hx => ?_) fun x hx hclear => ?_
  · exact congrArg some (of_decide_eq_true hx).2
  · exact h x (of_decide_eq_true hx).1 hclear

theorem blind_createLabel {body : Labels.LabelCreate}
    (hu : D.Stranger user.id) : D.Blind (Labels.create O user body) := by
  apply blind_requireMembership_bind hu
  intro hO m
  apply Prog.alike_freshId_bind
  intro id hid
  refine blind_insertRow_bind (by decide)
    (fun hsame => hO (Option.some.inj hsame)) (Or.inr (clear_id hid))
    (apart_label hO) fun conflict => ?_
  split <;> trivial

theorem blind_listLabels {C : Collation} (hu : D.Stranger user.id) :
    D.Blind (Labels.list C O user) := by
  apply blind_requireMembership_bind hu
  intro hO m
  apply Prog.alike_select
  intro v v' halign
  have hlisted : Labels.listed O v' = Labels.listed O v := by
    apply filter_other (t := .labels) halign (by decide) hO
    intro l hl
    exact congrArg some (of_decide_eq_true hl)
  rw [hlisted]

theorem blind_updateLabel {labelId : Uuid} {body : Labels.LabelCreate}
    (hu : D.Stranger user.id) :
    D.Blind (Labels.update O labelId user body) := by
  apply blind_requireMembership_bind hu
  intro hO m
  apply blind_getLabel_bind hO
  intro label _ hclear
  refine Prog.alike_bind ?_ fun _ => trivial
  refine Prog.alike_ite (fun _ => trivial) fun _ => ?_
  apply blind_updateKey hclear
  intro x hx _
  refine replaces (by decide) hx rfl (Or.inl (apart_label fun hsame => ?_))
  exact ne_of_sight (by decide) (by decide) hx (congrArg some hsame)

/-- The links of a label of another organization are in sight. -/
theorem blind_deleteLabel {labelId : Uuid} (hu : D.Stranger user.id) :
    D.Blind (Labels.delete O labelId user) := by
  apply blind_requireMembership_bind hu
  intro hO m
  apply blind_getLabel_bind hO
  intro label hid hclear
  rw [hid] at hclear
  refine blind_locking_bind ?_ fun rows _ => ?_
  · constructor
    · intro x hx
      exact decide_eq_false fun heq => hclear x hx (congrArg Key.id heq)
    · intro x r _ _ hwrite
      cases hwrite
  refine Prog.alike_bind ?_ fun _ => trivial
  split
  · trivial
  refine blind_locking_bind ?_ fun _ _ => trivial
  constructor
  · intro x hx
    apply decide_eq_false
    intro heq
    obtain ⟨z, hz, hkey⟩ := label_of_behind hx
    exact hclear z hz (hkey.trans (congrArg Key.id heq))
  · intro x r _ _ hwrite
    cases hwrite

theorem blind_checkLabel {labelId : Uuid}
    (hclear : D.curtain.Clear .labels (.id labelId)) :
    D.Blind (Labels.checkLabel labelId) := by
  refine blind_locking_bind ?_ fun rows _ => ?_
  · apply Curtain.inSight_byKey hclear
    intro x r _ _ hlock
    cases hlock
  · split <;> trivial

theorem blind_attach {issueId labelId : Uuid} (hu : D.Stranger user.id) :
    D.Blind (Labels.attach O issueId labelId user) := by
  apply blind_requireMembership_bind hu
  intro hO m
  apply blind_getIssue_bind hO
  intro issue hissue _ hclearIssue
  apply blind_getLabel_bind hO
  intro label hlabel hclearLabel
  rw [hissue] at hclearIssue
  rw [hlabel] at hclearLabel
  apply Curtain.alike_insertRow_bind (sight_link hclearIssue)
    (Or.inr (clear_link hclearIssue)) (apart_nil rfl)
  intro conflict
  refine Prog.alike_bind ?_ fun _ => trivial
  split
  · trivial
  · exact blind_checkLabel hclearLabel

theorem blind_detach {issueId labelId : Uuid} (hu : D.Stranger user.id) :
    D.Blind (Labels.detach O issueId labelId user) := by
  apply blind_requireMembership_bind hu
  intro hO m
  apply blind_getIssue_bind hO
  intro issue hissue _ hclear
  rw [hissue] at hclear
  apply blind_getLabel_bind hO
  intro label _ _
  exact Prog.alike_bind (blind_deleteKey (clear_link hclear)) fun _ => trivial

/-! ## Comments -/

theorem blind_getComment_bind {α : Type} {commentId : Uuid}
    {f : Comment → Tx α} (hO : O ≠ D.organization)
    (h : ∀ x : Comment, D.curtain.Clear .comments (.id x.id) →
      D.Blind (f x)) : D.Blind (Comments.get O commentId >>= f) := by
  simp only [Comments.get, bind_assoc]
  refine blind_selectOne_bind (t := .comments) (by decide) hO
    (fun x hx => ?_) fun x _ hclear => h x hclear
  exact congrArg some (of_decide_eq_true hx).2

theorem blind_createComment {issueId : Uuid} {body : Comments.CommentCreate}
    (hu : D.Stranger user.id) :
    D.Blind (Comments.create O issueId user body) := by
  apply blind_requireMembership_bind hu
  intro hO m
  apply blind_getIssue_bind hO
  intro issue _ _ _
  apply Prog.alike_freshId_bind
  intro id hid
  apply blind_now_bind
  intro createdAt
  refine Prog.alike_bind ?_ fun _ => trivial
  exact blind_insertOrHalt (by decide)
    (fun hsame => hO (Option.some.inj hsame)) (Or.inr (clear_id hid))
    (apart_nil rfl)

theorem blind_updateComment {commentId : Uuid} {body : Comments.CommentCreate}
    (hu : D.Stranger user.id) :
    D.Blind (Comments.update O commentId user body) := by
  apply blind_requireMembership_bind hu
  intro hO m
  apply blind_getComment_bind hO
  intro row hclear
  apply Prog.alike_ensure_bind
  intro _
  apply blind_now_bind
  intro editedAt
  refine Prog.alike_bind ?_ fun _ => trivial
  apply blind_updateKey hclear
  intro x hx _
  exact replaces (by decide) hx rfl (Or.inl (apart_nil rfl))

theorem blind_deleteComment {commentId : Uuid} (hu : D.Stranger user.id) :
    D.Blind (Comments.delete O commentId user) := by
  apply blind_requireMembership_bind hu
  intro hO m
  apply blind_getComment_bind hO
  intro row hclear
  apply Prog.alike_ensure_bind
  intro _
  exact Prog.alike_bind (blind_deleteKey hclear) fun _ => trivial

/-! ## Requests -/

theorem blind_currentUser_bind {α : Type} {authorization : Authorization}
    {f : User → Tx α}
    (h : ∀ (u : User) (sessionId : Uuid),
      authorization = .claims u.id sessionId → D.Blind (f u)) :
    D.Blind (currentUser authorization >>= f) := by
  cases authorization with
  | missing => trivial
  | invalid => trivial
  | claims userId sessionId =>
      simp only [currentUser, currentPrincipal, bind_assoc, pure_bind]
      refine Prog.alike_select_bind (fun v v' halign => ?_) fun v v' _ => ?_
      · have husers : v' .users = v .users := shared_same halign (by decide)
        have hsessions : v' .authSessions = v .authSessions :=
          shared_same halign (by decide)
        simp only [principalRows, husers, hsessions]
      apply blind_scalarOneOrNone_bind
      intro o ho
      apply Prog.alike_require_bind
      intro u hu
      obtain rfl := (of_mem_principalRows (ho u hu)).2
      exact h u sessionId rfl

section Endpoints

variable {A : Deployment} {B : Divide A.tokens} {client : Auth.Client}
  {endpoint : Endpoint}

theorem blind_handle (hu : B.Stranger user.id)
    (haccepts : ¬endpoint.Accepts A.tokens B.organization B.left)
    (haccepts' : ¬endpoint.Accepts A.tokens B.organization B.right) :
    B.Blind (endpoint.handle A client user) := by
  cases endpoint with
  | createOrganization body => exact Prog.alike_map blind_create
  | listOrgs => exact Prog.alike_map (blind_listOrgs hu)
  | getOrg O => exact Prog.alike_map (blind_getOrg hu)
  | updateOrg O body => exact Prog.alike_map (blind_update hu)
  | members O => exact Prog.alike_map (blind_members hu)
  | changeRole O memberId body => exact Prog.alike_map (blind_changeRole hu)
  | removeMember O memberId => exact Prog.alike_map (blind_removeMember hu)
  | invite O body => exact Prog.alike_map (blind_inviteLimited hu)
  | invitations O => exact Prog.alike_map (blind_invitations hu)
  | revokeInvitation O invitationId =>
      exact Prog.alike_map (blind_revokeInvitation hu)
  | acceptInvitation body =>
      refine Prog.alike_map (blind_accept fun x hx htoken => ?_)
      have horganization :=
        Option.some.inj (organization_of_behind (by decide) hx)
      rcases hx.mem with hmem | hmem
      · exact haccepts ⟨x, hmem, horganization, htoken⟩
      · exact haccepts' ⟨x, hmem, horganization, htoken⟩
  | createProject O body => exact Prog.alike_map (blind_createProject hu)
  | listProjects O includeArchived =>
      exact Prog.alike_map (blind_listProjects hu)
  | getProject O projectId => exact Prog.alike_map (blind_readProject hu)
  | updateProject O projectId body =>
      exact Prog.alike_map (blind_updateProject hu)
  | setArchived O projectId archived =>
      exact Prog.alike_map (blind_setArchived hu)
  | createIssue O body => exact Prog.alike_map (blind_createIssue hu)
  | listIssues O filters sort cursor limit =>
      exact Prog.alike_map (blind_listIssues hu)
  | getIssue O issueId => exact Prog.alike_map (blind_readIssue hu)
  | updateIssue O issueId body => exact Prog.alike_map (blind_updateIssue hu)
  | changeStatus O issueId body =>
      exact Prog.alike_map (blind_changeStatus hu)
  | assign O issueId body => exact Prog.alike_map (blind_assign hu)
  | archiveIssue O issueId => exact Prog.alike_map (blind_archive hu)
  | createLabel O body => exact Prog.alike_map (blind_createLabel hu)
  | listLabels O => exact Prog.alike_map (blind_listLabels hu)
  | updateLabel O labelId body => exact Prog.alike_map (blind_updateLabel hu)
  | deleteLabel O labelId => exact Prog.alike_map (blind_deleteLabel hu)
  | attach O issueId labelId => exact Prog.alike_map (blind_attach hu)
  | detach O issueId labelId => exact Prog.alike_map (blind_detach hu)
  | createComment O issueId body =>
      exact Prog.alike_map (blind_createComment hu)
  | listComments O issueId cursor limit =>
      exact Prog.alike_map (blind_listComments hu)
  | updateComment O commentId body =>
      exact Prog.alike_map (blind_updateComment hu)
  | deleteComment O commentId => exact Prog.alike_map (blind_deleteComment hu)
  | listAudit O cursor limit => exact Prog.alike_map (blind_listAudit hu)

theorem blind_serve {u sessionId : Uuid} (hu : B.Stranger u)
    (haccepts : ¬endpoint.Accepts A.tokens B.organization B.left)
    (haccepts' : ¬endpoint.Accepts A.tokens B.organization B.right) :
    B.Blind (endpoint.serve A client (.claims u sessionId)) := by
  apply blind_currentUser_bind
  intro user _ hclaims
  obtain ⟨rfl, _⟩ := Authorization.claims.inj hclaims
  exact blind_handle hu haccepts haccepts'

end Endpoints

end Workstream.Tracker.Divide
