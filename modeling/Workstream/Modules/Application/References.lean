import Workstream.Modules.Application.Limits
import Workstream.ReadCommitted.References

/-!
# Foreign keys

What the rows of the tables name: users, organizations, projects and issues,
of which none is ever deleted.  The services insert a row only after they have
read what it names, so that the foreign keys of the schema hold in every state
of every run.
-/

namespace Workstream.Application

open ReadCommitted References

attribute [local simp] Prog.locking requireMembership

/-! ## The schema -/

/-- The tables from which no row is deleted, among those that rows name. -/
def lasting : Table → Bool
  | .users => true
  | .organizations => true
  | .projects => true
  | .issues => true
  | _ => false

/-- The foreign keys of a row into these tables, and the issue in the payload
of a notification.  The label of a link is none of them: labels are deleted. -/
@[simp] def foreignKeys : (t : Table) → Row t → List (Table × Key)
  | .memberships, r =>
      [(.organizations, .id r.organizationId), (.users, .id r.userId)]
  | .invitations, r =>
      [(.organizations, .id r.organizationId), (.users, .id r.inviterId)]
  | .projects, r => [(.organizations, .id r.organizationId)]
  | .issues, r =>
      [(.organizations, .id r.organizationId), (.projects, .id r.projectId),
        (.users, .id r.reporterId)] ++
        r.assigneeId.toList.map fun u => (.users, .id u)
  | .labels, r => [(.organizations, .id r.organizationId)]
  | .issueLabels, r => [(.issues, .id r.issueId)]
  | .comments, r =>
      [(.organizations, .id r.organizationId), (.issues, .id r.issueId),
        (.users, .id r.authorId)]
  | .notifications, r =>
      [(.users, .id r.userId), (.issues, .id r.payload)] ++
        r.organizationId.toList.map fun O => (.organizations, .id O)
  | .auditEvents, r =>
      (r.actorId.toList.map fun u => (.users, .id u)) ++
        r.organizationId.toList.map fun O => (.organizations, .id O)
  | .authSessions, r => [(.users, .id r.userId)]
  | .oneTimeTokens, r => [(.users, .id r.userId)]
  | _, _ => []

theorem lasting_of_mem {t : Table} (r : Row t) :
    ∀ x ∈ foreignKeys t r, lasting x.1 = true := by
  cases t
  all_goals simp [lasting]
  all_goals aesop

/-- The foreign keys of the schema, but for the one from the links of labels
into the labels. -/
def keys : References schema where
  refs := fun {t} r => foreignKeys t r
  lasting := lasting
  lasts := lasting_of_mem

/-- What a client knows that has read a row. -/
@[simp] def known (t : Table) (r : Row t) : List (Table × Key) :=
  foreignKeys t r ++ if lasting t = true then [(t, schema.key r)] else []

/-- The program inserts only rows whose foreign keys it knows. -/
abbrev Upheld {α : Type} (prog : Tx α) (F : List (Table × Key)) : Prop :=
  keys.Upholds (fun _ _ => True) prog F

section Rules

variable {α : Type} {F : List (Table × Key)}

@[simp] theorem keys_refs {t : Table} (r : Row t) :
    keys.refs r = foreignKeys t r := rfl

@[simp] theorem keys_lasting (t : Table) : keys.lasting t = lasting t := rfl

theorem keys_facts {t : Table} (r : Row t) : keys.facts [r] = known t r := by
  simp only [facts, List.flatMap_cons, List.flatMap_nil, List.append_nil]
  rfl

@[simp] theorem upholds_now {P : List (Table × Key) → Instant → Prop} :
    keys.Upholds P now F ↔ ∀ n, P F n := Iff.rfl

@[simp] theorem upholds_scalarOneOrNone {rows : List α}
    {P : List (Table × Key) → Option α → Prop} :
    keys.Upholds P (scalarOneOrNone rows) F ↔
      (rows = [] → P F none) ∧ ∀ r, rows = [r] → P F (some r) := by
  match rows with
  | [] => simp [scalarOneOrNone]
  | [r] => simp [scalarOneOrNone]
  | _ :: _ :: _ => simp [scalarOneOrNone]

@[simp] theorem upholds_audit {actorId entityId : Uuid}
    {organizationId : Option Uuid} {action entityType : String}
    {metadata : Metadata} {requestId : Option String}
    {P : List (Table × Key) → Unit → Prop} :
    keys.Upholds P (audit actorId organizationId action entityType entityId
      metadata requestId) F ↔
      ((Table.users, Key.id actorId) ∈ F ∧
        ∀ O ∈ organizationId, (Table.organizations, Key.id O) ∈ F) ∧
        P F () := by
  simp [audit, lasting]

@[simp] theorem upholds_enforceRateLimit {scope client account : String}
    {limit : ℕ} {P : List (Table × Key) → Unit → Prop} (h : P F ()) :
    keys.Upholds P (enforceRateLimit scope client account limit) F := by
  simp [enforceRateLimit, h]

/-- A row that has been read is there, and so is what it names. -/
theorem known_of_mem {s : Db} (hs : keys.Intact s) {t : Table} {r : Row t}
    (hr : r ∈ (s t).rows) :
    ∀ x ∈ known t r, keys.lasting x.1 = true ∧ s.Present x := by
  intro x hx
  refine ⟨lasting_of_mem_facts (keys_facts r ▸ hx), ?_⟩
  rw [known, List.mem_append] at hx
  rcases hx with hx | hx
  · exact hs t r hr x hx
  · split at hx
    · rw [List.mem_singleton.mp hx]
      exact Store.present_of_mem hr
    · cases hx

/-- A row that is read by its primary key. -/
theorem upholds_get {t : Table} {k : Key} (new : List (Table × Key))
    {P : List (Table × Key) → Option (Row t) → Prop} (hnone : P F none)
    (hnew : ∀ r : Row t, schema.key r = k → new ⊆ known t r)
    (hsome : ∀ r : Row t, schema.key r = k → P (new ++ F) (some r)) :
    keys.Upholds P (get t k) F := by
  rw [get, upholds_select]
  intro s hs _
  cases hr : (s t).lookup k with
  | none => exact ⟨[], by simp, hnone⟩
  | some r =>
      have hk := Relation.key_of_lookup hr
      exact ⟨new, fun x hx => known_of_mem hs (Relation.mem_of_lookup hr) x
        (hnew r hk hx), hsome r hk⟩

/-- A row that a statement looks for in its table, or none. -/
theorem upholds_first {t : Table} {pred : Row t → Bool}
    (new : Row t → List (Table × Key))
    {P : List (Table × Key) → Option (Row t) → Prop}
    (hnew : ∀ r, pred r = true → new r ⊆ known t r) (hnone : P F none)
    (hsome : ∀ r, pred r = true → P (new r ++ F) (some r)) :
    keys.Upholds P (do
      let rows ← Prog.select fun db => (db t).rows.filter pred
      scalarOneOrNone rows) F := by
  rw [upholds_bind, upholds_select]
  intro s hs _
  cases hrows : (s t).rows.filter pred with
  | nil => exact ⟨[], by simp, hnone⟩
  | cons r rows =>
      have hr : r ∈ (s t).rows.filter pred := hrows ▸ List.mem_cons_self
      obtain ⟨hmem, hpred⟩ := List.mem_filter.mp hr
      cases rows with
      | nil =>
          exact ⟨new r, fun x hx => known_of_mem hs hmem x (hnew r hpred hx),
            hsome r hpred⟩
      | cons r' rows => exact ⟨[], by simp, trivial⟩

/-- A row that a statement looks for in its table, or an error. -/
theorem upholds_find {t : Table} {pred : Row t → Bool} {e : AppError}
    (new : List (Table × Key)) {P : List (Table × Key) → Row t → Prop}
    (hnew : ∀ r, pred r = true → new ⊆ known t r)
    (h : ∀ r, pred r = true → P (new ++ F) r) :
    keys.Upholds P (do
      let rows ← Prog.select fun db => (db t).rows.filter pred
      let r ← scalarOneOrNone rows
      Prog.require r e) F := by
  rw [← bind_assoc, upholds_bind]
  apply upholds_first (fun _ => new) hnew
  · simp
  · intro r hr
    simpa using h r hr

theorem upholds_requireMembership {O userId : Uuid} {roles : List Role}
    {P : List (Table × Key) → Membership → Prop}
    (h : ∀ m, P ([(.organizations, .id O), (.users, .id userId)] ++ F) m) :
    keys.Upholds P (requireMembership O userId roles) F := by
  rw [requireMembership, upholds_bind]
  apply upholds_get [(.organizations, .id O), (.users, .id userId)]
  · simp
  · intro m hm
    have hm' : m.organizationId = O ∧ m.userId = userId := by
      simpa [membershipKey, schema, primaryKey] using hm
    simp [hm']
  · intro m _
    simpa using fun _ => h m

theorem upholds_getProject {O projectId : Uuid}
    {P : List (Table × Key) → Project → Prop}
    (h : ∀ x : Project, x.id = projectId →
      P ([(.projects, .id projectId)] ++ F) x) :
    keys.Upholds P (Projects.getProject O projectId) F := by
  apply upholds_find (t := .projects) [(.projects, .id projectId)]
  · intro x hx
    have hid : x.id = projectId ∧ _ := of_decide_eq_true hx
    simp [lasting, schema, primaryKey, hid.1]
  · intro x hx
    exact h x (of_decide_eq_true hx).1

theorem upholds_getIssue {O issueId : Uuid}
    {P : List (Table × Key) → Issue → Prop}
    (h : ∀ x : Issue, x.id = issueId →
      P ([(.issues, .id issueId)] ++ F) x) :
    keys.Upholds P (Issues.getIssue O issueId) F := by
  apply upholds_find (t := .issues) [(.issues, .id issueId)]
  · intro x hx
    have hid : x.id = issueId ∧ _ := of_decide_eq_true hx
    simp [lasting, schema, primaryKey, hid.1]
  · intro x hx
    exact h x (of_decide_eq_true hx).1

theorem upholds_getLabel {O labelId : Uuid}
    {P : List (Table × Key) → Label → Prop} (h : ∀ x, P F x) :
    keys.Upholds P (Labels.get O labelId) F := by
  apply upholds_find (t := .labels) []
  · simp
  · exact fun x _ => h x

theorem upholds_lockMember {O userId : Uuid} {held : Option Membership}
    {P : List (Table × Key) → Membership → Prop}
    (h : ∀ new m, P (new ++ F) m) :
    keys.Upholds P (Organizations.lockMember O userId held) F := by
  simp only [Organizations.lockMember, upholds_bind, Prog.locking,
    upholds_scan, settles_byKey_lock, upholds_ret, upholds_require, true_and]
  intro rows _
  cases held with
  | some m =>
      rintro _ ⟨⟩
      exact h _ m
  | none =>
      apply upholds_get (t := .memberships) []
      · simp
      · simp
      · rintro m _ _ ⟨⟩
        exact h _ m

theorem upholds_protectOwner {O : Uuid} {member : Membership}
    {P : List (Table × Key) → Unit → Prop} (h : P F ()) :
    keys.Upholds P (Organizations.protectOwner O member) F := by
  simp only [Organizations.protectOwner, upholds_ite, upholds_bind,
    upholds_ensure, upholds_pure]
  exact ⟨fun _ => upholds_read fun _ _ => h, fun _ => h⟩

/-- The principal is a user. -/
theorem upholds_currentPrincipal {authorization : Authorization}
    {P : List (Table × Key) → Principal → Prop}
    (h : ∀ principal, P ([(.users, .id principal.user.id)] ++ F) principal) :
    keys.Upholds P (currentPrincipal authorization) F := by
  cases authorization with
  | missing | invalid => trivial
  | claims userId sessionId =>
      rw [currentPrincipal, upholds_bind, upholds_select]
      intro s hs _
      cases hrows : principalRows userId sessionId s with
      | nil => exact ⟨[], by simp, trivial⟩
      | cons user rest =>
          have hmem : user ∈ (s .users).rows :=
            (of_mem_principalRows (hrows ▸ List.mem_cons_self)).1
          refine ⟨[(.users, .id user.id)], ?_, ?_⟩
          · intro x hx
            exact known_of_mem hs hmem x hx
          · cases rest with
            | nil => simpa using h { user, sessionId }
            | cons _ _ => trivial

theorem upholds_currentUser {authorization : Authorization}
    {P : List (Table × Key) → User → Prop}
    (h : ∀ user, P ([(.users, .id user.id)] ++ F) user) :
    keys.Upholds P (currentUser authorization) F := by
  rw [currentUser, upholds_bind]
  exact upholds_currentPrincipal fun principal => h principal.user

theorem upholds_userByEmail {email : String}
    {P : List (Table × Key) → Option User → Prop} (hnone : P F none)
    (hsome : ∀ user : User, P ([(.users, .id user.id)] ++ F) (some user)) :
    keys.Upholds P (Auth.userByEmail email) F := by
  apply upholds_first (t := .users) fun user => [(.users, .id user.id)]
  · intro user _ x hx
    exact hx
  · exact hnone
  · exact fun user _ => hsome user

/-- An assignee is a user. -/
theorem upholds_validateAssignee {O : Uuid} {assigneeId : Option Uuid}
    {P : List (Table × Key) → Unit → Prop}
    (h : P ((assigneeId.toList.map fun u => (.users, .id u)) ++ F) ()) :
    keys.Upholds P (Issues.validateAssignee O assigneeId) F := by
  cases assigneeId with
  | none => exact h
  | some assigneeId =>
      rw [Issues.validateAssignee, upholds_bind, upholds_select]
      intro s hs _
      cases hmembers : Issues.activeMembers O assigneeId s with
      | nil => exact ⟨[], by simp, trivial⟩
      | cons member rest =>
          have hmem : member ∈ Issues.activeMembers O assigneeId s :=
            hmembers ▸ List.mem_cons_self
          simp only [Issues.activeMembers, List.mem_flatMap, List.mem_filter,
            decide_eq_true_eq] at hmem
          obtain ⟨m, ⟨hm, _, huser⟩, _⟩ := hmem
          refine ⟨[(.users, .id assigneeId)], ?_, by simpa using h⟩
          intro x hx
          apply known_of_mem hs hm
          rw [List.mem_singleton.mp hx, ← huser]
          simp

theorem upholds_takeNumber {projectId : Uuid}
    {P : List (Table × Key) → ℕ → Prop}
    (h : ∀ (p : Project) n, P (known .projects p ++ F) n) :
    keys.Upholds P (Issues.takeNumber projectId) F := by
  simp only [Issues.takeNumber, Prog.locking, upholds_bind, upholds_scan]
  refine ⟨fun p _ x hx => .inl hx, fun rows _ => ?_⟩
  rw [upholds_ret]
  split
  · next p _ => exact keys_facts (t := .projects) p ▸ h p _
  · trivial

/-- The row that a body describes, unless a constraint rejects it. -/
theorem settles_writeOrReject {t : Table} {pred : Row t → Bool}
    {values : Row t → Option (Row t)} {skipLocked : Bool} {limit : Option ℕ}
    {order : Row t → Row t → Bool}
    (h : ∀ r r', values r = some r' →
      ∀ x ∈ foreignKeys t r', x ∈ foreignKeys t r ∨ x ∈ F) :
    keys.Settles (σ := schema) (t := t)
      ⟨pred, fun r => Projects.writeOrReject (values r), skipLocked, limit,
        order⟩ F := by
  intro r hr
  dsimp only
  cases hvalues : values r with
  | none => trivial
  | some r' => exact h r r' hvalues

/-- The update writes no other names than the ones that are known. -/
theorem upholds_optimisticUpdate {issue : Issue} {expected : ℕ}
    {values : Issue → Option Issue} {P : List (Table × Key) → Issue → Prop}
    (hvalues : ∀ i i', values i = some i' → ∀ x ∈ foreignKeys .issues i',
      x ∈ foreignKeys .issues i ∨ x ∈ F)
    (h : ∀ i, P (known .issues i ++ F) i) :
    keys.Upholds P (Issues.optimisticUpdate issue expected values) F := by
  simp only [Issues.optimisticUpdate, Prog.locking, upholds_bind, upholds_now,
    upholds_scan, upholds_ret, upholds_scalarOneOrNone, upholds_require]
  refine fun time => ⟨?_, fun rows _ => ⟨by simp, ?_⟩⟩
  · apply settles_writeOrReject (t := .issues)
    intro i i' hi x hx
    obtain ⟨v, hv, rfl⟩ := Option.map_eq_some_iff.mp hi
    exact hvalues i v hv x hx
  · rintro i rfl _ ⟨⟩
    exact keys_facts (t := .issues) i ▸ h i

theorem upholds_notifyAssignee {O issueId : Uuid} {actor : User}
    {assigneeId : Option Uuid} {P : List (Table × Key) → Unit → Prop}
    (hassignee : ∀ u ∈ assigneeId, (.users, .id u) ∈ F)
    (hissue : (.issues, .id issueId) ∈ F)
    (horganization : (.organizations, .id O) ∈ F) (h : P F ()) :
    keys.Upholds P (Issues.notifyAssignee O issueId actor assigneeId) F := by
  cases assigneeId with
  | none => exact h
  | some userId =>
      simp [Issues.notifyAssignee, hassignee, hissue, horganization, h, lasting]

end Rules

/-! ## Requests that add no names -/

/-- The columns that may be altered are no foreign keys, but for an assignee. -/
theorem foreignKeys_fixed {t : Table} (ht : t ≠ .issues) (r : Row t) :
    foreignKeys t (fixed t r) = foreignKeys t r := by
  cases t with
  | issues => exact absurd rfl ht
  | _ => rfl

theorem foreignKeys_of_persists {E : Environment} {request : Request}
    (hassigns : ∀ u, ¬request.Assigns u) {t : Table} {r r' : Row t}
    (h : Persists t r r') (haltered : Altered E request t r r') :
    foreignKeys t r' = foreignKeys t r := by
  by_cases ht : t = .issues
  · subst ht
    have hassignee : r'.assigneeId = r.assigneeId :=
      haltered.resolve_right (hassigns _)
    have hfixed := h.fixed
    simp only [fixed, Issue.mk.injEq] at hfixed
    simp [hassignee, hfixed]
  · rw [← foreignKeys_fixed ht r', h.fixed, foreignKeys_fixed ht r]

/-- A request that adds no rows with foreign keys, and assigns nothing. -/
theorem upheld_of_follows {E : Environment} {request : Request}
    (hadds : request.adds ⊆ [.users, .organizations, .outboxEvents])
    (hassigns : ∀ u, ¬request.Assigns u) (F : List (Table × Key)) :
    Upheld (serve E request) F := by
  apply upholds_of_follows (follows_serve E request)
  · intro t r hr
    have ht := hadds hr.1
    simp only [List.mem_cons, List.not_mem_nil, or_false] at ht
    rcases ht with rfl | rfl | rfl
    all_goals rfl
  · intro t r r' hr x hx
    rwa [keys_refs, ← foreignKeys_of_persists hassigns hr.2.1 hr.2.2]
  · intro t r hr
    have ht := mem_erasable hr
    simp only [erasable, List.mem_cons, List.not_mem_nil, or_false] at ht
    rcases ht with rfl | rfl | rfl | rfl
    all_goals rfl

/-! ## Requests that add rows with foreign keys -/

section Tracker

variable {user : User} {O : Uuid}

/-- A user whose token is good may go on with the program. -/
abbrev UpheldBy (user : User) {α : Type} (prog : Tx α) : Prop :=
  keys.Upholds (fun _ _ => True) prog [(.users, .id user.id)]

theorem upheld_createOrganization {body requestId} :
    UpheldBy user (Organizations.create user body requestId) := by
  simp only [UpheldBy, Organizations.create, Prog.insertRow, upholds_bind,
    upholds_freshId, upholds_now, upholds_insert, upholds_ret]
  intro id _ _
  refine ⟨by simp, fun e => ?_, ?_⟩
  · split <;> simp_all
  · simp [lasting, primaryKey]

theorem upheld_updateOrg {body} :
    UpheldBy user (Organizations.update O user body) := by
  rw [Organizations.update, UpheldBy, upholds_bind]
  apply upholds_requireMembership
  intro _
  rw [upholds_bind]
  apply upholds_get []
  · simp
  · simp
  · simp

theorem upheld_changeRole {memberId body} :
    UpheldBy user (Organizations.changeRole O memberId user body) := by
  rw [Organizations.changeRole, UpheldBy, upholds_bind]
  apply upholds_requireMembership
  intro _
  rw [upholds_bind]
  apply upholds_lockMember
  intro new member
  rw [upholds_bind, upholds_ite]
  refine ⟨fun _ => ?_, fun _ => ?_⟩
  · apply upholds_protectOwner
    simp
  · simp

theorem upheld_removeMember {memberId} :
    UpheldBy user (Organizations.removeMember O memberId user) := by
  rw [Organizations.removeMember, UpheldBy, upholds_bind]
  apply upholds_requireMembership
  intro _
  rw [upholds_bind]
  apply upholds_lockMember
  intro new member
  rw [upholds_bind, upholds_ensure]
  intro _
  rw [upholds_bind]
  apply upholds_protectOwner
  simp [lasting]

theorem upheld_inviteLimited {H : TokenHash} {settings : Settings}
    {client : Auth.Client} {body} :
    UpheldBy user
      (Organizations.inviteLimited H settings client O user body) := by
  rw [Organizations.inviteLimited, UpheldBy, upholds_bind]
  apply upholds_enforceRateLimit
  rw [Organizations.invite, upholds_bind]
  apply upholds_requireMembership
  simp [lasting]

theorem upheld_revokeInvitation {invitationId} :
    UpheldBy user
      (Organizations.revokeInvitation O invitationId user) := by
  rw [Organizations.revokeInvitation, UpheldBy, upholds_bind]
  apply upholds_requireMembership
  simp

theorem upheld_accept {H : TokenHash} {body} :
    UpheldBy user (Organizations.accept H user body) := by
  simp only [Organizations.accept, Prog.locking, UpheldBy, upholds_bind,
    upholds_scan, settles_lock, upholds_ret, upholds_scalarOneOrNone,
    upholds_now, upholds_require, upholds_ensure, upholds_ite, upholds_pure]
  refine ⟨trivial, fun rows _ => ⟨by simp, ?_⟩⟩
  rintro invitation rfl _ _ ⟨⟩ _ _
  refine ⟨fun _ => trivial, fun _ => ?_⟩
  rw [keys_facts (t := .invitations) invitation, Organizations.join,
    upholds_bind]
  apply upholds_get []
  · simp
  · simp
  · simp

theorem upheld_createProject {body} :
    UpheldBy user (Projects.createProject O user body) := by
  rw [Projects.createProject, UpheldBy, upholds_bind]
  apply upholds_requireMembership
  simp only [Prog.insertRow, upholds_bind, upholds_freshId, upholds_now,
    upholds_insert, upholds_ret]
  refine fun _ id _ => ⟨by simp, fun e => ?_, by simp⟩
  split <;> simp_all

theorem upheld_setArchived {projectId archived} :
    UpheldBy user (Projects.setArchived O projectId user archived) := by
  rw [Projects.setArchived, UpheldBy, upholds_bind]
  apply upholds_requireMembership
  intro _
  rw [upholds_bind]
  apply upholds_getProject
  simp

theorem upheld_createIssue {body} :
    UpheldBy user (Issues.createIssue O user body) := by
  rw [Issues.createIssue, UpheldBy, upholds_bind]
  apply upholds_requireMembership
  intro _
  rw [upholds_bind]
  apply upholds_getProject
  intro project hproject
  rw [upholds_bind, upholds_ensure]
  intro _
  rw [upholds_bind]
  apply upholds_validateAssignee
  rw [upholds_bind]
  apply upholds_takeNumber
  intro _ number
  simp only [upholds_bind, upholds_freshId, upholds_now, upholds_insertOrHalt]
  intro id _ _
  refine ⟨by simp +contextual, ?_⟩
  rw [upholds_audit]
  refine ⟨by simp, ?_⟩
  apply upholds_notifyAssignee
  all_goals simp +contextual [lasting, primaryKey]

theorem upheld_changeStatus {issueId body} :
    UpheldBy user (Issues.changeStatus O issueId user body) := by
  rw [Issues.changeStatus, UpheldBy, upholds_bind]
  apply upholds_requireMembership
  intro _
  rw [upholds_bind]
  apply upholds_getIssue
  intro issue _
  rw [upholds_bind, upholds_ensure]
  intro _
  rw [upholds_bind]
  apply upholds_optimisticUpdate
  · rintro i _ ⟨⟩ x hx
    exact .inl hx
  · simp

theorem upheld_assign {issueId body} :
    UpheldBy user (Issues.assign O issueId user body) := by
  rw [Issues.assign, UpheldBy, upholds_bind]
  apply upholds_requireMembership
  intro _
  rw [upholds_bind]
  apply upholds_validateAssignee
  rw [upholds_bind]
  apply upholds_getIssue
  intro issue hissue
  rw [upholds_bind]
  apply upholds_optimisticUpdate
  · rintro i _ ⟨⟩ x hx
    simp only [foreignKeys, List.mem_append] at hx ⊢
    tauto
  · intro i
    rw [upholds_bind, upholds_audit]
    refine ⟨by simp, ?_⟩
    rw [upholds_bind]
    apply upholds_notifyAssignee
    all_goals simp +contextual [hissue]

theorem upheld_createLabel {body} :
    UpheldBy user (Labels.create O user body) := by
  rw [Labels.create, UpheldBy, upholds_bind]
  apply upholds_requireMembership
  simp only [Prog.insertRow, upholds_bind, upholds_freshId, upholds_insert,
    upholds_ret]
  refine fun _ id => ⟨by simp, fun e => ?_, by simp⟩
  split <;> simp_all

theorem upheld_attach {issueId labelId} :
    UpheldBy user (Labels.attach O issueId labelId user) := by
  rw [Labels.attach, UpheldBy, upholds_bind]
  apply upholds_requireMembership
  intro _
  rw [upholds_bind]
  apply upholds_getIssue
  intro _ _
  rw [upholds_bind]
  apply upholds_getLabel
  simp [Prog.insertRow, Labels.checkLabel]
  intro _ rows _
  cases rows <;> trivial

theorem upheld_createComment {issueId body} :
    UpheldBy user (Comments.create O issueId user body) := by
  rw [Comments.create, UpheldBy, upholds_bind]
  apply upholds_requireMembership
  intro _
  rw [upholds_bind]
  apply upholds_getIssue
  simp

end Tracker

section Account

variable {H : TokenHash} {settings : Settings} {client : Auth.Client}
  {authorization : Authorization} {F : List (Table × Key)}

attribute [local simp] Auth.accessToken Auth.pair Auth.revokeWhere
  Auth.issueToken

theorem upheld_register {body} :
    Upheld (Auth.register H body client) F := by
  simp only [Auth.register, Prog.insertRow, upholds_bind, upholds_callOut,
    upholds_freshId, upholds_insert, upholds_ret]
  refine fun _ id => ⟨by simp, fun e => ?_, ?_⟩
  · simp
  · simp [lasting, primaryKey]

theorem upheld_login {body} :
    Upheld (Auth.login H settings body client) F := by
  rw [Auth.login, Upheld, upholds_bind]
  apply upholds_enforceRateLimit
  rw [upholds_bind]
  apply upholds_userByEmail
  · simp
  · simp

theorem upheld_refresh {body} :
    Upheld (Auth.refresh H settings body) F := by
  simp only [Auth.refresh, Prog.locking, Upheld, upholds_bind, upholds_scan,
    settles_lock, upholds_ret, upholds_scalarOneOrNone, upholds_now,
    upholds_require, upholds_ite, upholds_ensure]
  refine ⟨trivial, fun rows _ => ⟨by simp, ?_⟩⟩
  rintro session rfl _ _ ⟨⟩
  rw [keys_facts (t := .authSessions) session]
  refine ⟨fun _ => by simp, fun _ _ => ?_⟩
  apply upholds_get []
  · simp
  · simp
  · intro user _
    split
    · simp
    · simp [Auth.exchange]

theorem upheld_resendVerification :
    Upheld (Auth.resendVerification H settings authorization client) F := by
  rw [Auth.resendVerification, Upheld, upholds_bind]
  apply upholds_currentUser
  intro user
  rw [upholds_bind]
  apply upholds_enforceRateLimit
  simp

theorem upheld_requestReset {body} :
    Upheld (Auth.requestReset H settings body client) F := by
  rw [Auth.requestReset, Upheld, upholds_bind]
  apply upholds_enforceRateLimit
  rw [upholds_bind]
  apply upholds_userByEmail
  · simp
  · simp

end Account

section Seed

variable {uuid5 : String → Uuid} {F : List (Table × Key)}

theorem upheld_resetEmails (existing : List User)
    (accounts : List (String × String × String))
    {P : List (Table × Key) → Unit → Prop} (h : ∀ F, P F ()) :
    keys.Upholds P (Seed.resetEmails uuid5 existing accounts) F := by
  induction accounts generalizing F with
  | nil => exact h F
  | cons x accounts ih =>
      obtain ⟨name, email, displayName⟩ := x
      rw [Seed.resetEmails, upholds_bind]
      split
      · simp [ih]
      · exact ih

theorem upholds_demoAccounts (accounts : List (String × String × String))
    {P : List (Table × Key) → List User → Prop}
    (h : ∀ users : List User,
      users.map (·.id) = accounts.map (Seed.uid uuid5 ·.1) → P F users) :
    keys.Upholds P (Seed.demoAccounts uuid5 accounts) F := by
  induction accounts generalizing P with
  | nil => exact h [] rfl
  | cons x accounts ih =>
      obtain ⟨name, email, displayName⟩ := x
      simp only [Seed.demoAccounts, upholds_bind, upholds_callOut, upholds_pure]
      intro n
      apply ih
      intro users husers
      apply h
      simp [husers]

/-- Rows whose foreign keys are known are known themselves afterwards. -/
theorem upholds_insertAll {t : Table} (rows : List (Row t))
    {P : List (Table × Key) → Unit → Prop}
    (hrefs : ∀ r ∈ rows, foreignKeys t r ⊆ F)
    (h : ∀ G, F ⊆ G → (∀ r ∈ rows, known t r ⊆ G) → P G ()) :
    keys.Upholds P (Seed.insertAll t rows) F := by
  induction rows generalizing F with
  | nil => exact h F (fun _ hx => hx) (by simp)
  | cons r rows ih =>
      rw [Seed.insertAll, upholds_bind, upholds_insertOrHalt]
      have hr := hrefs r List.mem_cons_self
      refine ⟨hr, ?_⟩
      apply ih
      · intro x hx y hy
        exact List.mem_append_right _ (hrefs x (List.mem_cons_of_mem r hx) hy)
      · intro G hG hrows
        apply h G fun x hx => hG (List.mem_append_right _ hx)
        intro x hx
        rcases List.mem_cons.mp hx with rfl | hx
        · intro y hy
          apply hG
          rw [known, List.mem_append] at hy
          rw [List.mem_append]
          exact hy.symm.imp_right (hr ·)
        · exact hrows x hx

theorem upholds_insertIssues {project : Project} {reporterId assigneeId : Uuid}
    (specs : List (ℕ × String × IssueStatus × Priority))
    {P : List (Table × Key) → List Issue → Prop}
    (hrefs : [(.organizations, .id project.organizationId),
      (.projects, .id project.id), (.users, .id reporterId),
      (.users, .id assigneeId)] ⊆ F)
    (h : ∀ G issues, F ⊆ G → (∀ i ∈ issues, known .issues i ⊆ G) →
      P G issues) :
    keys.Upholds P (Seed.insertIssues project reporterId assigneeId specs)
      F := by
  induction specs generalizing F P with
  | nil => exact h F [] (fun _ hx => hx) (by simp)
  | cons x specs ih =>
      obtain ⟨number, title, status, priority⟩ := x
      simp only [Seed.insertIssues, upholds_bind, upholds_freshId, upholds_now,
        upholds_insertOrHalt, upholds_pure]
      intro id _ _
      refine ⟨hrefs, ?_⟩
      apply ih
      · exact fun x hx => List.mem_append_right _ (hrefs hx)
      · intro G issues hG hissues
        apply h
        · exact fun x hx => hG (List.mem_append_right _ hx)
        · intro i hi
          rcases List.mem_cons.mp hi with rfl | hi
          · intro y hy
            apply hG
            rw [known, List.mem_append] at hy
            rw [List.mem_append]
            exact hy.symm.imp_right (hrefs ·)
          · exact hissues i hi

theorem upheld_seed : Upheld (Seed.main uuid5) F := by
  simp only [Upheld, Seed.main, upholds_bind, upholds_ite, upholds_commitNow]
  apply upholds_read
  intro s
  refine ⟨fun _ => upheld_resetEmails _ _ fun _ => trivial, fun _ => ?_⟩
  simp only [Seed.plant, Seed.demoOrganization, upholds_bind, upholds_now,
    upholds_pure]
  apply upholds_demoAccounts
  intro users husers _ _ _ _
  apply upholds_insertAll
  · simp
  intro G _ husers'
  have hknown : ∀ name ∈ ["owner", "member", "viewer"],
      (Table.users, Key.id (Seed.uid uuid5 name)) ∈ G := by
    intro name hname
    have hid : Seed.uid uuid5 name ∈ users.map (·.id) := by
      rw [husers, Seed.demoUsers]
      exact List.mem_map_of_mem (f := Seed.uid uuid5) hname
    obtain ⟨user, huser, hid⟩ := List.mem_map.mp hid
    apply husers' user huser
    simp [lasting, primaryKey, hid]
  apply upholds_insertAll
  · simp
  intro G' hG horganizations
  have hplanted : [(Table.users, Key.id (Seed.uid uuid5 "owner")),
      (.users, .id (Seed.uid uuid5 "member")),
      (.users, .id (Seed.uid uuid5 "viewer")),
      (.organizations, .id (Seed.uid uuid5 "acme")),
      (.organizations, .id (Seed.uid uuid5 "northstar"))] ⊆ G' := by
    simp [lasting, primaryKey] at hknown horganizations ⊢
    simp [hG hknown.1, hG hknown.2.1, hG hknown.2.2, horganizations]
  clear hknown husers' horganizations
  simp only [List.cons_subset, List.nil_subset, and_true] at hplanted
  obtain ⟨howner, hmember, hviewer, hacme, hnorthstar⟩ := hplanted
  apply upholds_insertAll
  · simp [howner, hmember, hviewer, hacme, hnorthstar]
  intro G'' hG' _ _
  rw [upholds_insertOrHalt]
  refine ⟨by simp [hG' hacme], ?_⟩
  apply upholds_insertIssues
  · simp [lasting, primaryKey, hG' hacme, hG' howner, hG' hmember]
  intro K issues hK hissues _
  have hlater : ∀ x ∈ G', x ∈ K := fun x hx =>
    hK (List.mem_append_right _ (hG' hx))
  cases issues with
  | nil => simp [hlater _ hacme]
  | cons issue rest =>
      have hissue := hissues issue List.mem_cons_self
      simp [lasting, primaryKey] at hissue
      simp [hlater _ hacme, hlater _ hmember, hissue]

end Seed

/-! ## Every request and every run -/

/-- Every request inserts only rows whose foreign keys it knows. -/
theorem upheld_serve (E : Environment) (request : Request)
    (F : List (Table × Key)) : Upheld (serve E request) F := by
  have hbind : ∀ {α β : Type} {g : α → β} {x : Tx α} {G : List (Table × Key)},
      Upheld x G → Upheld (g <$> x) G := fun h => (upholds_map _ _).mpr h
  have hothers : request.adds ⊆ [.users, .organizations, .outboxEvents] →
      (∀ u, ¬request.Assigns u) → Upheld (serve E request) F :=
    fun hadds hassigns => upheld_of_follows hadds hassigns F
  cases request with
  | account request =>
      cases request with
      | register body client => exact hbind (hbind upheld_register)
      | login body client => exact hbind (hbind upheld_login)
      | refresh body => exact hbind (hbind upheld_refresh)
      | resendVerification authorization client =>
          exact hbind (hbind upheld_resendVerification)
      | requestReset body client => exact hbind (hbind upheld_requestReset)
      | _ => exact hothers (by simp [Request.adds, accountAdds]) (fun _ => id)
  | tracker client authorization endpoint =>
      have huser : (∀ user, UpheldBy user
          (endpoint.handle E.toDeployment client user)) →
          Upheld (serve E (.tracker client authorization endpoint)) F := by
        intro h
        apply hbind
        rw [Tracker.Endpoint.serve, Upheld, upholds_bind]
        apply upholds_currentUser
        intro user
        exact (h user).more (fun _ _ _ _ _ => trivial)
          (fun x hx => List.mem_append_left _ hx)
      cases endpoint with
      | createOrganization body =>
          exact huser fun _ => hbind upheld_createOrganization
      | updateOrg O body => exact huser fun _ => hbind upheld_updateOrg
      | changeRole O memberId body =>
          exact huser fun _ => hbind upheld_changeRole
      | removeMember O memberId =>
          exact huser fun _ => hbind upheld_removeMember
      | invite O body => exact huser fun _ => hbind upheld_inviteLimited
      | revokeInvitation O invitationId =>
          exact huser fun _ => hbind upheld_revokeInvitation
      | acceptInvitation body => exact huser fun _ => hbind upheld_accept
      | createProject O body => exact huser fun _ => hbind upheld_createProject
      | setArchived O projectId archived =>
          exact huser fun _ => hbind upheld_setArchived
      | createIssue O body => exact huser fun _ => hbind upheld_createIssue
      | changeStatus O issueId body =>
          exact huser fun _ => hbind upheld_changeStatus
      | assign O issueId body => exact huser fun _ => hbind upheld_assign
      | createLabel O body => exact huser fun _ => hbind upheld_createLabel
      | attach O issueId labelId => exact huser fun _ => hbind upheld_attach
      | createComment O issueId body =>
          exact huser fun _ => hbind upheld_createComment
      | _ => exact hothers (by simp [Request.adds, trackerAdds]) (fun _ => id)
  | notifications authorization endpoint =>
      exact hothers (by simp [Request.adds]) (fun _ => id)
  | dispatch worker batchSize =>
      exact hothers (by simp [Request.adds]) (fun _ => id)
  | seed => exact hbind upheld_seed

/-- The foreign keys hold in every state of every run, and no statement breaks
one: they hold in what every client sees of the database as well, its own
writes included. -/
theorem foreign_keys_hold {E : Environment} {requests : Pid → Request}
    {s₀ : Db} {w : World schema AppError Response} (hs₀ : keys.Intact s₀)
    (hreach : Reachable (clients E requests s₀) w) :
    keys.Intact w.store ∧ ∀ p, keys.Intact (w.view p) := by
  have hsound := sound_of_reachable
    (fun p => upheld_serve E (requests p) []) hs₀ hreach
  exact ⟨hsound.intact, fun p => (hsound.clients p).intact hsound.intact⟩

theorem intact_office : keys.Intact office := by
  have hall : ∀ t : Table, ∀ r ∈ (office t).rows, ∀ x ∈ foreignKeys t r,
      ((office x.1).lookup x.2).isSome = true := by
    intro t
    cases t
    all_goals decide +kernel
  intro t r hr x hx
  exact Option.isSome_iff_ne_none.mp (hall t r hr x hx)

/-- Mallory's new issue names her and Bob. -/
theorem foreign_keys_hold_office :
    ∃ w, Reachable officeClients w ∧
      ((w.store .issues).lookup (.id 70)).isSome = true ∧
      keys.Intact w.store ∧ ∀ p, keys.Intact (w.view p) := by
  have hrun : (officeClients.run assigningSteps).any (fun w =>
      ((w.store .issues).lookup (.id 70)).isSome = true) = true := by
    decide +kernel
  obtain ⟨w, hreach, hissue⟩ := exists_reachable hrun
  exact ⟨w, hreach, hissue, foreign_keys_hold intact_office hreach⟩

end Workstream.Application
