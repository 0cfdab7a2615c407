import Workstream.Infrastructure.Outbox
import Workstream.Modules.Schemas

/-!
# What the services write

Every service of the tracker is checked against the constraints of the migrated
schema on its own.  A membership that is read tells that the organization and
the user are there; the other rows to which a service refers it has read,
locked or inserted before.
-/

namespace Workstream.Schemas

open ReadCommitted Constraints

section Rules

variable {α : Type} {Q : Set schema.Ref → α → Prop} {K : Set schema.Ref}

theorem sends_now_bind {f : Instant → Tx α}
    (h : ∀ τ, constraints.Sends Q (f τ) K) :
    constraints.Sends Q (now >>= f) K :=
  sends_callOut_bind h

theorem sends_get_bind {t : Table} {k : Key} {f : Option (Row t) → Tx α}
    (h : ∀ o K', K ⊆ K' → (∀ r, o = some r → constraints.Found K' r) →
      constraints.Sends Q (f o) K') :
    constraints.Sends Q (get t k >>= f) K :=
  sends_select_bind fun _ hs hK =>
    h _ _ hK fun _ hr => hs.found_lookup hr

theorem sends_scalarOneOrNone_bind {β : Type} {rows : List β}
    {f : Option β → Tx α}
    (h : ∀ o : Option β, (∀ r, o = some r → r ∈ rows) →
      constraints.Sends Q (f o) K) :
    constraints.Sends Q (scalarOneOrNone rows >>= f) K := by
  match rows, h with
  | [], h => exact h none (by simp)
  | [row], h => exact h (some row) (by simp)
  | _ :: _ :: _, _ => trivial

/-- A row that is looked for by its columns. -/
theorem sends_selectOne_bind {t : Table} {cols : Row t → Bool} {e : AppError}
    {f : Row t → Tx α}
    (h : ∀ r K', K ⊆ K' → constraints.Found K' r → cols r = true →
      constraints.Sends Q (f r) K') :
    constraints.Sends Q (do
      let rows ← Prog.select fun db : Db => (db t).rows.filter cols
      let row ← scalarOneOrNone rows
      let row ← Prog.require row e
      f row) K := by
  apply sends_select_bind
  intro db hdb hK
  apply sends_scalarOneOrNone_bind
  intro o ho
  apply sends_require_bind
  intro r hr
  obtain ⟨hmem, hcols⟩ := List.mem_filter.mp (ho r hr)
  exact h r _ hK (hdb.found hmem) hcols

/-- A row that is locked by its columns. -/
theorem sends_lockOne_bind {t : Table} {cols : Row t → Bool}
    {f : Option (Row t) → Tx α}
    (h : ∀ o K', K ⊆ K' → (∀ r, o = some r → constraints.Found K' r) →
      constraints.Sends Q (f o) K') :
    constraints.Sends Q (do
      let rows ← Prog.locking (σ := schema) (t := t) { pred := cols }
      let row ← scalarOneOrNone rows
      f row) K := by
  apply sends_locking_bind
  · exact fun _ _ _ _ _ => trivial
  · intro rows K' hK hrows
    apply sends_scalarOneOrNone_bind
    intro o ho
    exact h o K' hK fun r hr => hrows r (ho r hr)

theorem sends_audit_bind {actorId : Uuid} {organizationId : Option Uuid}
    {action entityType : String} {entityId : Uuid} {metadata : Metadata}
    {requestId : Option String} {f : Unit → Tx α}
    (hactor : userRef actorId ∈ K)
    (horganization : ∀ id, organizationId = some id → organizationRef id ∈ K)
    (haction : action.length ≤ 100) (htype : entityType.length ≤ 50)
    (hrequest : ∀ id, requestId = some id → id.length ≤ 128)
    (h : ∀ K', K ⊆ K' → constraints.Sends Q (f ()) K') :
    constraints.Sends Q (audit actorId organizationId action entityType
      entityId metadata requestId >>= f) K := by
  simp only [audit, bind_assoc]
  apply sends_freshId_bind
  intro id
  apply sends_now_bind
  intro createdAt
  apply sends_insertOrHalt_bind
  · refine ⟨⟨haction, htype, hrequest⟩, fun ref href => ?_⟩
    rcases List.mem_append.mp href with href | href
    · obtain rfl := List.mem_singleton.mp href
      exact hactor
    · obtain ⟨id, hid, rfl⟩ := List.mem_map.mp href
      exact horganization id (Option.mem_toList.mp hid)
  · exact fun K' hK _ => h K' hK

/-- The audit event of a request within an organization. -/
theorem sends_audited_bind {actorId organizationId : Uuid}
    {action entityType : String} {entityId : Uuid} {metadata : Metadata}
    {f : Unit → Tx α} (hactor : userRef actorId ∈ K)
    (horganization : organizationRef organizationId ∈ K)
    (haction : action.length ≤ 100) (htype : entityType.length ≤ 50)
    (h : ∀ K', K ⊆ K' → constraints.Sends Q (f ()) K') :
    constraints.Sends Q (audit actorId (some organizationId) action entityType
      entityId metadata none >>= f) K := by
  have hsome : ∀ id, some organizationId = some id →
      organizationRef id ∈ K := by
    intro id hid
    exact Option.some.inj hid ▸ horganization
  exact sends_audit_bind hactor hsome haction htype (by simp) h

/-- A member belongs to an organization and is a user. -/
theorem found_membership {m : Membership} {O u : Uuid}
    (hfound : constraints.Found (t := .memberships) K m)
    (hkey : schema.key (t := .memberships) m = membershipKey O u) :
    organizationRef O ∈ K ∧ userRef u ∈ K := by
  obtain ⟨horganization, huser⟩ := Key.pair.inj hkey
  have hrefs := hfound.admits.refs
  subst horganization huser
  exact ⟨hrefs _ List.mem_cons_self,
    hrefs _ (List.mem_cons_of_mem _ List.mem_cons_self)⟩

theorem sends_requireMembership_bind {organizationId userId : Uuid}
    {roles : List Role} {f : Membership → Tx α}
    (h : ∀ m K', K ⊆ K' → organizationRef organizationId ∈ K' →
      userRef userId ∈ K' → constraints.Sends Q (f m) K') :
    constraints.Sends Q
      (requireMembership organizationId userId roles >>= f) K := by
  simp only [requireMembership, bind_assoc, pure_bind]
  apply sends_select_bind
  intro db hdb hK
  apply sends_require_bind
  intro m hm
  apply sends_ensure_bind
  intro _
  obtain ⟨horganization, huser⟩ := found_membership (hdb.found_lookup hm)
    (Relation.key_of_lookup hm)
  exact h m _ hK horganization huser

end Rules

/-- All that a request writes meets the constraints, if the rows of `K` are
there. -/
abbrev Checked {α : Type} (prog : Tx α) (K : Set schema.Ref) : Prop :=
  constraints.Sends (fun _ _ => True) prog K

/-! ## Projects -/

section Projects

open Projects

variable {α : Type} {Q : Set schema.Ref → α → Prop} {K : Set schema.Ref}
  {O : Uuid} {user : User}

/-- A column that is not set to null. -/
theorem exists_setColumn {β : Type} {P : β → Prop} (current : β)
    {field : Option (Option β)} (hnull : field ≠ some none)
    (hcurrent : P current) (hgiven : ∀ v, field = some (some v) → P v) :
    ∃ v, setColumn current field = some v ∧ P v := by
  cases field with
  | none => exact ⟨current, rfl, hcurrent⟩
  | some value =>
      cases value with
      | none => exact absurd rfl hnull
      | some v => exact ⟨v, rfl, hgiven v rfl⟩

theorem sends_getProject_bind {projectId : Uuid} {f : Project → Tx α}
    (h : ∀ p K', K ⊆ K' → projectRef projectId ∈ K' → p.id = projectId →
      constraints.Sends Q (f p) K') :
    constraints.Sends Q (getProject O projectId >>= f) K := by
  simp only [getProject, bind_assoc]
  apply sends_selectOne_bind (t := .projects)
  intro p K' hK hp hcols
  have hid : p.id = projectId := (of_decide_eq_true hcols).1
  have hknown : projectRef p.id ∈ K' := hp.known rfl
  exact h p K' hK (hid ▸ hknown) hid

theorem checked_createProject {body : ProjectCreate}
    (hbody : AcceptedProjectCreate body) :
    Checked (createProject O user body) K := by
  obtain ⟨hname, hkey, -⟩ := hbody
  apply sends_requireMembership_bind
  intro m K₁ h₁ hO huser
  apply sends_freshId_bind
  intro id
  apply sends_now_bind
  intro createdAt
  apply sends_insertRow_bind
  · refine ⟨⟨hname.2, length_of_keyPattern hkey, hkey⟩, fun ref href => ?_⟩
    obtain rfl := List.mem_singleton.mp href
    exact hO
  · intro e
    cases e <;> trivial
  · intro K₂ h₂ hproject
    exact sends_audited_bind (h₂ huser) (h₂ hO) (by decide) (by decide)
      fun _ _ => trivial

/-- Neither column is set to null. -/
structure NonNullProject (body : ProjectUpdate) : Prop where
  name : body.name ≠ some none
  description : body.description ≠ some none

theorem NonNullProject.changes {body : ProjectUpdate}
    (h : NonNullProject body) (loaded : Project) :
    NonNullProject (body.changes loaded) where
  name := fun hnull => h.name (Option.filter_eq_some_iff.mp hnull).1
  description :=
    fun hnull => h.description (Option.filter_eq_some_iff.mp hnull).1

theorem acceptedProjectUpdate_changes {body : ProjectUpdate}
    (h : AcceptedProjectUpdate body) (loaded : Project) :
    AcceptedProjectUpdate (body.changes loaded) :=
  ⟨fun s hs => h.1 s (Option.filter_eq_some_iff.mp hs).1,
    fun s hs => h.2 s (Option.filter_eq_some_iff.mp hs).1⟩

theorem allows_projectUpdate {body : ProjectUpdate}
    (hbody : AcceptedProjectUpdate body) (hnull : NonNullProject body)
    {p : Project} (hp : constraints.Admits (t := .projects) K p) :
    constraints.Allows (t := .projects) K p (writeOrReject (body.apply p)) := by
  obtain ⟨⟨hname, hkey, hformat⟩, hrefs⟩ := hp
  obtain ⟨name, hsetname, hname'⟩ := exists_setColumn p.name
    (P := fun s => s.length ≤ 120) hnull.name hname fun v h => (hbody.1 v h).2
  obtain ⟨description, hsetdescription, -⟩ := exists_setColumn p.description
    (P := fun _ => True) hnull.description trivial fun _ _ => trivial
  have happly : body.apply p = some { p with name, description } := by
    simp [ProjectUpdate.apply, hsetname, hsetdescription]
  rw [happly]
  exact ⟨rfl, ⟨hname', hkey, hformat⟩, hrefs⟩

theorem checked_updateProject {projectId : Uuid} {body : ProjectUpdate}
    (hbody : AcceptedProjectUpdate body) (hnull : NonNullProject body) :
    Checked (updateProject O projectId user body) K := by
  apply sends_requireMembership_bind
  intro m K₁ h₁ hO huser
  apply sends_getProject_bind
  intro project K₂ h₂ hproject hid
  dsimp only
  split
  · trivial
  · apply sends_alterKey_bind
    · intro K₃ h₃ p hp hkey
      exact allows_projectUpdate (acceptedProjectUpdate_changes hbody project)
        (hnull.changes project) hp.admits
    · exact fun _ _ => trivial

theorem checked_setArchived {projectId : Uuid} {archived : Bool} :
    Checked (setArchived O projectId user archived) K := by
  apply sends_requireMembership_bind
  intro m K₁ h₁ hO huser
  apply sends_getProject_bind
  intro project K₂ h₂ hproject hid
  have haction : (if archived then "project.archived"
      else "project.unarchived").length ≤ 100 := by
    cases archived <;> decide
  have haudit : ∀ K', K₂ ⊆ K' → Checked (do
      audit user.id (some O)
        (if archived then "project.archived" else "project.unarchived")
        "project" project.id .empty none
      Prog.commitNow) K' := by
    intro K' h'
    exact sends_audited_bind (h' (h₂ huser)) (h' (h₂ hO)) haction (by decide)
      fun _ _ => trivial
  dsimp only
  split
  · exact haudit K₂ Set.Subset.rfl
  · exact sends_updateKey_bind (fun _ => rfl)
      (fun _ _ p hp => ⟨hp.row, hp.refs⟩) haudit

end Projects

/-! ## Issues -/

section Issues

open Issues Projects

variable {α : Type} {Q : Set schema.Ref → α → Prop} {K : Set schema.Ref}
  {O : Uuid} {user : User}

theorem sends_getIssue_bind {issueId : Uuid} {f : Issue → Tx α}
    (h : ∀ i K', K ⊆ K' → issueRef issueId ∈ K' →
      constraints.Sends Q (f i) K') :
    constraints.Sends Q (getIssue O issueId >>= f) K := by
  simp only [getIssue, bind_assoc]
  apply sends_selectOne_bind (t := .issues)
  intro i K' hK hi hcols
  have hid : i.id = issueId := (of_decide_eq_true hcols).1
  have hknown : issueRef i.id ∈ K' := hi.known rfl
  exact h i K' hK (hid ▸ hknown)

theorem sends_validateAssignee_bind {assigneeId : Option Uuid}
    {f : Unit → Tx α}
    (h : ∀ K', K ⊆ K' → (∀ u, assigneeId = some u → userRef u ∈ K') →
      constraints.Sends Q (f ()) K') :
    constraints.Sends Q (validateAssignee O assigneeId >>= f) K := by
  cases assigneeId with
  | none => exact h K Set.Subset.rfl (by simp)
  | some u =>
      simp only [validateAssignee, bind_assoc]
      apply sends_select_bind
      intro db hdb hK
      apply sends_ensure_bind
      intro hne
      refine h _ hK fun u' hu' => ?_
      obtain rfl := Option.some.inj hu'
      obtain ⟨x, hx⟩ : ∃ x, x ∈ activeMembers O u db := by
        rw [Bool.not_eq_true', List.isEmpty_eq_false_iff_exists_mem] at hne
        exact hne
      simp only [activeMembers, List.mem_flatMap, List.mem_filter,
        decide_eq_true_eq, List.mem_map] at hx
      obtain ⟨m, ⟨-, -, hu⟩, v, ⟨hv, hid, -⟩, -⟩ := hx
      have huser : userRef v.id ∈ constraints.known db :=
        (hdb.found (t := .users) hv).known rfl
      rwa [hid, hu] at huser

theorem sends_notifyAssignee_bind {issueId : Uuid} {assigneeId : Option Uuid}
    {f : Unit → Tx α} (hO : organizationRef O ∈ K)
    (hassignee : ∀ u, assigneeId = some u → userRef u ∈ K)
    (h : ∀ K', K ⊆ K' → constraints.Sends Q (f ()) K') :
    constraints.Sends Q (notifyAssignee O issueId user assigneeId >>= f) K := by
  cases assigneeId with
  | none => exact h K Set.Subset.rfl
  | some u =>
      by_cases hu : u = user.id
      · simp only [notifyAssignee, if_pos hu]
        exact h K Set.Subset.rfl
      · have hkind : "issue.assigned".length ≤ 50 := by decide
        simp only [notifyAssignee, if_neg hu, bind_assoc]
        apply sends_freshId_bind
        intro id
        apply sends_now_bind
        intro createdAt
        apply sends_insertOrHalt_bind
        · refine ⟨hkind, fun ref href => ?_⟩
          rcases List.mem_cons.mp href with rfl | href
          · exact hassignee u rfl
          · obtain rfl := List.mem_singleton.mp href
            exact hO
        · exact fun K' hK _ => h K' hK

/-- The foreign keys of an issue. -/
theorem refs_issue {i : Issue} :
    (∀ ref ∈ references .issues i, ref ∈ K) ↔
      organizationRef i.organizationId ∈ K ∧ projectRef i.projectId ∈ K ∧
        userRef i.reporterId ∈ K ∧
          ∀ u, i.assigneeId = some u → userRef u ∈ K := by
  simp [references]

theorem sends_takeNumber_bind {projectId : Uuid} {f : ℕ → Tx α}
    (h : ∀ n K', K ⊆ K' → constraints.Sends Q (f n) K') :
    constraints.Sends Q (takeNumber projectId >>= f) K := by
  simp only [takeNumber, bind_assoc]
  apply sends_locking_bind
  · intro K' hK p hp hpred
    exact ⟨rfl, hp.admits.row, hp.admits.refs⟩
  · intro rows K' hK hrows
    rcases rows with _ | ⟨p, _ | ⟨other, rest⟩⟩
    · trivial
    · exact h _ K' hK
    · trivial

theorem checked_createIssue {body : IssueCreate}
    (hbody : AcceptedIssueCreate body) :
    Checked (createIssue O user body) K := by
  apply sends_requireMembership_bind
  intro m K₁ h₁ hO huser
  apply sends_getProject_bind
  intro project K₂ h₂ hproject hid
  apply sends_ensure_bind
  intro _
  apply sends_validateAssignee_bind
  intro K₃ h₃ hassignee
  apply sends_takeNumber_bind
  intro number K₄ h₄
  apply sends_freshId_bind
  intro id
  apply sends_now_bind
  intro createdAt
  apply sends_now_bind
  intro updatedAt
  have hsub : K₂ ⊆ K₄ := h₃.trans h₄
  apply sends_insertOrHalt_bind
  · refine ⟨columns_issue hbody.1.2 le_rfl, ?_⟩
    exact refs_issue.mpr ⟨hsub (h₂ hO), hsub hproject, hsub (h₂ huser),
      fun u hu => h₄ (hassignee u hu)⟩
  · intro K₅ h₅ hissue
    have hlast : K₂ ⊆ K₅ := hsub.trans h₅
    apply sends_audited_bind (hlast (h₂ huser)) (hlast (h₂ hO)) (by decide)
      (by decide)
    intro K₆ h₆
    apply sends_notifyAssignee_bind (h₆ (hlast (h₂ hO)))
      (fun u hu => h₆ (h₅ (h₄ (hassignee u hu))))
    exact fun _ _ => trivial

/-- The columns that stay as they are, and the next version. -/
theorem allows_issue {i i' : Issue} {time : Instant} (hid : i'.id = i.id)
    (htitle : i'.title.length ≤ 240)
    (hrefs : ∀ ref ∈ references .issues i', ref ∈ K) :
    constraints.Allows (t := .issues) K i
      (.write { i' with version := i.version + 1, updatedAt := time }) :=
  ⟨congrArg Key.id hid, columns_issue htitle (Nat.le_add_left _ _), hrefs⟩

/-- `values` leaves a row that meets the constraints, whatever the row is. -/
def Sets (K : Set schema.Ref) (values : Issue → Option Issue) : Prop :=
  ∀ K', K ⊆ K' → ∀ i, constraints.Found (t := .issues) K' i →
    ∃ i', values i = some i' ∧ i'.id = i.id ∧ i'.title.length ≤ 240 ∧
      ∀ ref ∈ references .issues i', ref ∈ K'

theorem sends_optimisticUpdate_bind {issue : Issue} {expected : ℕ}
    {values : Issue → Option Issue} {f : Issue → Tx α}
    (hvalues : Sets K values)
    (h : ∀ i K', K ⊆ K' → constraints.Sends Q (f i) K') :
    constraints.Sends Q (optimisticUpdate issue expected values >>= f) K := by
  simp only [optimisticUpdate, bind_assoc]
  apply sends_now_bind
  intro updatedAt
  apply sends_locking_bind
  · intro K' hK i hi hpred
    obtain ⟨i', hsome, hid, htitle, hrefs⟩ := hvalues K' hK i hi
    simp only [hsome, Option.map_some]
    exact allows_issue hid htitle hrefs
  · intro rows K' hK hrows
    apply sends_scalarOneOrNone_bind
    intro o ho
    apply sends_require_bind
    exact fun i _ => h i K' hK

/-- No column that admits no null is set to it. -/
structure NonNullIssue (body : IssueUpdate) : Prop where
  title : body.title ≠ some none
  description : body.description ≠ some none
  priority : body.priority ≠ some none

theorem sets_issueUpdate {body : IssueUpdate}
    (hbody : AcceptedIssueUpdate body) (hnull : NonNullIssue body) :
    Sets K body.apply := by
  intro K' hK i hi
  obtain ⟨title, hsettitle, htitle⟩ := exists_setColumn i.title
    (P := fun s => s.length ≤ 240) hnull.title hi.admits.row.1
    fun v h => (hbody.1 v h).2
  obtain ⟨description, hsetdescription, -⟩ := exists_setColumn i.description
    (P := fun _ => True) hnull.description trivial fun _ _ => trivial
  obtain ⟨priority, hsetpriority, -⟩ := exists_setColumn i.priority
    (P := fun _ => True) hnull.priority trivial fun _ _ => trivial
  have happly : body.apply i = some { i with
      title, description, priority, dueDate := body.dueDate.getD i.dueDate } := by
    simp [IssueUpdate.apply, hsettitle, hsetdescription, hsetpriority]
  exact ⟨_, happly, rfl, htitle, hi.admits.refs⟩

theorem checked_updateIssue {issueId : Uuid} {body : IssueUpdate}
    (hbody : AcceptedIssueUpdate body) (hnull : NonNullIssue body) :
    Checked (updateIssue O issueId user body) K := by
  apply sends_requireMembership_bind
  intro m K₁ h₁ hO huser
  apply sends_getIssue_bind
  intro issue K₂ h₂ hissue
  apply sends_optimisticUpdate_bind (sets_issueUpdate hbody hnull)
  exact fun _ _ _ => trivial

theorem checked_changeStatus {issueId : Uuid} {body : StatusChange} :
    Checked (changeStatus O issueId user body) K := by
  apply sends_requireMembership_bind
  intro m K₁ h₁ hO huser
  apply sends_getIssue_bind
  intro issue K₂ h₂ hissue
  apply sends_ensure_bind
  intro _
  apply sends_optimisticUpdate_bind
  · intro K' hK i hi
    exact ⟨_, rfl, rfl, hi.admits.row.1, hi.admits.refs⟩
  · intro result K₃ h₃
    exact sends_audited_bind (h₃ (h₂ huser)) (h₃ (h₂ hO)) (by decide)
      (by decide) fun _ _ => trivial

theorem checked_assign {issueId : Uuid} {body : Assignment} :
    Checked (assign O issueId user body) K := by
  apply sends_requireMembership_bind
  intro m K₁ h₁ hO huser
  apply sends_validateAssignee_bind
  intro K₂ h₂ hassignee
  apply sends_getIssue_bind
  intro issue K₃ h₃ hissue
  apply sends_optimisticUpdate_bind
  · intro K' hK i hi
    obtain ⟨horganization, hproject, hreporter, -⟩ :=
      refs_issue.mp hi.admits.refs
    refine ⟨_, rfl, rfl, hi.admits.row.1, ?_⟩
    exact refs_issue.mpr ⟨horganization, hproject, hreporter,
      fun u hu => hK (h₃ (hassignee u hu))⟩
  · intro result K₄ h₄
    have hlast : K₂ ⊆ K₄ := h₃.trans h₄
    apply sends_audited_bind (hlast (h₂ huser)) (hlast (h₂ hO)) (by decide)
      (by decide)
    intro K₅ h₅
    apply sends_notifyAssignee_bind (h₅ (hlast (h₂ hO)))
      (fun u hu => h₅ (hlast (hassignee u hu)))
    exact fun _ _ => trivial

theorem checked_archive {issueId : Uuid} :
    Checked (archive O issueId user) K := by
  apply sends_requireMembership_bind
  intro m K₁ h₁ hO huser
  apply sends_getIssue_bind
  intro issue K₂ h₂ hissue
  apply sends_now_bind
  intro archivedAt
  apply sends_now_bind
  intro updatedAt
  exact sends_updateKey_bind (fun _ => rfl)
    (fun _ _ i hi => ⟨hi.row, hi.refs⟩) fun _ _ => trivial

end Issues

/-! ## Labels -/

theorem not_permanent {t : Table} (ht : referenced t = false) :
    ¬constraints.permanent t := by
  simp [constraints, ht]

section Labels

variable {α : Type} {Q : Set schema.Ref → α → Prop} {K : Set schema.Ref}
  {O : Uuid} {user : User}

theorem sends_getLabel_bind {labelId : Uuid} {f : Label → Tx α}
    (h : ∀ l K', K ⊆ K' → constraints.Sends Q (f l) K') :
    constraints.Sends Q (Labels.get O labelId >>= f) K := by
  simp only [Labels.get, bind_assoc]
  apply sends_selectOne_bind (t := .labels)
  exact fun l K' hK _ _ => h l K' hK

theorem checked_createLabel {body : Labels.LabelCreate}
    (hbody : AcceptedLabelCreate body) :
    Checked (Labels.create O user body) K := by
  obtain ⟨hname, hcolor⟩ := hbody
  apply sends_requireMembership_bind
  intro m K₁ h₁ hO huser
  apply sends_freshId_bind
  intro id
  apply sends_insertRow_bind
  · refine ⟨⟨hname.2, length_of_colorPattern hcolor, hcolor⟩, fun ref href => ?_⟩
    obtain rfl := List.mem_singleton.mp href
    exact hO
  · intro e
    cases e <;> trivial
  · exact fun _ _ _ => trivial

theorem admits_labelFlush {body : Labels.LabelCreate}
    (hbody : AcceptedLabelCreate body) {loaded l : Label}
    (hl : constraints.Admits (t := .labels) K l) :
    constraints.Admits (t := .labels) K (body.flush loaded l) := by
  obtain ⟨⟨hname, hcolor, hformat⟩, hrefs⟩ := hl
  obtain ⟨hname', hcolor'⟩ := hbody
  refine ⟨⟨?_, ?_, ?_⟩, hrefs⟩
  · by_cases hsame : body.name = loaded.name
    · simpa [Labels.LabelCreate.flush, hsame] using hname
    · simpa [Labels.LabelCreate.flush, hsame] using hname'.2
  · by_cases hsame : body.color = loaded.color
    · simpa [Labels.LabelCreate.flush, hsame] using hcolor
    · simpa [Labels.LabelCreate.flush, hsame] using
        length_of_colorPattern hcolor'
  · by_cases hsame : body.color = loaded.color
    · simpa [Labels.LabelCreate.flush, hsame] using hformat
    · simpa [Labels.LabelCreate.flush, hsame] using hcolor'

theorem checked_updateLabel {labelId : Uuid} {body : Labels.LabelCreate}
    (hbody : AcceptedLabelCreate body) :
    Checked (Labels.update O labelId user body) K := by
  apply sends_requireMembership_bind
  intro m K₁ h₁ hO huser
  apply sends_getLabel_bind
  intro label K₂ h₂
  split
  · trivial
  · apply sends_updateKey_bind
    · exact fun _ => rfl
    · exact fun K' hK l hl => admits_labelFlush hbody hl
    · exact fun _ _ => trivial

theorem checked_deleteLabel {labelId : Uuid} :
    Checked (Labels.delete O labelId user) K := by
  have hlabels : ¬constraints.permanent .labels := not_permanent rfl
  have hlinks : ¬constraints.permanent .issueLabels := not_permanent rfl
  apply sends_requireMembership_bind
  intro m K₁ h₁ hO huser
  apply sends_getLabel_bind
  intro label K₂ h₂
  apply sends_locking_bind
  · exact fun _ _ _ _ _ => hlabels
  · intro rows K₃ h₃ hrows
    cases rows with
    | nil => trivial
    | cons row rows =>
        apply sends_locking_bind
        · exact fun _ _ _ _ _ => hlinks
        · exact fun _ _ _ _ => trivial

theorem checked_attach {issueId labelId : Uuid} :
    Checked (Labels.attach O issueId labelId user) K := by
  apply sends_requireMembership_bind
  intro m K₁ h₁ hO huser
  apply sends_getIssue_bind
  intro issue K₂ h₂ hissue
  apply sends_getLabel_bind
  intro label K₃ h₃
  apply sends_insertRow_bind
  · refine ⟨trivial, fun ref href => ?_⟩
    obtain rfl := List.mem_singleton.mp href
    exact h₃ hissue
  · exact fun _ => trivial
  · intro K₄ h₄ hlink
    simp only [Labels.checkLabel, bind_assoc]
    apply sends_locking_bind
    · exact fun _ _ _ _ _ => trivial
    · intro rows K₅ h₅ hrows
      cases rows <;> trivial

theorem checked_detach {issueId labelId : Uuid} :
    Checked (Labels.detach O issueId labelId user) K := by
  have hlinks : ¬constraints.permanent .issueLabels := not_permanent rfl
  apply sends_requireMembership_bind
  intro m K₁ h₁ hO huser
  apply sends_getIssue_bind
  intro issue K₂ h₂ hissue
  apply sends_getLabel_bind
  intro label K₃ h₃
  exact sends_deleteKey_bind hlinks fun _ _ => trivial

end Labels

/-! ## Comments -/

section Comments

variable {α : Type} {Q : Set schema.Ref → α → Prop} {K : Set schema.Ref}
  {O : Uuid} {user : User}

theorem sends_getComment_bind {commentId : Uuid} {f : Comment → Tx α}
    (h : ∀ x K', K ⊆ K' → constraints.Sends Q (f x) K') :
    constraints.Sends Q (Comments.get O commentId >>= f) K := by
  simp only [Comments.get, bind_assoc]
  apply sends_selectOne_bind (t := .comments)
  exact fun x K' hK _ _ => h x K' hK

theorem checked_createComment {issueId : Uuid}
    {body : Comments.CommentCreate} :
    Checked (Comments.create O issueId user body) K := by
  apply sends_requireMembership_bind
  intro m K₁ h₁ hO huser
  apply sends_getIssue_bind
  intro issue K₂ h₂ hissue
  apply sends_freshId_bind
  intro id
  apply sends_now_bind
  intro createdAt
  apply sends_insertOrHalt_bind
  · refine ⟨trivial, ?_⟩
    simpa [constraints, references] using ⟨h₂ hO, hissue, h₂ huser⟩
  · exact fun _ _ _ => trivial

theorem checked_updateComment {commentId : Uuid}
    {body : Comments.CommentCreate} :
    Checked (Comments.update O commentId user body) K := by
  apply sends_requireMembership_bind
  intro m K₁ h₁ hO huser
  apply sends_getComment_bind
  intro row K₂ h₂
  apply sends_ensure_bind
  intro _
  apply sends_now_bind
  intro editedAt
  exact sends_updateKey_bind (fun _ => rfl)
    (fun _ _ x hx => ⟨trivial, hx.refs⟩) fun _ _ => trivial

theorem checked_deleteComment {commentId : Uuid} :
    Checked (Comments.delete O commentId user) K := by
  have hcomments : ¬constraints.permanent .comments := not_permanent rfl
  apply sends_requireMembership_bind
  intro m K₁ h₁ hO huser
  apply sends_getComment_bind
  intro row K₂ h₂
  apply sends_ensure_bind
  intro _
  exact sends_deleteKey_bind hcomments fun _ _ => trivial

end Comments

/-! ## Organizations -/

section Organizations

open Organizations

variable {α : Type} {Q : Set schema.Ref → α → Prop} {K : Set schema.Ref}
  {H : TokenHash} {O : Uuid} {user : User}

theorem admits_membership {m : Membership}
    (hO : organizationRef m.organizationId ∈ K) (hu : userRef m.userId ∈ K) :
    constraints.Admits (t := .memberships) K m := by
  refine ⟨columns_membership m, ?_⟩
  simpa [constraints, references] using ⟨hO, hu⟩

theorem checked_createOrganization {body : OrganizationCreate}
    {requestId : String} (hbody : AcceptedOrganizationCreate body)
    (hrequest : requestId.length ≤ 128) (huser : userRef user.id ∈ K) :
    Checked (create user body requestId) K := by
  obtain ⟨hname, hslug, hlength⟩ := hbody
  apply sends_freshId_bind
  intro id
  apply sends_now_bind
  intro createdAt
  apply sends_now_bind
  intro updatedAt
  apply sends_insertRow_bind
  · exact ⟨⟨hname.2, hlength, hslug⟩, by simp [constraints, references]⟩
  · intro e
    cases e <;> trivial
  · intro K₁ h₁ horganization
    have hO : organizationRef id ∈ K₁ := horganization.known rfl
    apply sends_insertOrHalt_bind (admits_membership hO (h₁ huser))
    intro K₂ h₂ hm
    have hsome : ∀ i, some id = some i → organizationRef i ∈ K₂ := by
      intro i hi
      exact Option.some.inj hi ▸ h₂ hO
    apply sends_audit_bind (h₂ (h₁ huser)) hsome (by decide) (by decide)
    · intro i hi
      exact Option.some.inj hi ▸ hrequest
    · exact fun _ _ => trivial

theorem checked_rename {body : OrganizationUpdate}
    (hbody : AcceptedOrganizationUpdate body) :
    Checked (update O user body) K := by
  apply sends_requireMembership_bind
  intro m K₁ h₁ hO huser
  apply sends_get_bind
  intro o K₂ h₂ ho
  apply sends_require_bind
  intro org horg
  apply sends_now_bind
  intro updatedAt
  have haudit : ∀ K', K₂ ⊆ K' → Checked (do
      audit user.id (some O) "organization.updated" "organization" org.id
        .empty none
      Prog.commitNow
      return { org with name := body.name }) K' := by
    intro K' h'
    exact sends_audited_bind (h' (h₂ huser)) (h' (h₂ hO)) (by decide)
      (by decide) fun _ _ => trivial
  dsimp only
  split
  · exact haudit K₂ Set.Subset.rfl
  · apply sends_updateKey_bind
    · exact fun _ => rfl
    · exact fun K' hK o ho => ⟨⟨hbody.2, ho.row.2⟩, ho.refs⟩
    · exact haudit

theorem sends_lockMember_bind {userId : Uuid} {held : Option Membership}
    {f : Membership → Tx α}
    (h : ∀ m K', K ⊆ K' → constraints.Sends Q (f m) K') :
    constraints.Sends Q (lockMember O userId held >>= f) K := by
  simp only [lockMember, bind_assoc]
  apply sends_locking_bind
  · exact fun _ _ _ _ _ => trivial
  · intro rows K₁ h₁ hrows
    cases held with
    | some m => exact h m K₁ h₁
    | none =>
        apply sends_get_bind
        intro o K₂ h₂ ho
        apply sends_require_bind
        exact fun m _ => h m K₂ (h₁.trans h₂)

theorem sends_protectOwner_bind {member : Membership} {f : Unit → Tx α}
    (h : ∀ K', K ⊆ K' → constraints.Sends Q (f ()) K') :
    constraints.Sends Q (protectOwner O member >>= f) K := by
  by_cases howner : member.role = .owner
  · simp only [protectOwner, if_pos howner, bind_assoc]
    apply sends_select_bind
    intro db hdb hK
    apply sends_ensure_bind
    exact fun _ => h _ hK
  · simp only [protectOwner, if_neg howner]
    exact h K Set.Subset.rfl

theorem checked_changeRole {memberId : Uuid} {body : RoleChange} :
    Checked (changeRole O memberId user body) K := by
  apply sends_requireMembership_bind
  intro m K₁ h₁ hO huser
  apply sends_lockMember_bind
  intro member K₂ h₂
  have haudit : ∀ K', K₂ ⊆ K' → Checked (do
      audit user.id (some O) "membership.role_changed" "membership" memberId
        (.roles member.role body.role) none
      Prog.commitNow) K' := by
    intro K' h'
    exact sends_audited_bind (h' (h₂ huser)) (h' (h₂ hO)) (by decide)
      (by decide) fun _ _ => trivial
  have hset : ∀ K', K₂ ⊆ K' → Checked (do
      (if member.role = body.role then pure ()
        else Prog.updateKey (σ := schema) .memberships
          (membershipKey O memberId) fun m => { m with role := body.role })
      audit user.id (some O) "membership.role_changed" "membership" memberId
        (.roles member.role body.role) none
      Prog.commitNow) K' := by
    intro K' h'
    split
    · exact haudit K' h'
    · apply sends_updateKey_bind
      · exact fun _ => rfl
      · exact fun K'' _ m hm => ⟨columns_membership _, hm.refs⟩
      · exact fun K'' h'' => haudit K'' (h'.trans h'')
  dsimp only
  split
  · exact sends_protectOwner_bind hset
  · exact hset K₂ Set.Subset.rfl

theorem checked_removeMember {memberId : Uuid} :
    Checked (removeMember O memberId user) K := by
  have hmemberships : ¬constraints.permanent .memberships := not_permanent rfl
  apply sends_requireMembership_bind
  intro m K₁ h₁ hO huser
  apply sends_lockMember_bind
  intro member K₂ h₂
  apply sends_ensure_bind
  intro _
  apply sends_protectOwner_bind
  intro K₃ h₃
  have hlast : K₁ ⊆ K₃ := h₂.trans h₃
  apply sends_audited_bind (hlast huser) (hlast hO) (by decide) (by decide)
  intro K₄ h₄
  exact sends_deleteKey_bind hmemberships fun _ _ => trivial

/-- An event of the outbox that no worker has claimed. -/
theorem admits_outboxEvent {e : OutboxEvent} (htopic : e.topic.length ≤ 100)
    (hlocked : e.lockedBy = none) :
    constraints.Admits (t := .outboxEvents) K e := by
  refine ⟨⟨htopic, ?_⟩, by simp [constraints, references]⟩
  simp [hlocked]

theorem checked_invite {body : InvitationCreate}
    (hemail : body.email.utf8ByteSize ≤ 320) :
    Checked (invite H O user body) K := by
  have htopic : "email.invitation".length ≤ 100 := by decide
  apply sends_requireMembership_bind
  intro m K₁ h₁ hO huser
  apply sends_freshId_bind
  intro raw
  apply sends_now_bind
  intro expiresFrom
  apply sends_freshId_bind
  intro id
  apply sends_insertOrHalt_bind
  · refine ⟨⟨(length_lower_le _).trans hemail, length_role _,
      (length_hexdigest _).le⟩, ?_⟩
    · simpa [constraints, references] using ⟨hO, huser⟩
  · intro K₂ h₂ hinvitation
    apply sends_audited_bind (h₂ huser) (h₂ hO) (by decide) (by decide)
    intro K₃ h₃
    apply sends_freshId_bind
    intro eventId
    apply sends_now_bind
    intro occurredAt
    apply sends_insertOrHalt_bind
    · exact admits_outboxEvent htopic rfl
    · exact fun _ _ _ => trivial

theorem checked_revokeInvitation {invitationId : Uuid} :
    Checked (revokeInvitation O invitationId user) K := by
  apply sends_requireMembership_bind
  intro m K₁ h₁ hO huser
  apply sends_lockOne_bind
  intro o K₂ h₂ ho
  apply sends_require_bind
  intro invitation hinvitation
  apply sends_now_bind
  intro revokedAt
  apply sends_updateKey_bind
  · exact fun _ => rfl
  · exact fun K' _ i hi => ⟨hi.row, hi.refs⟩
  · intro K₃ h₃
    exact sends_audited_bind (h₃ (h₂ huser)) (h₃ (h₂ hO)) (by decide)
      (by decide) fun _ _ => trivial

theorem checked_join {invitation : Invitation} {time : Instant}
    (hinvitation : constraints.Found (t := .invitations) K invitation)
    (huser : userRef user.id ∈ K) :
    Checked (join user invitation time) K := by
  have hO : organizationRef invitation.organizationId ∈ K :=
    hinvitation.admits.refs _ List.mem_cons_self
  apply sends_get_bind
  intro o K₁ h₁ ho
  have hlast : ∀ K', K₁ ⊆ K' → Checked (do
      Prog.updateKey (σ := schema) .invitations (.id invitation.id)
        fun i => { i with acceptedAt := some (invitation.acceptedAt.getD time) }
      audit user.id (some invitation.organizationId) "invitation.accepted"
        "invitation" invitation.id .empty none
      Prog.commitNow) K' := by
    intro K' h'
    have hsub : K ⊆ K' := h₁.trans h'
    apply sends_updateKey_bind
    · exact fun _ => rfl
    · exact fun K'' _ i hi => ⟨hi.row, hi.refs⟩
    · intro K'' h''
      exact sends_audited_bind (h'' (hsub huser)) (h'' (hsub hO)) (by decide)
        (by decide) fun _ _ => trivial
  dsimp only
  split
  · apply sends_insertOrHalt_bind (admits_membership (h₁ hO) (h₁ huser))
    exact fun K' h' _ => hlast K' h'
  · exact hlast K₁ Set.Subset.rfl

theorem checked_accept {body : InvitationAccept}
    (huser : userRef user.id ∈ K) : Checked (accept H user body) K := by
  apply sends_lockOne_bind
  intro o K₁ h₁ ho
  apply sends_now_bind
  intro time
  apply sends_require_bind
  intro invitation hinvitation
  apply sends_ensure_bind
  intro _
  apply sends_ensure_bind
  intro _
  split
  · trivial
  · exact checked_join (ho invitation hinvitation) (h₁ huser)

end Organizations

end Workstream.Schemas
