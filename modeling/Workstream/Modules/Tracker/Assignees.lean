import Workstream.Modules.Organizations.Removal
import Workstream.Modules.Tracker.Admission

/-!
# Assignees

`validate_assignee` lets an issue be assigned to members of its organization
only.  No other request of the issue service changes the assignee, and
`remove_member` does not look at the issues at all: the assignments of a member
outlast the membership.
-/

namespace Workstream.Tracker

open ReadCommitted Contract World

/-! ## Histories -/

/-- Completed requests, newest first, lead from `s₀` to `s`. -/
abbrev History (H : TokenHash) (s₀ : Db) (turns : List (Turn schema Request))
    (s : Db) : Prop :=
  Turns (serve H) s₀ turns s

theorem History.induction {H : TokenHash} {s₀ s : Db}
    {turns : List (Turn schema Request)} (h : History H s₀ turns s)
    {P : List (Turn schema Request) → Db → Prop} (hnil : P [] s₀)
    (hcons : ∀ t ts, P ts t.before →
      t.Does (fun past c => Transacts H past c t.request) →
      P (t :: ts) t.after) : P turns s := by
  refine Turns.induction
    (G := fun request past c => Transacts H past c request) h ?_ hnil hcons
  intro request C p u hallows hinv
  exact requests_serve hallows hinv

/-! ## Assignments -/

/-- An issue that is not archived is assigned to nobody, or to a member of its
organization. -/
def Assigned (db : Db) : Prop :=
  ∀ i (x : Issue), (db .issues).lookup (.id i) = some x → x.archivedAt = none →
    ∀ u, x.assigneeId = some u →
      ∃ m, Organizations.member x.organizationId u db = some m

/-- `remove_member` lets `actor` take `u` out of the organization `O`: an admin
may not take an owner, and nobody the only one. -/
def MayRemove (O u : Uuid) (actor : User) (db : Db) : Prop :=
  ∃ am m : Membership, Organizations.member O actor.id db = some am ∧
    am.role ∈ [Role.owner, .admin] ∧
    Organizations.member O u db = some m ∧
    (am.role = .admin → m.role ≠ .owner) ∧
    (m.role = .owner → 1 < (Organizations.owners O db).length)

/-- The request may remove a member to whom an issue is assigned that is not
archived. -/
def Strands (request : Request) (db : Db) : Prop :=
  ∃ O u actor, request = .organization (.removeMember O u actor) ∧
    MayRemove O u actor db ∧
    ∃ i, ∃ x : Issue, (db .issues).lookup (.id i) = some x ∧
      x.organizationId = O ∧ x.archivedAt = none ∧ x.assigneeId = some u

section Steps

variable {H : TokenHash} {c : Commit schema}

/-- What a request commits that is alone. -/
abbrev Alone (H : TokenHash) (c : Commit schema) (request : Request) : Prop :=
  Transacts H (fun _ db => db = c.before) c request

/-- A removal commits only if it may. -/
theorem mayRemove_of_removed {O u : Uuid} {actor : User} {m : Membership}
    (h : Organizations.Alone H (.removeMember O u actor) c)
    (hm : Organizations.member O u c.before = some m) :
    MayRemove O u actor c.before := by
  cases h with
  | removed am m' event hchecked hfound hallowed hspared _ _ =>
      obtain ⟨hrole, db, _, rfl, ham⟩ := hchecked
      refine ⟨am, m', ham, hrole, ?_, hallowed, fun howner => ?_⟩
      · obtain ⟨refs, _, hheld⟩ := hfound
        by_cases hu : u = actor.id
        · rw [if_pos hu] at hheld
          rw [hheld, hu]
          exact ham
        · rw [if_neg hu] at hheld
          obtain ⟨db, rfl, hlook⟩ := hheld
          exact hlook
      · obtain ⟨db, rfl, howners⟩ := hspared howner
        exact howners
  | unremoved am m' event db _ _ _ hpast hgone _ _ =>
      subst hpast
      change Organizations.member O u c.before = none at hgone
      rw [hm] at hgone
      cases hgone

theorem member_after {request : Organizations.Request} {O u : Uuid}
    {m : Membership} (h : Organizations.Alone H request c)
    (hm : Organizations.member O u c.before = some m)
    (hkept : ∀ actor, request = .removeMember O u actor →
      ¬ MayRemove O u actor c.before) :
    ∃ m', Organizations.member O u c.after = some m' := by
  cases h.memberStep O u with
  | same hsame => exact ⟨m, hsame.trans hm⟩
  | founded _ _ _ _ _ _ _ hafter => exact ⟨_, hafter⟩
  | roleSet _ _ _ _ _ hafter => exact ⟨_, hafter⟩
  | joined _ _ _ _ hafter => exact ⟨_, hafter⟩
  | removed actor hrequest _ =>
      subst hrequest
      exact absurd (mayRemove_of_removed h hm) (hkept actor rfl)

/-- `validate_assignee` accepts members only. -/
theorem member_of_assignable {O u : Uuid} {db : Db}
    (h : Issues.Assignable (fun _ db' => db' = db) O (some u)) :
    ∃ m, Organizations.member O u db = some m := by
  obtain ⟨_, rfl, hmember⟩ := h
  simp only [Issues.activeMembers, List.mem_flatMap, List.mem_filter,
    decide_eq_true_eq] at hmember
  obtain ⟨m, ⟨hm, hO, hu⟩, -⟩ := hmember
  refine ⟨m, ?_⟩
  rw [Organizations.member, ← hO, ← hu]
  exact Relation.lookup_key hm

/-- The rows that the issue service writes have assignees who are members. -/
theorem assigned_of_put {request : Issues.Request}
    (h : Issues.Transacts (fun _ db => db = c.before) request c)
    (hassigned : Assigned c.before) {x : Issue}
    (hput : .put .issues x ∈ c.session.writes) (hopen : x.archivedAt = none)
    {u : Uuid} (hu : x.assigneeId = some u) :
    ∃ m, Organizations.member x.organizationId u c.before = some m := by
  cases h with
  | @issueCreated O user body _ m project r id createdAt updatedAt event ws _ _
      _ hassignee _ _ _ hnotified hwrites =>
      have hnot : .put .issues x ∉ ws :=
        not_mem_of_notified hnotified (by simp [Write.ref])
      have hx : x = Issues.newIssue O user body r.nextIssueNumber id createdAt
          updatedAt := by
        simpa [hwrites, hnot] using hput
      subst hx
      exact member_of_assignable (hu ▸ hassignee)
  | updated m db x' r v time _ _ hexpected hvalues hwrites =>
      rw [hwrites] at hput
      cases List.mem_singleton.mp hput
      obtain ⟨title, description, priority, dueDate, rfl⟩ :=
        Issues.IssueUpdate.apply_cases hvalues
      exact hassigned _ r hexpected.row hopen u hu
  | @statusChanged O j user body _ m db x' r time event _ _ _ _ hexpected _
      hwrites =>
      have hx : x = Issues.bump r { r with status := body.status } time := by
        simpa [hwrites] using hput
      subst hx
      exact hassigned _ r hexpected.row hopen u hu
  | @assigned O j user body _ m db x' r time event ws _ hassignee _ hexpected _
      hnotified hwrites =>
      have hnot : .put .issues x ∉ ws :=
        not_mem_of_notified hnotified (by simp [Write.ref])
      have hx : x =
          Issues.bump r { r with assigneeId := body.assigneeId } time := by
        simpa [hwrites, hnot] using hput
      subst hx
      obtain rfl := hexpected.organization
      exact member_of_assignable (hu ▸ hassignee)
  | archived m db x' r archivedAt updatedAt _ _ _ _ hwrites =>
      rw [hwrites] at hput
      cases List.mem_singleton.mp hput
      cases hopen
  | _ => simp [*] at hput

/-- Only `remove_member` takes an assignee out of the organization. -/
theorem Transacts.assigned {request : Request} (h : Alone H c request)
    (hassigned : Assigned c.before) (hkept : ¬ Strands request c.before) :
    Assigned c.after := by
  intro i x hx hopen u hu
  by_cases htable : Table.memberships ∈ request.tables
  · cases h with
    | organization request h =>
        rw [lookup_after_of_writes fun w hw href => ?_] at hx
        · obtain ⟨m, hm⟩ := hassigned i x hx hopen u hu
          refine member_after h hm fun actor hrequest hmay => hkept ?_
          exact ⟨_, u, actor, congrArg _ hrequest, hmay, i, x, hx, rfl, hopen,
            hu⟩
        · have hissues := tables_organization h w hw
          simp [href, Request.tables] at hissues
    | _ => simp [Request.tables] at htable
  · have hbefore : ∃ m, Organizations.member x.organizationId u c.before =
        some m := by
      rcases after_cases hx with hold | hput
      · exact hassigned i x hold hopen u hu
      · have hissues : Table.issues ∈ request.tables := h.tables _ hput
        cases h with
        | issue request h => exact assigned_of_put h hassigned hput hopen hu
        | _ => simp [Request.tables] at hissues
    obtain ⟨m, hm⟩ := hbefore
    exact ⟨m, (h.lookup_after htable _).trans hm⟩

end Steps

/-- Assignees are members in every state of a history in which nobody is
removed to whom an open issue is assigned. -/
theorem assignees_members {H : TokenHash} {s₀ s : Db}
    {turns : List (Turn schema Request)} (h : History H s₀ turns s)
    (h₀ : Assigned s₀) (hturns : ∀ t ∈ turns, ¬ Strands t.request t.before) :
    Assigned s ∧ ∀ t ∈ turns, Assigned t.after := by
  revert hturns
  refine h.induction (P := fun turns s =>
    (∀ t ∈ turns, ¬ Strands t.request t.before) →
      Assigned s ∧ ∀ t ∈ turns, Assigned t.after) (fun _ => ⟨h₀, by simp⟩) ?_
  intro t ts ih hdoes hturns
  obtain ⟨hbefore, hts⟩ := ih fun t' ht' =>
    hturns t' (List.mem_cons_of_mem t ht')
  have hafter : Assigned t.after := by
    rcases hdoes with hidle | ⟨c, htransacts, hc, hcafter⟩
    · rw [hidle]
      exact hbefore
    · rw [← hcafter]
      rw [← hc] at htransacts hbefore
      refine Transacts.assigned htransacts hbefore ?_
      rw [hc]
      exact hturns t List.mem_cons_self
  refine ⟨hafter, fun t' ht' => ?_⟩
  rcases List.mem_cons.mp ht' with rfl | ht'
  · exact hafter
  · exact hts t' ht'

/-! ## Histories on given inputs -/

def dave : User where
  id := 5
  email := "dave@example.org"
  passwordHash := 0
  displayName := "Dave"

def erin : User where
  id := 6
  email := "erin@example.org"
  passwordHash := 0
  displayName := "Erin"

/-- An organization with two members. -/
def twoMembers : Db :=
  ((Issues.oneOwner.write
    (.put Table.organizations { id := 2, name := "Acme", slug := "acme"
                                createdAt := 0, updatedAt := 0 })).write
      (.put Table.users dave)).write (.put Table.memberships
        { organizationId := 2, userId := 5, role := .member })

/-- Erin is a member, too. -/
def threeMembers : Db :=
  (twoMembers.write (.put Table.users erin)).write (.put Table.memberships
    { organizationId := 2, userId := 6, role := .member })

def boardCreation : Request :=
  .issue (.createProject 2 Issues.alice { name := "Board", key := "BRD" })

def onBoard (s₀ : Db) : Db :=
  outcome s₀ (serve plainHash boardCreation)
    [.go, .value 50, .value 100, .go, .value 51, .value 100, .go, .go]

/-- An issue for Dave. -/
def davesIssue : Request :=
  .issue (.createIssue 2 Issues.alice
    { projectId := 50, title := "Task", assigneeId := some 5 })

def forDave (s₀ : Db) : Db :=
  outcome (onBoard s₀) (serve plainHash davesIssue)
    [.go, .go, .go, .order [.id 50], .go, .go, .value 60, .value 200,
      .value 200, .go, .value 61, .value 200, .go, .value 62, .value 200, .go,
      .go]

def removal (u : Uuid) : Request :=
  .organization (.removeMember 2 u Issues.alice)

/-- The issue is Dave's, and `u` has been removed. -/
def without (u : Uuid) (s₀ : Db) : Db :=
  outcome (forDave s₀) (serve plainHash (removal u))
    [.go, .order [.id 2], .go, .go, .go, .value 70, .value 300, .go,
      .order [.pair 2 u], .go, .go, .go]

/-- A board, an issue for Dave on it, and the removal of `u`. -/
def davesHistory (u : Uuid) (s₀ : Db) : List (Turn schema Request) :=
  [⟨removal u, forDave s₀, without u s₀⟩, ⟨davesIssue, onBoard s₀, forDave s₀⟩,
    ⟨boardCreation, s₀, onBoard s₀⟩]

/-- Dave's issue is open. -/
def daves (db : Db) : Bool :=
  ((db .issues).lookup (.id 60)).any fun x : Issue =>
    x.organizationId = 2 ∧ x.archivedAt = none ∧ x.assigneeId = some 5

/-- The issue of a member who is removed stays assigned to him. -/
theorem assignee_removed :
    ¬ ∀ turns s, History plainHash twoMembers turns s → Assigned s := by
  intro hclaim
  have hcreation : Completes twoMembers (serve plainHash boardCreation)
      (onBoard twoMembers) :=
    completes_outcome (by decide +kernel)
  have hissue : Completes (onBoard twoMembers) (serve plainHash davesIssue)
      (forDave twoMembers) :=
    completes_outcome (by decide +kernel)
  have hremoval : Completes (forDave twoMembers)
      (serve plainHash (removal 5)) (without 5 twoMembers) :=
    completes_outcome (by decide +kernel)
  have hassigned := hclaim (davesHistory 5 twoMembers) (without 5 twoMembers)
    ⟨rfl, hremoval, rfl, hissue, rfl, hcreation, rfl⟩
  have hrow : daves (without 5 twoMembers) = true := by decide +kernel
  have hgone : Organizations.member 2 5 (without 5 twoMembers) = none := by
    decide +kernel
  obtain ⟨x, hx, hcolumns⟩ := (Option.any_eq_true _ _).mp hrow
  obtain ⟨hO, hopen, hu⟩ := of_decide_eq_true hcolumns
  obtain ⟨m, hm⟩ := hassigned 60 x hx hopen 5 hu
  rw [hO, hgone] at hm
  cases hm

theorem assigned_threeMembers : Assigned threeMembers := by
  intro i x hx
  cases hx

/-- Erin is removed, and the issue is Dave's. -/
theorem assignees_members_forDave :
    History plainHash threeMembers (davesHistory 6 threeMembers)
      (without 6 threeMembers) ∧
    Organizations.member 2 6 (without 6 threeMembers) = none ∧
    daves (without 6 threeMembers) = true ∧
    Assigned (without 6 threeMembers) := by
  have hcreation : Completes threeMembers (serve plainHash boardCreation)
      (onBoard threeMembers) :=
    completes_outcome (by decide +kernel)
  have hissue : Completes (onBoard threeMembers) (serve plainHash davesIssue)
      (forDave threeMembers) :=
    completes_outcome (by decide +kernel)
  have hremoval : Completes (forDave threeMembers)
      (serve plainHash (removal 6)) (without 6 threeMembers) :=
    completes_outcome (by decide +kernel)
  have hhistory : History plainHash threeMembers (davesHistory 6 threeMembers)
      (without 6 threeMembers) :=
    ⟨rfl, hremoval, rfl, hissue, rfl, hcreation, rfl⟩
  refine ⟨hhistory, by decide +kernel, by decide +kernel,
    (assignees_members hhistory assigned_threeMembers fun t ht => ?_).1⟩
  rcases List.mem_cons.mp ht with rfl | ht
  · rintro ⟨O, u, actor, hrequest, _, i, x, hx, _, _, hu⟩
    cases hrequest
    have hothers : ∀ x ∈ (forDave threeMembers .issues).rows,
        Issue.assigneeId x ≠ some 6 := by
      decide +kernel
    exact hothers x (Relation.mem_of_lookup hx) hu
  · rcases List.mem_cons.mp ht with rfl | ht
    · rintro ⟨_, _, _, hrequest, _⟩
      cases hrequest
    · obtain rfl := List.mem_singleton.mp ht
      rintro ⟨_, _, _, hrequest, _⟩
      cases hrequest

end Workstream.Tracker
