import Workstream.Modules.Issues.Versions
import Workstream.Modules.Tracker.Requests

/-!
# Archived issues

Every request that changes an issue looks for it among the unarchived ones
first, and then writes without looking again: the guarded `UPDATE` compares
the version, which an archival does not change, and comments and links only
need the issue to exist.  An archival is final for the requests that have not
read the issue before it.
-/

namespace Workstream.Tracker

open ReadCommitted Contract World

/-- The issue to which a request writes if the issue is not archived. -/
def Request.writesTo : Request → Option Uuid
  | .issue (.updateIssue _ i _ _) => some i
  | .issue (.changeStatus _ i _ _) => some i
  | .issue (.assign _ i _ _) => some i
  | .label (.attach _ i _ _) => some i
  | .comment (.create _ i _ _) => some i
  | _ => none

/-- The issue that a request archives. -/
def Request.archives : Request → Option Uuid
  | .issue (.archive _ i _) => some i
  | _ => none

/-- Issue `i` is archived in `db`. -/
def Archived (db : Db) (i : Uuid) : Prop :=
  ∃ x : Issue, (db .issues).lookup (.id i) = some x ∧ x.archivedAt ≠ none

/-- Issue `i` is there in `db`, and is not archived. -/
def Unarchived (db : Db) (i : Uuid) : Prop :=
  ∃ x : Issue, (db .issues).lookup (.id i) = some x ∧ x.archivedAt = none

/-- The columns that an archival makes final. -/
structure SameContent (x y : Issue) : Prop where
  title : y.title = x.title
  description : y.description = x.description
  priority : y.priority = x.priority
  dueDate : y.dueDate = x.dueDate
  status : y.status = x.status
  assigneeId : y.assigneeId = x.assigneeId
  version : y.version = x.version

/-- The commit changes nothing of issue `i` and adds nothing to it. -/
structure LeavesAlone (c : Commit schema) (i : Uuid) : Prop where
  issue : ∀ x : Issue, (c.before .issues).lookup (.id i) = some x →
    ∃ y : Issue, (c.after .issues).lookup (.id i) = some y ∧ SameContent x y
  comments : ∀ k (r : Comment), (c.before .comments).lookup k = none →
    (c.after .comments).lookup k = some r → r.issueId ≠ i
  links : ∀ k (r : IssueLabel), (c.before .issueLabels).lookup k = none →
    (c.after .issueLabels).lookup k = some r → r.issueId ≠ i

/-- Issue `i` has been archived since the request read it. -/
def Overtaken (c : Commit schema) (i : Uuid) : Prop :=
  (∃ db, .saw db ∈ c.session.seen ∧ Unarchived db i) ∧ Archived c.before i

/-! ## Steps -/

/-- What a request makes of the row `x` of issue `i`. -/
inductive Revises (request : Request) (i : Uuid) (x : Issue) :
    Issue → Prop where
  | kept (harchives : request.archives ≠ some i) : Revises request i x x
  | written (y : Issue) (hwrites : request.writesTo = some i)
      (harchived : y.archivedAt = x.archivedAt) : Revises request i x y
  | archived (archivedAt updatedAt : Instant)
      (harchives : request.archives = some i) :
      Revises request i x { x with archivedAt := some archivedAt, updatedAt }

section Steps

variable {H : TokenHash} {past : List schema.Ref → Db → Prop}
  {c : Commit schema} {i : Uuid}

theorem archivedAt_of_apply {body : Issues.IssueUpdate} {x v : Issue}
    (h : body.apply x = some v) : v.archivedAt = x.archivedAt := by
  obtain ⟨title, description, priority, dueDate, rfl⟩ :=
    Issues.IssueUpdate.apply_cases h
  rfl

/-- An issue row that is written first, and no other one after it. -/
theorem lookup_of_issue_put {r v x : Issue} {j : Uuid}
    {ws : List (Write schema)}
    (hrow : (c.before .issues).lookup (.id j) = some r)
    (hwrites : c.session.writes = .put .issues v :: ws) (hid : v.id = r.id)
    (hws : ∀ w ∈ ws, w.ref.1 ≠ Table.issues)
    (hx : (c.before .issues).lookup (.id i) = some x) :
    i = j ∧ x = r ∧ (c.after .issues).lookup (.id i) = some v ∨
      i ≠ j ∧ (c.after .issues).lookup (.id i) = some x := by
  have hrest : ∀ k, ∀ w ∈ ws, w.ref ≠ (Table.issues, k) :=
    fun k w hw href => hws w hw (by rw [href])
  have hj : v.id = j := hid.trans (Key.id.inj (Relation.key_of_lookup hrow))
  by_cases hij : i = j
  · subst hij
    rw [hrow] at hx
    have hafter := lookup_after_put (t := Table.issues) [] hwrites (hrest _)
    rw [show primaryKey .issues v = .id i from congrArg Key.id hj] at hafter
    exact Or.inl ⟨rfl, (Option.some.inj hx).symm, hafter⟩
  · refine Or.inr ⟨hij, ?_⟩
    rw [lookup_after_of_writes, hx]
    intro w hw
    rw [hwrites] at hw
    rcases List.mem_cons.mp hw with rfl | hw
    · intro href
      have hkey : Key.id v.id = .id i := (Prod.mk.inj href).2
      exact hij ((Key.id.inj hkey).symm.trans hj)
    · exact hrest _ w hw

theorem issue_revises {request : Issues.Request}
    (h : Issues.Transacts past request c) {x : Issue}
    (hx : (c.before .issues).lookup (.id i) = some x) :
    ∃ y, (c.after .issues).lookup (.id i) = some y ∧
      Revises (.issue request) i x y := by
  have hkept : (∀ w ∈ c.session.writes, w.ref ≠ (Table.issues, .id i)) →
      Request.archives (.issue request) = none →
      ∃ y, (c.after .issues).lookup (.id i) = some y ∧
        Revises (.issue request) i x y := by
    intro hwrites harchives
    refine ⟨x, (lookup_after_of_writes hwrites).trans hx, .kept ?_⟩
    simp [harchives]
  cases h with
  | issueCreated m project r id createdAt updatedAt event ws _ _ _ _ _ hnew _
      hnotified hwrites =>
      refine hkept (fun w hw href => ?_) rfl
      rw [hwrites] at hw
      have hws := ref_of_notified hnotified
      have hid : Key.id id ≠ .id i := ne_of_lookup hnew hx
      rcases List.mem_cons.mp hw with rfl | hw
      · simp [Write.ref] at href
      rcases List.mem_cons.mp hw with rfl | hw
      · exact hid (Prod.mk.inj href).2
      rcases List.mem_cons.mp hw with rfl | hw
      · simp [Write.ref] at href
      · have htable := hws w hw
        simp [href] at htable
  | @updated O j user body _ m db x' r v time _ _ hexpected hvalues hwrites =>
      have hsame := Issues.IssueUpdate.apply_same hvalues
      have harchived := archivedAt_of_apply hvalues
      rcases lookup_of_issue_put hexpected.row hwrites hsame.id (by simp) hx
        with ⟨rfl, rfl, hafter⟩ | ⟨hij, hafter⟩
      · exact ⟨_, hafter, .written _ rfl harchived⟩
      · exact ⟨x, hafter, .kept (by simp [Request.archives])⟩
  | statusChanged m db x' r time event _ _ _ _ hexpected _ hwrites =>
      rcases lookup_of_issue_put hexpected.row hwrites rfl (by simp [Write.ref])
        hx with ⟨rfl, rfl, hafter⟩ | ⟨hij, hafter⟩
      · exact ⟨_, hafter, .written _ rfl rfl⟩
      · exact ⟨x, hafter, .kept (by simp [Request.archives])⟩
  | assigned m db x' r time event ws _ _ _ hexpected _ hnotified hwrites =>
      have hws := ref_of_notified hnotified
      rcases lookup_of_issue_put hexpected.row hwrites rfl
        (fun w hw => by
          rcases List.mem_cons.mp hw with rfl | hw
          · simp [Write.ref]
          · simp [hws w hw]) hx with ⟨rfl, rfl, hafter⟩ | ⟨hij, hafter⟩
      · exact ⟨_, hafter, .written _ rfl rfl⟩
      · exact ⟨x, hafter, .kept (by simp [Request.archives])⟩
  | archived m db x' r archivedAt updatedAt _ _ _ hrow hwrites =>
      rcases lookup_of_issue_put hrow hwrites rfl (by simp) hx with
        ⟨rfl, rfl, hafter⟩ | ⟨hij, hafter⟩
      · exact ⟨_, hafter, .archived archivedAt updatedAt rfl⟩
      · refine ⟨x, hafter, .kept ?_⟩
        simpa [Request.archives] using Ne.symm hij
  | _ => exact hkept (by simp [*, Write.ref]) rfl

theorem Transacts.revises {request : Request}
    (h : Transacts H past c request) {x : Issue}
    (hx : (c.before .issues).lookup (.id i) = some x) :
    ∃ y, (c.after .issues).lookup (.id i) = some y ∧
      Revises request i x y := by
  by_cases htable : Table.issues ∈ request.tables
  · cases h with
    | issue request h => exact issue_revises h hx
    | _ => simp [Request.tables] at htable
  · refine ⟨x, (h.lookup_after htable _).trans hx, .kept ?_⟩
    cases request with
    | issue request => simp [Request.tables] at htable
    | _ => simp [Request.archives]

/-- An archived issue stays archived. -/
theorem Transacts.archived {request : Request}
    (h : Transacts H past c request) (hbefore : Archived c.before i) :
    Archived c.after i := by
  obtain ⟨x, hx, harchived⟩ := hbefore
  obtain ⟨y, hy, hrevises⟩ := h.revises hx
  refine ⟨y, hy, ?_⟩
  cases hrevises with
  | kept _ => exact harchived
  | written _ _ hsame => exact hsame ▸ harchived
  | archived _ _ _ => exact Option.some_ne_none _

theorem Transacts.archives {request : Request}
    (h : Transacts H past c request) (harchives : request.archives = some i) :
    Archived c.after i := by
  cases h with
  | issue request h =>
      cases h with
      | @archived O j user _ m db x r archivedAt updatedAt _ _ _ hrow hwrites =>
          obtain rfl := Option.some.inj harchives
          rcases lookup_of_issue_put hrow hwrites rfl (by simp) hrow with
            ⟨_, _, hafter⟩ | ⟨hij, _⟩
          · exact ⟨_, hafter, Option.some_ne_none _⟩
          · exact absurd rfl hij
      | _ => cases harchives
  | _ => cases harchives

/-- A request that writes to an issue has read it unarchived. -/
theorem Transacts.unarchived {request : Request}
    (h : Transacts H past c request) (hwrites : request.writesTo = some i) :
    ∃ db, .saw db ∈ c.session.seen ∧ Unarchived db i := by
  have hgot : ∀ {O j : Uuid} {db : Db} {x : Issue},
      Issues.Got past c O j db x → some j = some i →
      ∃ db, .saw db ∈ c.session.seen ∧ Unarchived db i := by
    rintro O j db x hgot hj
    obtain rfl := Option.some.inj hj
    exact ⟨db, hgot.seen, x, hgot.row, hgot.unarchived⟩
  cases h with
  | issue request h =>
      cases h with
      | updated _ db x _ _ _ _ h => exact hgot h hwrites
      | statusChanged _ db x _ _ _ _ _ h => exact hgot h hwrites
      | assigned _ db x _ _ _ _ _ _ h => exact hgot h hwrites
      | _ => cases hwrites
  | label request h =>
      cases h with
      | attached _ db x _ _ _ h => exact hgot h hwrites
      | attachedBefore _ db _ x _ _ h => exact hgot h hwrites
      | _ => cases hwrites
  | comment request h =>
      cases h with
      | created _ db x _ _ _ h => exact hgot h hwrites
      | _ => cases hwrites
  | _ => cases hwrites

/-- Only `attach` adds a link, to the issue to which it writes. -/
theorem Transacts.attaches {request : Request}
    (h : Transacts H past c request) {k : Key} {r : IssueLabel}
    (hnew : (c.before .issueLabels).lookup k = none)
    (hr : (c.after .issueLabels).lookup k = some r) :
    request.writesTo = some r.issueId := by
  have hput : .put .issueLabels r ∈ c.session.writes := put_of_added hnew hr
  have htable : Table.issueLabels ∈ request.tables := h.tables _ hput
  cases h with
  | label request h =>
      cases h with
      | attached _ _ _ _ _ _ _ _ _ _ _ hwrites =>
          rw [hwrites] at hput
          cases List.mem_singleton.mp hput
          rfl
      | deleted _ _ _ ws _ _ _ _ hunlinks hwrites =>
          rw [hwrites] at hput
          rcases List.mem_cons.mp hput with hput | hput
          · cases hput
          · exact absurd hput hunlinks.not_put
      | _ => simp [*] at hput
  | _ => simp [Request.tables] at htable

/-- Only `create` adds a comment, to the issue to which it writes. -/
theorem Transacts.comments {request : Request}
    (h : Transacts H past c request) {k : Key} {r : Comment}
    (hnew : (c.before .comments).lookup k = none)
    (hr : (c.after .comments).lookup k = some r) :
    request.writesTo = some r.issueId := by
  have hput : .put .comments r ∈ c.session.writes := put_of_added hnew hr
  have htable : Table.comments ∈ request.tables := h.tables _ hput
  cases h with
  | comment request h =>
      cases h with
      | created _ _ _ _ _ _ _ _ hwrites =>
          rw [hwrites] at hput
          cases List.mem_singleton.mp hput
          rfl
      | @updated O j user body _ m row r' time _ _ _ hrow hwrites =>
          rw [hwrites] at hput
          cases List.mem_singleton.mp hput
          have hid : Key.id r'.id = .id j := Relation.key_of_lookup hrow
          have hk : Key.id r'.id = k := Relation.key_of_lookup hr
          rw [← hk, hid, hrow] at hnew
          cases hnew
      | _ => simp [*] at hput
  | _ => simp [Request.tables] at htable

theorem Transacts.leavesAlone {request : Request}
    (h : Transacts H past c request) (hwrites : request.writesTo ≠ some i) :
    LeavesAlone c i where
  issue := by
    intro x hx
    obtain ⟨y, hy, hrevises⟩ := h.revises hx
    refine ⟨y, hy, ?_⟩
    cases hrevises with
    | written _ h _ => exact absurd h hwrites
    | _ => exact ⟨rfl, rfl, rfl, rfl, rfl, rfl, rfl⟩
  comments := by
    intro k r hnew hr hi
    exact hwrites (hi ▸ h.comments hnew hr)
  links := by
    intro k r hnew hr hi
    exact hwrites (hi ▸ h.attaches hnew hr)

end Steps

/-! ## Runs -/

/-- An archival is final in the runs in which no request that writes to the
issue is overtaken by it. -/
theorem archival_final {H : TokenHash} {requests : Pid → Request} {s₀ : Db}
    {w : World schema AppError Response}
    (hreach : Reachable (clients H requests s₀) w) {i : Uuid}
    (hcurrent : ∀ c ∈ w.log, (requests c.pid).writesTo = some i →
      ¬ Overtaken c i) {newer older : List (Commit schema)}
    {d : Commit schema} (hlog : w.log = newer ++ d :: older)
    (hd : (requests d.pid).archives = some i) :
    ∀ c ∈ newer, LeavesAlone c i := by
  have hsound := sound_services hreach
  have hchain := (wellFormed_of_reachable hreach).chain
  rw [hlog] at hchain
  have hnewer : ∀ c ∈ newer, c ∈ w.log := by
    intro c hc
    rw [hlog]
    exact List.mem_append_left _ hc
  obtain ⟨_, past, htransacts⟩ := hsound.guar d (hlog ▸ by simp)
  obtain ⟨_, harchived⟩ := hchain.persist
    (P := fun db => Archived db i) (htransacts.archives hd) (fun c hc => by
      obtain ⟨_, past, htransacts⟩ := hsound.guar c (hnewer c hc)
      exact htransacts.archived)
  intro c hc
  obtain ⟨_, past, htransacts⟩ := hsound.guar c (hnewer c hc)
  refine htransacts.leavesAlone fun hwrites => ?_
  exact hcurrent c (hnewer c hc) hwrites
    ⟨htransacts.unarchived hwrites, harchived c hc⟩

/-- An edit and an archival of one issue. -/
def lateEdit : Pid → Request
  | 0 => .issue (.createProject 2 Issues.alice { name := "Board", key := "BRD" })
  | 1 => .issue
      (.createIssue 2 Issues.alice { projectId := 50, title := "Task" })
  | 2 => .issue (.updateIssue 2 60 Issues.alice
      { expectedVersion := 1, expected_pos := Issues.first_expected
        title := some (some "Late") })
  | 3 => .issue (.archive 2 60 Issues.alice)
  | _ => .label (.create 2 Issues.alice { name := "Bug", color := "#112233" })

/-- The edit has found the issue. -/
def editRead : List (Pid × Input schema) := steps 2 [.go, .go]

def editCommit : List (Pid × Input schema) :=
  steps 2 [.value 300, .order [.id 60], .go, .go, .go]

def archival : List (Pid × Input schema) :=
  steps 3 [.go, .go, .value 310, .value 310, .order [.id 60], .go, .go, .go]

/-- The edit reads the issue before the archival and commits after it. -/
def editedArchived : List (Pid × Input schema) :=
  Issues.projectSteps ++ Issues.creationSteps 1 60 ++ steps 1 [.go] ++
    editRead ++ archival ++ editCommit

/-- The edit is committed when the issue is archived. -/
def editedBefore : List (Pid × Input schema) :=
  Issues.projectSteps ++ Issues.creationSteps 1 60 ++ steps 1 [.go] ++
    editRead ++ editCommit ++ archival ++
    steps 4 [.go, .value 70, .go, .go]

/-- The edit of an archived issue is committed. -/
theorem archival_not_final :
    ¬ ∀ w, Reachable (clients plainHash lateEdit Issues.oneOwner) w →
      ∀ newer d older, w.log = newer ++ d :: older →
        (lateEdit d.pid).archives = some 60 →
        ∀ c ∈ newer, LeavesAlone c 60 := by
  intro hclaim
  have hrun : ((clients plainHash lateEdit Issues.oneOwner).run
      editedArchived).any (fun w => w.log.map Commit.pid = [2, 3, 1, 0] ∧
        ∀ c ∈ w.log, c.pid = 2 →
          ((c.before .issues).lookup (.id 60)).map Issue.version = some 1 ∧
          ((c.after .issues).lookup (.id 60)).map Issue.version = some 2) =
        true := by
    decide +kernel
  obtain ⟨w, hreach, hpids, hversions⟩ := exists_reachable hrun
  obtain ⟨c, rest, hw, hc, hrest⟩ := List.map_eq_cons_iff.mp hpids
  obtain ⟨d, older, rfl, hd, -⟩ := List.map_eq_cons_iff.mp hrest
  have harchives : (lateEdit d.pid).archives = some 60 := by
    rw [hd]
    rfl
  have halone := hclaim w hreach [c] d older hw harchives c
    (List.mem_singleton_self c)
  obtain ⟨hbefore, hafter⟩ := hversions c (hw ▸ List.mem_cons_self) hc
  obtain ⟨x, hx, hbefore⟩ := Option.map_eq_some_iff.mp hbefore
  obtain ⟨z, hz, hafter⟩ := Option.map_eq_some_iff.mp hafter
  obtain ⟨y, hy, hsame⟩ := halone.issue x hx
  rw [hy] at hz
  obtain rfl := Option.some.inj hz
  have hversion := hsame.version
  omega

theorem archival_final_editedBefore :
    ∃ w newer d older,
      Reachable (clients plainHash lateEdit Issues.oneOwner) w ∧
      w.log = newer ++ d :: older ∧ (lateEdit d.pid).archives = some 60 ∧
      newer ≠ [] ∧ ∀ c ∈ newer, LeavesAlone c 60 := by
  have hrun : ((clients plainHash lateEdit Issues.oneOwner).run
      editedBefore).any (fun w => w.log.map Commit.pid = [4, 3, 2, 1, 0] ∧
        ∀ c ∈ w.log, (lateEdit c.pid).writesTo = some 60 →
          ((c.before .issues).lookup (.id 60)).all
            fun x : Issue => x.archivedAt.isNone) = true := by
    decide +kernel
  obtain ⟨w, hreach, hpids, hcurrent⟩ := exists_reachable hrun
  obtain ⟨c, rest, hw, -, hrest⟩ := List.map_eq_cons_iff.mp hpids
  obtain ⟨d, older, rfl, hd, -⟩ := List.map_eq_cons_iff.mp hrest
  have harchives : (lateEdit d.pid).archives = some 60 := by
    rw [hd]
    rfl
  refine ⟨w, [c], d, older, hreach, hw, harchives, by simp, ?_⟩
  refine archival_final hreach (fun e he hwrites hovertaken => ?_) hw harchives
  obtain ⟨_, x, hx, harchived⟩ := hovertaken
  have hnone := hcurrent e he hwrites
  rw [hx, Option.all_some] at hnone
  exact harchived (Option.isNone_iff_eq_none.mp hnone)

end Workstream.Tracker
