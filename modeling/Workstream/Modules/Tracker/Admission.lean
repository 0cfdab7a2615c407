import Workstream.Modules.Tracker.Archive
import Workstream.ReadCommitted.Gates

/-!
# Archived projects

`create_issue` reads the project, stops if it is archived, and goes on to the
`UPDATE` that takes a number.  That `UPDATE` waits for the row and re-checks
its own `WHERE` clause, which names the identifier only.  A project that is
archived in between gets its issue all the same.
-/

namespace Workstream.Tracker

open ReadCommitted Contract World

/-- The project into which a request puts a new issue. -/
def Request.entersProject : Request → Option Uuid
  | .issue (.createIssue _ _ body) => some body.projectId
  | _ => none

/-- The project that a request archives. -/
def Request.archivesProject : Request → Option Uuid
  | .issue (.setArchived _ k _ true) => some k
  | _ => none

/-- Project `k` is there in `db`, and is not archived. -/
def Open (k : Uuid) (db : Db) : Prop :=
  ∃ project : Project, (db .projects).lookup (.id k) = some project ∧
    project.archived = false

/-! ## Steps -/

section Steps

variable {H : TokenHash} {past : List schema.Ref → Db → Prop}
  {c : Commit schema} {k : Uuid}

theorem not_mem_of_notified {db : Db} {O i : Uuid} {actor : User}
    {assigneeId : Option Uuid} {ws : List (Write schema)}
    (h : Issues.Notified db O i actor assigneeId ws) {w : Write schema}
    (hw : w.ref.1 ≠ Table.notifications) : w ∉ ws :=
  fun hmem => hw (ref_of_notified h w hmem)

/-- A request that does not archive the project leaves it open. -/
theorem open_of_put {request : Issues.Request}
    (h : Issues.Transacts past request c) (hopen : Open k c.before)
    (hother : Request.archivesProject (.issue request) ≠ some k)
    {project : Project} (hput : .put .projects project ∈ c.session.writes)
    (hid : project.id = k) : project.archived = false := by
  obtain ⟨r, hr, harchived⟩ := hopen
  have hsame : ∀ {j : Uuid} {r' : Project},
      (c.before .projects).lookup (.id j) = some r' → r'.id = k →
        r' = r := by
    intro j r' hr' hk
    obtain rfl : k = j := hk.symm.trans (Key.id.inj (Relation.key_of_lookup hr'))
    rw [hr] at hr'
    exact (Option.some.inj hr').symm
  cases h with
  | projectCreated m id createdAt event _ hnew _ hwrites =>
      rw [hwrites] at hput
      rcases List.mem_cons.mp hput with hput | hput
      · cases hput
        rfl
      · simp at hput
  | projectKept m project' _ _ _ hwrites =>
      rw [hwrites] at hput
      cases hput
  | projectChanged m project' r₁ r' _ _ hrow hvalues hwrites =>
      rw [hwrites] at hput
      cases List.mem_singleton.mp hput
      obtain ⟨name, description, rfl⟩ :=
        Projects.ProjectUpdate.apply_cases hvalues
      obtain rfl := hsame hrow hid
      exact harchived
  | archivedKept m project' event _ _ _ _ hwrites => simp [hwrites] at hput
  | @archivedChanged O j user archived _ m project' r₁ event _ _ _ hrow _
      hwrites =>
      rw [hwrites] at hput
      rcases List.mem_cons.mp hput with hput | hput
      · cases hput
        cases archived with
        | true =>
            have hj : r₁.id = j := Key.id.inj (Relation.key_of_lookup hrow)
            exact absurd (congrArg some (hj.symm.trans hid)) hother
        | false => rfl
      · simp at hput
  | issueCreated m project' r₁ id createdAt updatedAt event ws _ _ _ _ hrow _ _
      hnotified hwrites =>
      rw [hwrites] at hput
      rcases List.mem_cons.mp hput with hput | hput
      · cases hput
        obtain rfl := hsame hrow hid
        exact harchived
      · have hnot : .put .projects project ∉ ws :=
          not_mem_of_notified hnotified (by simp [Write.ref])
        simp [hnot] at hput
  | assigned m db x r' time event ws _ _ _ _ _ hnotified hwrites =>
      have hnot : .put .projects project ∉ ws :=
        not_mem_of_notified hnotified (by simp [Write.ref])
      simp [hwrites, hnot] at hput
  | _ => simp [*] at hput

/-- No request deletes a project. -/
theorem Transacts.keepsProject {request : Request}
    (h : Transacts H past c request) (j : Key) :
    .del .projects j ∉ c.session.writes := by
  intro hdel
  have htable : Table.projects ∈ request.tables := h.tables _ hdel
  cases h with
  | issue request h =>
      cases h with
      | issueCreated _ _ _ _ _ _ _ ws _ _ _ _ _ _ _ hnotified hwrites =>
          have hnot : .del .projects j ∉ ws :=
            not_mem_of_notified hnotified (by simp [Write.ref])
          simp [hwrites, hnot] at hdel
      | assigned _ _ _ _ _ _ ws _ _ _ _ _ hnotified hwrites =>
          have hnot : .del .projects j ∉ ws :=
            not_mem_of_notified hnotified (by simp [Write.ref])
          simp [hwrites, hnot] at hdel
      | _ => simp [*] at hdel
  | _ => simp [Request.tables] at htable

theorem Transacts.open_after {request : Request}
    (h : Transacts H past c request) (hopen : Open k c.before)
    (hother : request.archivesProject ≠ some k) : Open k c.after := by
  cases hafter : (c.after .projects).lookup (.id k) with
  | none =>
      obtain ⟨r, hr, -⟩ := hopen
      rcases after_none hafter with hbefore | hdel
      · rw [hr] at hbefore
        cases hbefore
      · exact absurd hdel (h.keepsProject _)
  | some project =>
      refine ⟨project, hafter, ?_⟩
      have hid : project.id = k := Key.id.inj (Relation.key_of_lookup hafter)
      rcases after_cases hafter with hbefore | hput
      · obtain ⟨r, hr, harchived⟩ := hopen
        rw [hr] at hbefore
        exact Option.some.inj hbefore ▸ harchived
      · have htable : Table.projects ∈ request.tables := h.tables _ hput
        cases h with
        | issue request h => exact open_of_put h hopen hother hput hid
        | _ => simp [Request.tables] at htable

end Steps

/-! ## The gate -/

/-- `create_issue` goes on only if it has read an open project. -/
theorem gated_createIssue {O : Uuid} {user : User} {body : Issues.IssueCreate} :
    (Issues.createIssue O user body).Gated (Open body.projectId) 1 := by
  simp only [Issues.createIssue, requireMembership, Projects.getProject, get,
    bind_assoc, pure_bind]
  refine Prog.gated_select_bind fun db => ?_
  refine Prog.gated_require_bind fun m => ?_
  refine Prog.gated_ensure_bind ?_
  refine Prog.gate_select_bind fun db hclosed => ?_
  have hrows : ∀ project ∈ (db .projects).rows.filter fun p : Project =>
      p.id = body.projectId ∧ p.organizationId = O,
      project.archived = true := by
    intro project hproject
    obtain ⟨hmem, hkey⟩ := List.mem_filter.mp hproject
    have hlook := Relation.lookup_key hmem
    by_contra hopen
    refine hclosed ⟨project, ?_, Bool.of_not_eq_true hopen⟩
    rw [← (of_decide_eq_true hkey).1]
    exact hlook
  generalize (db .projects).rows.filter (fun p : Project =>
    p.id = body.projectId ∧ p.organizationId = O) = rows at hrows ⊢
  rcases rows with _ | ⟨project, _ | ⟨other, rest⟩⟩
  · rfl
  · apply Prog.ends_require_bind
    intro b hb
    obtain rfl := Option.some.inj hb
    apply Prog.ends_ensure_bind
    intro hopen
    have harchived := hrows project List.mem_cons_self
    simp [harchived] at hopen
  · rfl

theorem gated_serve {H : TokenHash} {request : Request} {k : Uuid}
    (h : request.entersProject = some k) :
    (serve H request).Gated (Open k) 1 := by
  cases request with
  | issue request =>
      cases request with
      | createIssue O user body =>
          obtain rfl := Option.some.inj h
          exact ((gated_createIssue).bind _).bind _
      | _ => cases h
  | _ => cases h

/-! ## Runs -/

/-- A step that commits an archival of project `k` is taken while no client
that wants to put an issue into the project has found it open and is still
under way. -/
def Patient (requests : Pid → Request) (k : Uuid)
    (w w' : World schema AppError Response) : Prop :=
  ∀ c, w'.log = c :: w.log → (requests c.pid).archivesProject = some k →
    ∀ q, (requests q).entersProject = some k →
      ¬ Passed (Open k) 1 (w.procs q)

theorem awaited_createIssue {H : TokenHash} {requests : Pid → Request}
    {k : Uuid} {s₀ : Db} :
    Awaited (Patient requests k) s₀ (fun p => serve H (requests p))
      (fun q => (requests q).entersProject = some k) (Open k) 1 where
  gated := fun q hq => gated_serve hq
  waits := by
    intro w w' p x hreach hstep hpatient hopen hclosed q hq
    rcases (change_of_advance hstep).log with ⟨_, hstore⟩ | ⟨_, hlog, hafter⟩
    · exact absurd (hstore ▸ hopen) hclosed
    · have hsound := sound_services (hreach.step p x hstep)
      obtain ⟨_, past, htransacts⟩ := hsound.guar (w.commitOf p) (by simp [hlog])
      refine hpatient _ hlog ?_ q hq
      by_contra hother
      exact hclosed (hafter ▸ htransacts.open_after hopen hother)

/-- Every issue enters an open project in the runs whose archivals wait for
the requests that have found the project open. -/
theorem no_issue_archived {H : TokenHash} {requests : Pid → Request} {k : Uuid}
    {s₀ : Db} {w : World schema AppError Response}
    (hreach : ReachableBy (Patient requests k) (clients H requests s₀) w) :
    ∀ c ∈ w.log, (requests c.pid).entersProject = some k →
      Open k c.before := by
  intro c hc henters
  have hsound := sound_services hreach.reachable
  exact holds_of_commit awaited_createIssue hreach c hc henters
    (hsound.guar c hc).1

/-! ## Runs on given inputs -/

/-- Two creations in a project, and its archival. -/
def lateCreation : Pid → Request
  | 0 => .issue (.createProject 2 Issues.alice { name := "Board", key := "BRD" })
  | 1 => .issue
      (.createIssue 2 Issues.alice { projectId := 50, title := "Task" })
  | 2 => .issue
      (.createIssue 2 Issues.alice { projectId := 50, title := "Chore" })
  | 3 => .issue (.setArchived 2 50 Issues.alice true)
  | _ => .label (.create 2 Issues.alice { name := "Bug", color := "#112233" })

/-- The archival of the project up to its commit. -/
def projectArchival : List (Pid × Input schema) :=
  steps 3 [.go, .go, .order [.id 50], .go, .go, .value 90, .value 300, .go]

/-- A creation that has found the project. -/
def creationRead : List (Pid × Input schema) := steps 2 [.go, .go]

def creationCommit : List (Pid × Input schema) :=
  steps 2 [.order [.id 50], .go, .go, .value 70, .value 310, .value 310, .go,
    .value 71, .value 310, .go, .go]

/-- The project is archived between the read and the `UPDATE`. -/
def createdArchived : List (Pid × Input schema) :=
  Issues.projectSteps ++ creationRead ++ projectArchival ++ steps 3 [.go] ++
    creationCommit

/-- An issue enters a project that is archived. -/
theorem issue_enters_archived :
    ¬ ∀ w, Reachable (clients plainHash lateCreation Issues.oneOwner) w →
      ∀ c ∈ w.log, (lateCreation c.pid).entersProject = some 50 →
        Open 50 c.before := by
  intro hclaim
  have hrun : ((clients plainHash lateCreation Issues.oneOwner).run
      createdArchived).any (fun w => w.log.map Commit.pid = [2, 3, 0] ∧
        ∀ c ∈ w.log, c.pid = 2 →
          ((c.before .projects).lookup (.id 50)).all Project.archived = true) =
        true := by
    decide +kernel
  obtain ⟨w, hreach, hpids, harchived⟩ := exists_reachable hrun
  obtain ⟨c, rest, hw, hc, -⟩ := List.map_eq_cons_iff.mp hpids
  have hmem : c ∈ w.log := hw ▸ List.mem_cons_self
  obtain ⟨project, hlook, hopen⟩ :=
    hclaim w hreach c hmem (by rw [hc]; rfl)
  have hall := harchived c hmem hc
  rw [hlook, Option.all_some, hopen] at hall
  cases hall

/-- The archival waits for the first creation and comes before the second. -/
def createdBefore : List (Pid × Input schema) :=
  Issues.projectSteps ++ Issues.creationSteps 1 60 ++ steps 1 [.go] ++
    projectArchival ++ steps 3 [.go] ++ creationRead

/-- Neither creation is between its gate and its commit. -/
def nobodyPassed (w : World schema AppError Response) : Bool :=
  [1, 2].all fun q => (w.session q).seen.any Obs.isCommit ||
    ((w.session q).read 1).isNone

/-- A test for the steps of `createdBefore`. -/
def patient (w w' : World schema AppError Response) : Bool :=
  w'.log.length = w.log.length || w'.log.head?.any (fun c => c.pid ≠ 3) ||
    nobodyPassed w

theorem lateCreation_archives {p : Pid}
    (h : (lateCreation p).archivesProject = some 50) : p = 3 := by
  match p, h with
  | 3, _ => rfl
  | n + 4, h => cases h

theorem lateCreation_enters {p : Pid}
    (h : (lateCreation p).entersProject = some 50) : p ∈ [1, 2] := by
  match p, h with
  | 1, _ => simp
  | 2, _ => simp
  | 3, h => cases h
  | n + 4, h => cases h

theorem patient_of_test {w w' : World schema AppError Response}
    (h : patient w w' = true) : Patient lateCreation 50 w w' := by
  intro c hlog harchives q henters hpassed
  have hnobody : nobodyPassed w = true := by
    simpa [patient, hlog, lateCreation_archives harchives] using h
  have htest := List.all_eq_true.mp hnobody q (lateCreation_enters henters)
  obtain ⟨db, hread, -⟩ := hpassed.read
  change (w.session q).read 1 = some db at hread
  rw [hread, Option.isNone_some, Bool.or_false] at htest
  obtain ⟨o, ho, hcommit⟩ := List.any_eq_true.mp htest
  cases o with
  | committed => exact hpassed.uncommitted ho
  | _ => cases hcommit

theorem no_issue_archived_createdBefore :
    ∃ w, ReachableBy (Patient lateCreation 50)
        (clients plainHash lateCreation Issues.oneOwner) w ∧
      w.log.map Commit.pid = [3, 1, 0] ∧
      ∀ c ∈ w.log, (lateCreation c.pid).entersProject = some 50 →
        Open 50 c.before := by
  have hrun : ((clients plainHash lateCreation Issues.oneOwner).runBy patient
      createdBefore).any (fun w => w.log.map Commit.pid = [3, 1, 0]) =
        true := by
    decide +kernel
  obtain ⟨w, hrun, hpids⟩ := (Option.any_eq_true _ _).mp hrun
  have hreach := ReachableBy.start.runBy (fun _ _ => patient_of_test) hrun
  exact ⟨w, hreach, of_decide_eq_true hpids, no_issue_archived hreach⟩

end Workstream.Tracker
