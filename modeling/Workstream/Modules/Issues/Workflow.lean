import Workstream.Modules.Issues.Versions

/-!
# The workflow and its audit trail

A change of status is checked against the row that `get_issue` has read and
written under the version that the client sends.  The audit trail is a path of
the workflow as long as each of them finds the status that it has read.
-/

namespace Workstream.Issues

open ReadCommitted Contract World

/-! ## One change of status -/

/-- The issue and the status that a request moves it to. -/
def Request.target : Request → Option (Uuid × IssueStatus)
  | .changeStatus _ issueId _ body => some (issueId, body.status)
  | _ => none

/-- The changes of the status of `i` that a commit writes to the audit log. -/
def statusEvents (i : Uuid) (c : Commit schema) :
    List (IssueStatus × IssueStatus) :=
  (c.session.writes.filterMap statusEvent).filterMap fun (j, step) =>
    if j = i then some step else none

/-- A commit moves the issue `i` along an edge of the workflow, and its audit
event says so. -/
def Truthful (i : Uuid) (c : Commit schema) : Prop :=
  ∃ r x, row i c.before = some r ∧ row i c.after = some x ∧
    canTransition r.status x.status = true ∧
    statusEvents i c = [(r.status, x.status)]

/-- The status that `get_issue` has read is the status which the `UPDATE`
replaces. -/
def StatusKept (i : Uuid) (c : Commit schema) : Prop :=
  ((readOn c).bind (row i)).map Issue.status =
    (row i c.before).map Issue.status

instance (i : Uuid) (c : Commit schema) : Decidable (StatusKept i c) :=
  inferInstanceAs (Decidable (_ = _))

/-- The version that `get_issue` has read is the one which the client
expects. -/
def ReadsExpected (request : Request) (i : Uuid) (c : Commit schema) : Prop :=
  ((readOn c).bind (row i)).map Issue.version = request.expected

/-- What a commit adds to the audit trail of `i`: nothing, or the step that
the request has checked. -/
inductive TrailChange (request : Request) (c : Commit schema) (i : Uuid) :
    Prop where
  | quiet (htarget : ∀ status, request.target ≠ some (i, status))
      (hevents : statusEvents i c = [])
  | moved (r x : Issue) (status : IssueStatus)
      (htarget : request.target = some (i, status))
      (hbefore : row i c.before = some r)
      (hexpected : request.expected = some r.version)
      (hstepped : Stepped c i status r x)
      (hevents : statusEvents i c = [(x.status, status)])

theorem statusEvents_of_aside {c : Commit schema} {i : Uuid}
    (ws : List (Write schema)) {rest : List (Write schema)}
    (hwrites : c.session.writes = ws ++ rest)
    (hws : ws.filterMap statusEvent = [])
    {events : List (Uuid × IssueStatus × IssueStatus)}
    (hrest : Aside rest events) :
    statusEvents i c = events.filterMap fun (j, step) =>
      if j = i then some step else none := by
  rw [statusEvents, hwrites, List.filterMap_append, hws, hrest.events,
    List.nil_append]

theorem Effects.trailChange {request : Request} {c : Commit schema}
    (h : Effects request c) (i : Uuid) : TrailChange request c i := by
  have htarget : ∀ {j}, request.issue = j → j ≠ some i →
      ∀ status, request.target ≠ some (i, status) := by
    rintro j rfl hne status heq
    cases request with
    | changeStatus =>
        cases heq
        exact hne rfl
    | _ => cases heq
  cases h with
  | nothing hissue hwrites =>
      exact .quiet (htarget hissue (by simp))
        (statusEvents_of_aside [] rfl rfl hwrites)
  | projectCreated project rest hissue _ _ hwrites hrest =>
      exact .quiet (htarget hissue (by simp))
        (statusEvents_of_aside [_] hwrites rfl hrest)
  | projectChanged p p' rest hissue _ _ _ hwrites hrest =>
      exact .quiet (htarget hissue (by simp))
        (statusEvents_of_aside [_] hwrites rfl hrest)
  | created project issue rest hissue _ _ _ _ _ _ _ hwrites hrest =>
      exact .quiet (htarget hissue (by simp))
        (statusEvents_of_aside [_, _] hwrites rfl hrest)
  | revised j r v time rest events hissue hlook hexpected _ hwrites hrest
      hevents hsteps =>
      have htrail := statusEvents_of_aside (i := i) [_] hwrites rfl
        hrest
      by_cases hchange : ∃ o user body,
          request = .changeStatus o j user body
      · obtain ⟨o, user, body, rfl⟩ := hchange
        obtain ⟨x, hstepped, rfl⟩ := hsteps o user body rfl
        by_cases hij : j = i
        · subst hij
          exact .moved r x body.status rfl hlook hexpected hstepped
            (htrail.trans (by simp))
        · exact .quiet (htarget hissue (by simpa using hij))
            (htrail.trans (by simp [hij]))
      · have hnone := hevents fun o user body heq =>
          hchange ⟨o, user, body, heq⟩
        refine .quiet ?_ (htrail.trans (by simp [hnone]))
        rintro status heq
        cases request with
        | changeStatus o k user body =>
            cases hissue
            exact hchange ⟨o, user, body, rfl⟩
        | _ => cases heq
  | archived j r _ _ hissue hexpected _ _ hwrites =>
      refine .quiet ?_ (statusEvents_of_aside [_] (hwrites.trans rfl) rfl
        .nil)
      rintro status heq
      cases request with
      | changeStatus => cases hexpected
      | _ => cases heq

theorem Request.issue_of_target {request : Request} {i : Uuid}
    {status : IssueStatus} (h : request.target = some (i, status)) :
    request.issue = some i := by
  cases request with
  | changeStatus =>
      cases h
      rfl
  | _ => cases h

/-- A request about `i` names the status if it is a change of status. -/
theorem Request.assigned_status {request : Request} {i : Uuid}
    (h : request.issue = some i) (clock : Option Instant) :
    (∃ status, request.target = some (i, status) ∧
      request.assigned clock .status = some status) ∨
    request.target = none ∧ request.assigned clock .status = none := by
  cases request with
  | changeStatus =>
      cases h
      exact Or.inl ⟨_, rfl, rfl⟩
  | updateIssue => exact Or.inr ⟨rfl, rfl⟩
  | assign => exact Or.inr ⟨rfl, rfl⟩
  | archive => exact Or.inr ⟨rfl, rfl⟩
  | _ => cases h

/-- The status after a commit: the first one, the one that the request asks
for, or the one before. -/
theorem RowChange.status {request : Request} {c : Commit schema} {i : Uuid}
    (h : RowChange request c i) {x : Issue} (hx : row i c.after = some x) :
    (row i c.before = none ∧ x.status = .backlog) ∨
      request.target = some (i, x.status) ∨
      ∃ r, row i c.before = some r ∧ x.status = r.status ∧
        ∀ status, request.target ≠ some (i, status) := by
  have hnamed : ∀ r, request.issue = some i → row i c.before = some r →
      x.status = (request.assigned (clockOn c) .status).getD r.status →
      request.target = some (i, x.status) ∨
      ∃ r, row i c.before = some r ∧ x.status = r.status ∧
        ∀ status, request.target ≠ some (i, status) := by
    intro r hissue hbefore hcolumn
    rcases Request.assigned_status hissue (clockOn c) with
      ⟨status, htarget, hassigned⟩ | ⟨htarget, hassigned⟩
    · rw [hassigned, Option.getD_some] at hcolumn
      exact Or.inl (hcolumn ▸ htarget)
    · rw [hassigned, Option.getD_none] at hcolumn
      exact Or.inr ⟨r, hbefore, hcolumn, by simp [htarget]⟩
  cases h with
  | same hissue hrow =>
      refine Or.inr (Or.inr ⟨x, hrow ▸ hx, rfl, fun status htarget => ?_⟩)
      exact hissue (Request.issue_of_target htarget)
  | created y _ hbefore hafter _ hstatus =>
      rw [hafter] at hx
      obtain rfl := Option.some.inj hx
      exact Or.inl ⟨hbefore, hstatus⟩
  | revised r y hissue hbefore hafter _ _ hcolumns =>
      rw [hafter] at hx
      obtain rfl := Option.some.inj hx
      exact Or.inr (hnamed r hissue hbefore (hcolumns .status))
  | archived r y hissue _ hbefore hafter _ hcolumns =>
      rw [hafter] at hx
      obtain rfl := Option.some.inj hx
      exact Or.inr (hnamed r hissue hbefore (hcolumns .status))

section Step

variable {request : Request} {c : Commit schema} {i : Uuid}
  {status : IssueStatus}

/-- What a change of status has read, found and written. -/
theorem Effects.moved (h : Effects request c)
    (htarget : request.target = some (i, status)) :
    ∃ y r x, (readOn c).bind (row i) = some y ∧ row i c.before = some r ∧
      row i c.after = some x ∧ request.expected = some r.version ∧
      x.status = status ∧ canTransition y.status status = true ∧
      (y.version = r.version → y.status = r.status) ∧
      statusEvents i c = [(y.status, status)] := by
  cases h.trailChange i with
  | quiet hnone => exact absurd htarget (hnone status)
  | moved r y status' htarget' hbefore hexpected hstepped hevents =>
      rw [htarget] at htarget'
      cases htarget'
      obtain ⟨db, hread, hy⟩ := hstepped.read
      have hissue := Request.issue_of_target htarget
      obtain ⟨x, hafter⟩ : ∃ x, row i c.after = some x := by
        obtain ⟨x, hx, _⟩ :=
          h.issueChange.evolves (Relation.mem_of_lookup hbefore)
        have hid : r.id = i := Key.id.inj (Relation.key_of_lookup hbefore)
        exact ⟨x, hid ▸ hx⟩
      refine ⟨y, r, x, ?_, hbefore, hafter, hexpected, ?_, hstepped.allowed,
        hstepped.same, hevents⟩
      · rw [hread]
        exact hy
      · rcases (h.issueChange.rowChange i).status hafter with
          ⟨hnone, _⟩ | htarget' | ⟨_, _, _, hother⟩
        · rw [hnone] at hbefore
          cases hbefore
        · rw [htarget] at htarget'
          cases htarget'
          rfl
        · exact absurd htarget (hother status)

theorem Effects.truthful_iff (h : Effects request c)
    (htarget : request.target = some (i, status)) :
    Truthful i c ↔ StatusKept i c := by
  obtain ⟨y, r, x, hread, hbefore, hafter, _, hx, hallowed, _, hevents⟩ :=
    h.moved htarget
  have hkept : StatusKept i c ↔ y.status = r.status := by
    simp [StatusKept, hread, hbefore]
  rw [hkept]
  constructor
  · rintro ⟨r', x', hr', _, _, hevents'⟩
    rw [hbefore] at hr'
    obtain rfl := Option.some.inj hr'
    rw [hevents] at hevents'
    simp only [List.cons.injEq, Prod.mk.injEq] at hevents'
    exact hevents'.1.1
  · intro hsame
    refine ⟨r, x, hbefore, hafter, ?_, ?_⟩
    · rw [hx, ← hsame]
      exact hallowed
    · rw [hx, ← hsame]
      exact hevents

/-- A client that expects the version of the row that was read is safe. -/
theorem Effects.kept_of_readsExpected (h : Effects request c)
    (htarget : request.target = some (i, status))
    (hreads : ReadsExpected request i c) : StatusKept i c := by
  obtain ⟨y, r, _, hread, hbefore, _, hexpected, _, _, hsame, _⟩ :=
    h.moved htarget
  have hversion : y.version = r.version := by
    rw [ReadsExpected, hread, hexpected] at hreads
    exact Option.some.inj hreads
  simp [StatusKept, hread, hbefore, hsame hversion]

end Step

/-! ## The audit trail -/

/-- The steps lead through the workflow from one status to another. -/
inductive Path : IssueStatus → List (IssueStatus × IssueStatus) →
    IssueStatus → Prop where
  | nil (a : IssueStatus) : Path a [] a
  | snoc {a b : IssueStatus} {es : List (IssueStatus × IssueStatus)}
      (c : IssueStatus) (h : Path a es b) (hstep : canTransition b c = true) :
      Path a (es ++ [(b, c)]) c

/-- The events of the issue `i` in commit order. -/
def trail (i : Uuid) (log : List (Commit schema)) :
    List (IssueStatus × IssueStatus) :=
  log.reverse.flatMap (statusEvents i)

theorem trail_cons (i : Uuid) (c : Commit schema)
    (older : List (Commit schema)) :
    trail i (c :: older) = trail i older ++ statusEvents i c := by
  simp [trail]

/-- The trail of `i` leads to its status. -/
structure Trailed (i : Uuid) (log : List (Commit schema)) (db : Db) :
    Prop where
  absent : row i db = none → trail i log = []
  path : ∀ x, row i db = some x → Path .backlog (trail i log) x.status

theorem Trailed.step {request : Request} {c : Commit schema} {i : Uuid}
    {older : List (Commit schema)} (h : Trailed i older c.before)
    (heffects : Effects request c)
    (hkept : ∀ status, request.target = some (i, status) → StatusKept i c) :
    Trailed i (c :: older) c.after := by
  cases heffects.trailChange i with
  | moved _ _ status htarget =>
      obtain ⟨r, x, hbefore, hafter, hallowed, hevents⟩ :=
        (heffects.truthful_iff htarget).mpr (hkept status htarget)
      constructor
      · intro hnone
        rw [hafter] at hnone
        cases hnone
      · intro y hy
        rw [hafter] at hy
        obtain rfl := Option.some.inj hy
        rw [trail_cons, hevents]
        exact .snoc _ (h.path r hbefore) hallowed
  | quiet htarget hevents =>
      have htrail : trail i (c :: older) = trail i older := by
        rw [trail_cons, hevents, List.append_nil]
      constructor
      · intro hnone
        rw [htrail]
        cases hbefore : row i c.before with
        | none => exact h.absent hbefore
        | some r =>
            obtain ⟨y, hy, _⟩ := heffects.issueChange.evolves
              (Relation.mem_of_lookup hbefore)
            have hid : r.id = i := Key.id.inj (Relation.key_of_lookup hbefore)
            rw [hid] at hy
            rw [row, hy] at hnone
            cases hnone
      · intro x hx
        rw [htrail]
        rcases (heffects.issueChange.rowChange i).status hx with
          ⟨hbefore, hstatus⟩ | htarget' | ⟨r, hbefore, hstatus, _⟩
        · rw [h.absent hbefore, hstatus]
          exact .nil _
        · exact absurd htarget' (htarget x.status)
        · rw [hstatus]
          exact h.path r hbefore

/-! ## Runs -/

section Runs

variable {requests : Pid → Request} {s₀ : Db}
  {w : World schema AppError Response} {i : Uuid}

/-- A change of status is a step of the workflow and audited as such if and
only if the `UPDATE` finds the status that `get_issue` has read, which is so
whenever the client expects the version that was read.  If all of them do, the
audit trail leads through the workflow to the status of the issue. -/
theorem trail_follows_workflow (habsent : row i s₀ = none)
    (hreach : Reachable (clients requests s₀) w) :
    (∀ c ∈ w.log, ∀ status,
      (requests c.pid).target = some (i, status) →
      (Truthful i c ↔ StatusKept i c) ∧
      (ReadsExpected (requests c.pid) i c → StatusKept i c)) ∧
    ((∀ c ∈ w.log, ∀ status,
      (requests c.pid).target = some (i, status) → StatusKept i c) →
      ∀ x, row i w.store = some x →
        Path .backlog (trail i w.log) x.status) := by
  have hsound := sound_services hreach
  constructor
  · intro c hc status htarget
    have heffects := hsound.guar c hc
    exact ⟨heffects.truthful_iff htarget,
      heffects.kept_of_readsExpected htarget⟩
  · intro hkept
    suffices htrailed : Trailed i w.log w.store from htrailed.path
    refine (wellFormed_of_reachable hreach).chain.induction
      (G := fun c => Effects (requests c.pid) c ∧ ∀ status,
        (requests c.pid).target = some (i, status) → StatusKept i c)
      (fun c hc => ⟨hsound.guar c hc, hkept c hc⟩) (P := Trailed i) ?_ ?_
    · constructor
      · exact fun _ => rfl
      · intro x hx
        rw [habsent] at hx
        cases hx
    · rintro c older ⟨heffects, hstatus⟩ htrailed
      exact htrailed.step heffects hstatus

end Runs

/-! ## Two changes of one status -/

theorem second_expected : 1 ≤ 2 := by decide

/-- The first request expects a version that the issue does not have yet. -/
def forged : Pid → Request
  | 0 => .createProject 2 alice { name := "Board", key := "BRD" }
  | 1 => .createIssue 2 alice { projectId := 50, title := "Task" }
  | 2 => .changeStatus 2 60 alice
      { expectedVersion := 2, expected_pos := second_expected, status := .todo }
  | _ => .changeStatus 2 60 alice
      { expectedVersion := 1, expected_pos := first_expected
        status := .canceled }

/-- The rest of a change of status once it has read the issue. -/
def moveSteps (p id : ℕ) : List (Pid × Input schema) :=
  steps p [.value 300, .order [.id 60], .go, .go, .value id, .value 300, .go,
    .go]

/-- The issue is canceled between the check and the `UPDATE` of the first
request. -/
def forgedSteps : List (Pid × Input schema) :=
  projectSteps ++ creationSteps 1 60 ++ steps 1 [.go] ++
    steps 2 [.go, .go] ++ steps 3 [.go, .go] ++ moveSteps 3 90 ++
    moveSteps 2 91

/-- A canceled issue becomes one to do, and the audit event says that it was
in the backlog. -/
theorem forgedVersion_leaves_workflow :
    ¬ ∀ w, Reachable (clients forged oneOwner) w → ∀ c ∈ w.log, ∀ status,
      (forged c.pid).target = some (60, status) → Truthful 60 c := by
  intro hclaim
  have hrun : ((clients forged oneOwner).run forgedSteps).any (fun w =>
      (w.log.head?.any fun c => (forged c.pid).target = some (60, .todo) ∧
        (row 60 c.before).map Issue.status = some .canceled) = true) =
        true := by
    decide +kernel
  obtain ⟨w, hreach, hhead⟩ := exists_reachable hrun
  obtain ⟨c, hc, hlast⟩ := (Option.any_eq_true _ _).mp hhead
  rw [decide_eq_true_eq] at hlast
  obtain ⟨htarget, hcanceled⟩ := hlast
  obtain ⟨older, hlog⟩ := List.head?_eq_some_iff.mp hc
  have hmem : c ∈ w.log := hlog ▸ List.mem_cons_self
  obtain ⟨r, x, hbefore, hafter, hallowed, _⟩ :=
    hclaim w hreach c hmem .todo htarget
  have heffects := (sound_services hreach).guar c hmem
  obtain ⟨_, _, x', _, _, hafter', _, hx', _⟩ := heffects.moved htarget
  rw [hafter] at hafter'
  obtain rfl := Option.some.inj hafter'
  rw [hbefore, Option.map_some] at hcanceled
  rw [Option.some.inj hcanceled, hx'] at hallowed
  exact absurd hallowed (by decide)

/-- Two changes of status, one after the other. -/
def honest : Pid → Request
  | 2 => .changeStatus 2 60 alice
      { expectedVersion := 1, expected_pos := first_expected, status := .todo }
  | 3 => .changeStatus 2 60 alice
      { expectedVersion := 2, expected_pos := second_expected
        status := .inProgress }
  | p => forged p

def honestSteps : List (Pid × Input schema) :=
  projectSteps ++ creationSteps 1 60 ++ steps 1 [.go] ++
    steps 2 [.go, .go] ++ moveSteps 2 90 ++
    steps 3 [.go, .go] ++ moveSteps 3 91

theorem trail_follows_workflow_honest :
    ∃ w x, Reachable (clients honest oneOwner) w ∧
      row 60 w.store = some x ∧ x.status = .inProgress ∧
      trail 60 w.log = [(.backlog, .todo), (.todo, .inProgress)] ∧
      Path .backlog (trail 60 w.log) x.status := by
  have hrun : ((clients honest oneOwner).run honestSteps).any (fun w =>
      (row 60 w.store).map Issue.status = some .inProgress ∧
      trail 60 w.log = [(.backlog, .todo), (.todo, .inProgress)] ∧
      ∀ c ∈ w.log, ((honest c.pid).target = none ∨ StatusKept 60 c)) =
        true := by
    decide +kernel
  obtain ⟨w, hreach, hstatus, htrail, hkept⟩ := exists_reachable hrun
  obtain ⟨x, hx, hstatus⟩ := Option.map_eq_some_iff.mp hstatus
  refine ⟨w, x, hreach, hx, hstatus, htrail, ?_⟩
  refine (trail_follows_workflow rfl hreach).2 ?_ x hx
  intro c hc status htarget
  rcases hkept c hc with hnone | hkept
  · rw [hnone] at htarget
    cases htarget
  · exact hkept

end Workstream.Issues
