import Workstream.Modules.Issues.Numbering

/-!
# Versions of an issue

No optimistic request is lost: the version counts them, each of them has seen
the version before it, and every column holds what the last request that named
it has written.
-/

namespace Workstream.Issues

open ReadCommitted Contract World

/-! ## What a commit does to one row -/

/-- The row of the issue `i`. -/
def row (i : Uuid) (db : Db) : Option Issue :=
  (db .issues).lookup (.id i)

/-- A commit leaves the row of `i` alone, creates it, or changes it on behalf
of a request about `i`. -/
inductive RowChange (request : Request) (c : Commit schema) (i : Uuid) :
    Prop where
  | same (hissue : request.issue ≠ some i) (hrow : row i c.after = row i c.before)
  | created (x : Issue) (hissue : request.issue = none)
      (hbefore : row i c.before = none) (hafter : row i c.after = some x)
      (hversion : x.version = 1) (hstatus : x.status = .backlog)
      (hcolumns : ∀ clock column,
        request.assigned clock column = some (column.get x))
  | revised (r x : Issue) (hissue : request.issue = some i)
      (hbefore : row i c.before = some r) (hafter : row i c.after = some x)
      (hexpected : request.expected = some r.version)
      (hversion : x.version = r.version + 1)
      (hcolumns : ∀ column, column.get x =
        (request.assigned (clockOn c) column).getD (column.get r))
  | archived (r x : Issue) (hissue : request.issue = some i)
      (hexpected : request.expected = none)
      (hbefore : row i c.before = some r) (hafter : row i c.after = some x)
      (hversion : x.version = r.version)
      (hcolumns : ∀ column, column.get x =
        (request.assigned (clockOn c) column).getD (column.get r))

theorem IssueUpdate.apply_column {body : IssueUpdate} {r v : Issue}
    (h : body.apply r = some v) (column : Column) :
    column.get v = (body.column column).getD (column.get r) := by
  have hset : ∀ {α : Type} {current value : α} {o : Option (Option α)},
      Projects.setColumn current o = some value →
      value = o.join.getD current := by
    intro α current value o ho
    cases o with
    | none =>
        cases ho
        rfl
    | some o =>
        obtain rfl : o = some value := ho
        rfl
  simp only [IssueUpdate.apply, Option.pure_def, Option.bind_eq_bind,
    Option.bind_eq_some_iff] at h
  obtain ⟨title, htitle, description, hdescription, priority, hpriority, hv⟩ := h
  cases hv
  cases column with
  | title => exact hset htitle
  | description => exact hset hdescription
  | priority => exact hset hpriority
  | dueDate => rfl
  | status => rfl
  | assigneeId => rfl
  | archivedAt => rfl

theorem Request.revise_column {request : Request} {r v : Issue}
    (h : request.revise r = some v) (clock : Option Instant)
    (column : Column) :
    column.get v = (request.assigned clock column).getD (column.get r) := by
  unfold Request.revise at h
  split at h
  · exact IssueUpdate.apply_column h column
  · cases h
    cases column <;> rfl
  · cases h
    cases column <;> rfl
  · cases h

/-- An archival is the one request about an issue that expects no version. -/
theorem Request.archive_column {request : Request} {i : Uuid}
    (hissue : request.issue = some i) (hexpected : request.expected = none)
    (r : Issue) (archivedAt updatedAt : Instant) (column : Column) :
    column.get { r with archivedAt := some archivedAt, updatedAt } =
      (request.assigned (some archivedAt) column).getD (column.get r) := by
  cases request with
  | archive => cases column <;> rfl
  | updateIssue => cases hexpected
  | changeStatus => cases hexpected
  | assign => cases hexpected
  | _ => cases hissue

theorem row_put {b a : Db} {r : Issue} (h : a .issues = (b .issues).put r)
    (i : Uuid) : row i a = if i = r.id then some r else row i b := by
  rw [row, h, lookup_put_issues]
  by_cases hi : i = r.id
  · rw [if_pos hi, if_pos (congrArg Key.id hi)]
  · rw [if_neg hi, if_neg fun heq => hi (Key.id.inj heq), row]

theorem IssueChange.rowChange {request : Request} {c : Commit schema}
    (h : IssueChange request c) (i : Uuid) : RowChange request c i := by
  cases h with
  | same hissue hafter =>
      refine .same (by simp [hissue]) ?_
      rw [row, hafter, row]
  | created x hissue hnew hversion hstatus hcolumns hafter =>
      have hrow := row_put hafter i
      by_cases hi : i = x.id
      · subst hi
        exact .created x hissue hnew (hrow.trans (if_pos rfl)) hversion
          hstatus hcolumns
      · exact .same (by simp [hissue]) (hrow.trans (if_neg hi))
  | revised r v time hissue hlook hexpected hvalues hafter =>
      have hrow := row_put hafter i
      have hid := (Request.revise_same hvalues).id
      by_cases hi : i = r.id
      · subst hi
        exact .revised r _ hissue hlook (hrow.trans (if_pos hid.symm))
          hexpected rfl fun column =>
            .trans (by cases column <;> rfl) (Request.revise_column hvalues _ column)
      · refine .same ?_ (hrow.trans (if_neg fun heq => hi (heq.trans hid)))
        rw [hissue]
        exact fun heq => hi (Option.some.inj heq).symm
  | archived r archivedAt updatedAt hissue hexpected hlook hclock hafter =>
      have hrow := row_put hafter i
      by_cases hi : i = r.id
      · subst hi
        refine .archived r _ hissue hexpected hlook (hrow.trans (if_pos rfl))
          rfl fun column => ?_
        rw [hclock]
        exact Request.archive_column hissue hexpected r _ _ column
      · refine .same ?_ (hrow.trans (if_neg hi))
        rw [hissue]
        exact fun heq => hi (Option.some.inj heq).symm

/-! ## The history of one issue -/

section History

variable (requests : Pid → Request) (i : Uuid)

/-- A commit that changes the issue `i` under the version check. -/
def Revises (c : Commit schema) : Prop :=
  (requests c.pid).issue = some i ∧ (requests c.pid).expected ≠ none

instance (c : Commit schema) : Decidable (Revises requests i c) :=
  inferInstanceAs (Decidable (_ ∧ _))

/-- A commit that changes the issue `i` and expects its version `v`. -/
def Expects (v : ℕ) (c : Commit schema) : Prop :=
  (requests c.pid).issue = some i ∧ (requests c.pid).expected = some v

instance (v : ℕ) (c : Commit schema) : Decidable (Expects requests i v c) :=
  inferInstanceAs (Decidable (_ ∧ _))

/-- A commit that creates the issue `i`. -/
def Creates (c : Commit schema) : Prop :=
  row i c.before = none ∧ row i c.after ≠ none

instance (c : Commit schema) : Decidable (Creates i c) :=
  inferInstanceAs (Decidable (_ ∧ _))

/-- The value that a commit writes to a column of the issue `i`, if it is about
that issue and names the column. -/
def written (column : Column) (c : Commit schema) : Option column.Value :=
  if (requests c.pid).issue = some i ∨ Creates i c then
    (requests c.pid).assigned (clockOn c) column
  else none

/-- The row of `i` is the one that its history tells. -/
structure Told (log : List (Commit schema)) (db : Db) : Prop where
  absent : row i db = none → ∀ c ∈ log, (requests c.pid).issue ≠ some i
  version : ∀ x, row i db = some x →
    x.version = 1 + log.countP fun c => Revises requests i c
  fresh : ∀ x, row i db = some x → ∀ v, x.version ≤ v →
    ∀ c ∈ log, ¬ Expects requests i v c
  atMostOnce : ∀ v, (log.countP fun c => Expects requests i v c) ≤ 1
  column : ∀ x, row i db = some x → ∀ column : Column,
    log.findSome? (written requests i column) = some (column.get x)

end History

section Told

variable {requests : Pid → Request} {i : Uuid} {c : Commit schema}
  {older : List (Commit schema)}

theorem countP_cons_of_not {P : Commit schema → Prop} [DecidablePred P]
    (h : ¬ P c) :
    ((c :: older).countP fun d => P d) = older.countP fun d => P d :=
  List.countP_cons_of_neg (by simpa using h)

theorem countP_cons_of {P : Commit schema → Prop} [DecidablePred P]
    (h : P c) :
    ((c :: older).countP fun d => P d) = (older.countP fun d => P d) + 1 :=
  List.countP_cons_of_pos (by simpa using h)

/-- The columns that a request about `i` does not name are older. -/
theorem findSome_written {r x : Issue}
    (hissue : (requests c.pid).issue = some i) {column : Column}
    (hcolumn : column.get x =
      ((requests c.pid).assigned (clockOn c) column).getD (column.get r))
    (holder : older.findSome? (written requests i column) =
      some (column.get r)) :
    (c :: older).findSome? (written requests i column) =
      some (column.get x) := by
  have hwritten : written requests i column c =
      (requests c.pid).assigned (clockOn c) column :=
    if_pos (Or.inl hissue)
  rw [List.findSome?_cons, hwritten, holder, hcolumn]
  cases (requests c.pid).assigned (clockOn c) column <;> rfl

theorem told_of_some {log : List (Commit schema)} {db : Db} {x : Issue}
    (hrow : row i db = some x)
    (hversion : x.version = 1 + log.countP fun c => Revises requests i c)
    (hfresh : ∀ v, x.version ≤ v → ∀ c ∈ log, ¬ Expects requests i v c)
    (honce : ∀ v, (log.countP fun c => Expects requests i v c) ≤ 1)
    (hcolumn : ∀ column : Column,
      log.findSome? (written requests i column) = some (column.get x)) :
    Told requests i log db := by
  have hx : ∀ y, row i db = some y → y = x := fun y hy =>
    Option.some.inj (hy.symm.trans hrow)
  constructor
  · intro hnone
    rw [hrow] at hnone
    cases hnone
  · exact fun y hy => hx y hy ▸ hversion
  · exact fun y hy => hx y hy ▸ hfresh
  · exact honce
  · exact fun y hy => hx y hy ▸ hcolumn

theorem Told.step (h : Told requests i older c.before)
    (hchange : RowChange (requests c.pid) c i) :
    Told requests i (c :: older) c.after := by
  cases hchange with
  | same hissue hrow =>
      have hcreates : ¬ Creates i c := by
        rintro ⟨hbefore, hafter⟩
        exact hafter (hrow.trans hbefore)
      constructor
      · intro hnone d hd
        rcases List.mem_cons.mp hd with rfl | hd
        · exact hissue
        · exact h.absent (hrow ▸ hnone) d hd
      · intro x hx
        rw [countP_cons_of_not fun hc => hissue hc.1]
        exact h.version x (hrow ▸ hx)
      · intro x hx v hv d hd
        rcases List.mem_cons.mp hd with rfl | hd
        · exact fun hd => hissue hd.1
        · exact h.fresh x (hrow ▸ hx) v hv d hd
      · intro v
        rw [countP_cons_of_not fun hc => hissue hc.1]
        exact h.atMostOnce v
      · intro x hx column
        have hwritten : written requests i column c = none :=
          if_neg (not_or.mpr ⟨hissue, hcreates⟩)
        rw [List.findSome?_cons, hwritten]
        exact h.column x (hrow ▸ hx) column
  | created x hissue hbefore hafter hversion _ hcolumns =>
      have hne : (requests c.pid).issue ≠ some i := by simp [hissue]
      have hnone : ∀ d ∈ c :: older, (requests d.pid).issue ≠ some i := by
        intro d hd
        rcases List.mem_cons.mp hd with rfl | hd
        · exact hne
        · exact h.absent hbefore d hd
      refine told_of_some hafter ?_ ?_ ?_ ?_
      · rw [hversion, List.countP_eq_zero.mpr]
        intro d hd
        simpa using fun hr : Revises requests i d => hnone d hd hr.1
      · exact fun v _ d hd he => hnone d hd he.1
      · intro v
        rw [List.countP_eq_zero.mpr]
        · exact Nat.zero_le 1
        · intro d hd
          simpa using fun he : Expects requests i v d => hnone d hd he.1
      · intro column
        have hcreates : Creates i c := by
          refine ⟨hbefore, ?_⟩
          simp [hafter]
        have hwritten : written requests i column c = some (column.get x) :=
          (if_pos (Or.inr hcreates)).trans (hcolumns _ column)
        rw [List.findSome?_cons, hwritten]
  | revised r x hissue hbefore hafter hexpected hversion hcolumns =>
      have hrevises : Revises requests i c := ⟨hissue, by simp [hexpected]⟩
      have hexpects : ∀ v, Expects requests i v c ↔ v = r.version := by
        intro v
        constructor
        · intro hv
          exact (Option.some.inj (hexpected.symm.trans hv.2)).symm
        · rintro rfl
          exact ⟨hissue, hexpected⟩
      refine told_of_some hafter ?_ ?_ ?_ ?_
      · rw [countP_cons_of hrevises, hversion, h.version r hbefore]
        omega
      · intro v hv d hd
        rcases List.mem_cons.mp hd with rfl | hd
        · rw [hexpects]
          omega
        · exact h.fresh r hbefore v (by omega) d hd
      · intro v
        by_cases hv : v = r.version
        · have hzero : (older.countP fun d => Expects requests i v d) = 0 := by
            rw [List.countP_eq_zero]
            intro d hd
            simpa using h.fresh r hbefore v hv.ge d hd
          rw [countP_cons_of ((hexpects v).mpr hv), hzero]
        · rw [countP_cons_of_not fun hc => hv ((hexpects v).mp hc)]
          exact h.atMostOnce v
      · intro column
        exact findSome_written hissue (hcolumns column)
          (h.column r hbefore column)
  | archived r x hissue hexpected hbefore hafter hversion hcolumns =>
      have hrevises : ¬ Revises requests i c := fun hc => hc.2 hexpected
      have hexpects : ∀ v, ¬ Expects requests i v c := by
        rintro v ⟨_, hv⟩
        rw [hexpected] at hv
        cases hv
      refine told_of_some hafter ?_ ?_ ?_ ?_
      · rw [countP_cons_of_not hrevises, hversion]
        exact h.version r hbefore
      · intro v hv d hd
        rcases List.mem_cons.mp hd with rfl | hd
        · exact hexpects v
        · exact h.fresh r hbefore v (hversion ▸ hv) d hd
      · intro v
        rw [countP_cons_of_not (hexpects v)]
        exact h.atMostOnce v
      · intro column
        exact findSome_written hissue (hcolumns column)
          (h.column r hbefore column)

end Told

/-! ## Runs -/

section Runs

variable {requests : Pid → Request} {s₀ : Db}
  {w : World schema AppError Response} {i : Uuid}

theorem told_of_reachable (habsent : row i s₀ = none)
    (hreach : Reachable (clients requests s₀) w) :
    Told requests i w.log w.store := by
  have hsound := sound_services hreach
  refine (wellFormed_of_reachable hreach).chain.induction hsound.guar
    (P := Told requests i) ?_ ?_
  · constructor <;> simp [habsent]
  · intro c older hguar htold
    exact htold.step (hguar.issueChange.rowChange i)

/-- A request about `i` commits on the version that it expects. -/
theorem expects_before (hreach : Reachable (clients requests s₀) w)
    {c : Commit schema} (hc : c ∈ w.log) {v : ℕ}
    (hexpects : Expects requests i v c) :
    (row i c.before).map Issue.version = some v := by
  obtain ⟨hissue, hv⟩ := hexpects
  cases ((sound_services hreach).guar c hc).issueChange.rowChange i with
  | same hne => exact absurd hissue hne
  | created x hnone =>
      rw [hissue] at hnone
      cases hnone
  | revised r x _ hbefore _ hexpected =>
      rw [hbefore, Option.map_some, ← hexpected, hv]
  | archived r x _ hexpected =>
      rw [hexpected] at hv
      cases hv

/-- A request that is answered with an error has not committed and never
will. -/
theorem error_not_committed (hreach : Reachable (clients requests s₀) w)
    {p : Pid} {e : AppError} (herror : (w.procs p).error = some e)
    {w' : World schema AppError Response} (hlater : Reachable w w') :
    ∀ c ∈ w'.log, c.pid ≠ p := by
  intro c hc hpid
  obtain ⟨hprog, hguard⟩ := Proc.error_eq_some herror
  have hold : c ∈ w.log :=
    Failing.log ⟨Or.inl ⟨e, hprog⟩, hguard⟩ hlater c hc hpid
  have hcommitted := (wellFormed_of_reachable hreach).observed c hold
  rw [hpid] at hcommitted
  exact ((sound_services hreach).raised hprog hguard).2 hcommitted

/-- The version of an issue counts its optimistic requests, each of which has
committed on the version that it expects; every column holds what the last
request that named it has written; a stale request leaves the database as it
was. -/
theorem no_update_lost (habsent : row i s₀ = none)
    (hreach : Reachable (clients requests s₀) w) :
    (∀ x, row i w.store = some x →
      (x.version = 1 + w.log.countP fun c => Revises requests i c) ∧
      ∀ column : Column,
        w.log.findSome? (written requests i column) = some (column.get x)) ∧
    (∀ c ∈ w.log, ∀ v, Expects requests i v c →
      (row i c.before).map Issue.version = some v) ∧
    (∀ v, (w.log.countP fun c => Expects requests i v c) ≤ 1) ∧
    ∀ p, (w.procs p).error = some staleIssueVersion →
      (∀ c ∈ w.log, c.pid ≠ p) ∧
      ∀ w' x w'', Reachable w w' → w'.advance p x = some w'' →
        w''.store = w'.store := by
  have htold := told_of_reachable habsent hreach
  refine ⟨fun x hx => ⟨htold.version x hx, htold.column x hx⟩, ?_,
    htold.atMostOnce, ?_⟩
  · exact fun c hc v hexpects => expects_before hreach hc hexpects
  · intro p herror
    constructor
    · exact error_not_committed hreach herror .start
    · intro w' x w'' hlater hstep
      exact store_of_not_commit hstep
        (error_not_committed hreach herror (hlater.step p x hstep))

end Runs

/-! ## A race for one version -/

theorem first_expected : 1 ≤ 1 := le_rfl

/-- Two requests that expect the first version, and an archival. -/
def race : Pid → Request
  | 0 => .createProject 2 alice { name := "Board", key := "BRD" }
  | 1 => .createIssue 2 alice { projectId := 50, title := "Task" }
  | 2 => .updateIssue 2 60 alice
      { expectedVersion := 1, expected_pos := first_expected
        title := some (some "T") }
  | 3 => .changeStatus 2 60 alice
      { expectedVersion := 1, expected_pos := first_expected, status := .todo }
  | _ => .archive 2 60 alice

/-- The change of status picks its row before the update commits. -/
def raceSteps : List (Pid × Input schema) :=
  projectSteps ++ creationSteps 1 60 ++ steps 1 [.go] ++
    steps 2 [.go, .go, .value 300, .order [.id 60], .go, .go] ++
    steps 3 [.go, .go, .value 301, .order [.id 60]] ++
    steps 2 [.go] ++ steps 3 [.go, .go] ++
    steps 4 [.go, .go, .value 400, .value 401, .order [.id 60], .go, .go, .go]

theorem no_update_lost_race :
    ∃ w x, Reachable (clients race oneOwner) w ∧
      row 60 w.store = some x ∧ w.log.length = 4 ∧
      (x.version = 1 + w.log.countP fun c => Revises race 60 c) ∧
      w.log.findSome? (written race 60 .title) = some x.title ∧
      ∀ c ∈ w.log, c.pid ≠ 3 := by
  have hrun : ((clients race oneOwner).run raceSteps).any (fun w =>
      w.log.length = 4 ∧ (row 60 w.store).isSome ∧
        (w.procs 3).error = some staleIssueVersion) = true := by
    decide +kernel
  obtain ⟨w, hreach, hlog, hsome, herror⟩ := exists_reachable hrun
  obtain ⟨x, hx⟩ := Option.isSome_iff_exists.mp hsome
  obtain ⟨htold, _, _, hstale⟩ := no_update_lost (i := 60) rfl hreach
  obtain ⟨hversion, hcolumn⟩ := htold x hx
  exact ⟨w, x, hreach, hx, hlog, hversion, hcolumn .title,
    (hstale 3 herror).1⟩

end Workstream.Issues
