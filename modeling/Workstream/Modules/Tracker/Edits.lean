import Workstream.Modules.Tracker.Requests
import Workstream.ReadCommitted.UnitOfWork

/-!
# Concurrent edits of labels and projects

Labels and projects have no version.  An edit loads the row without a lock and
flushes what differs from it, so that what it gives and has loaded already can
be lost to an edit that commits in between.
-/

namespace Workstream.Tracker

open ReadCommitted Contract World

/-- The requests that edit a label or a project. -/
def Request.edits : Request → Bool
  | .label (.update _ _ _ _) => true
  | .issue (.updateProject _ _ _ _) => true
  | _ => false

def labelRow (k : Uuid) (db : Db) : Option Label :=
  (db .labels).lookup (.id k)

def projectRow (k : Uuid) (db : Db) : Option Project :=
  (db .projects).lookup (.id k)

/-! ## One edit -/

/-- Nothing but the row `k` of table `t` has changed. -/
def Only (c : Commit schema) (t : Table) (k : Uuid) : Prop :=
  ∀ u j, (u, j) ≠ (t, Key.id k) → (c.after u).lookup j = (c.before u).lookup j

/-- The commit of an edit: the row that it has loaded, the row that it finds,
and the row that it leaves. -/
inductive Edit (c : Commit schema) : Request → Prop where
  | label {O k : Uuid} {user : User} {body : Labels.LabelCreate}
      (loaded r : Label) (hloaded : (Issues.readOn c).bind (labelRow k) = some loaded)
      (hbefore : labelRow k c.before = some r)
      (hafter : labelRow k c.after = some (body.flush loaded r))
      (honly : Only c .labels k) :
      Edit c (.label (.update O k user body))
  | project {O k : Uuid} {user : User} {body : Projects.ProjectUpdate}
      (loaded r r' : Project)
      (hloaded : (Issues.readOn c).bind (projectRow k) = some loaded)
      (hbefore : projectRow k c.before = some r)
      (happly : (body.changes loaded).apply r = some r')
      (hafter : projectRow k c.after = some r')
      (honly : Only c .projects k) :
      Edit c (.issue (.updateProject O k user body))

theorem only_of_writes_nil {c : Commit schema} (h : c.session.writes = [])
    (t : Table) (k : Uuid) : Only c t k := by
  intro u j _
  exact lookup_after_of_writes (by simp [h])

theorem only_of_put {c : Commit schema} {t : Table} {k : Uuid} {r : Row t}
    (h : c.session.writes = [.put t r]) (hkey : primaryKey t r = .id k) :
    Only c t k := by
  intro u j hne
  apply lookup_after_of_writes
  rw [h]
  intro w hw href
  rw [List.mem_singleton.mp hw] at href
  apply hne
  rw [← hkey, ← href]
  rfl

/-- An edit deletes nothing. -/
theorem Edit.keeps {c : Commit schema} {request : Request}
    (h : Edit c request) {t : Table} {j : Key}
    (hj : (c.before t).lookup j ≠ none) : (c.after t).lookup j ≠ none := by
  have hrow : ∀ {u k}, Only c u k → (c.after u).lookup (.id k) ≠ none →
      (c.after t).lookup j ≠ none := by
    intro u k honly hsome
    by_cases heq : (t, j) = (u, Key.id k)
    · obtain ⟨rfl, rfl⟩ := Prod.mk.inj heq
      exact hsome
    · rwa [honly t j heq]
  cases h with
  | label loaded r _ _ hafter honly =>
      exact hrow honly (by rw [← labelRow, hafter]; simp)
  | project loaded r r' _ _ _ hafter honly =>
      exact hrow honly (by rw [← projectRow, hafter]; simp)

/-- Every commit is an edit. -/
def editing (requests : Pid → Request) : Contract schema where
  inv := fun _ => True
  assume := fun _ => True
  guar := fun c => Edit c (requests c.pid)
  inv_draw := fun _ _ _ h => h

section Edits

variable {requests : Pid → Request} {p : Pid} {l : Local schema}
  {s s' : Shared schema} {db : Db} {refs : List schema.Ref}

/-- A row that has been there is there still. -/
theorem row_of_past {t : Table} {j : Key}
    (h : (editing requests).Past p s refs db)
    (hj : (db t).lookup j ≠ none) : (s.store t).lookup j ≠ none := by
  obtain ⟨used, _, hrely⟩ := h
  refine hrely.induct
    (P := fun u : Shared schema => (u.store t).lookup j ≠ none) hj ?_
  intro u v henv hu
  cases henv with
  | commit c _ _ _ _ _ hguar => exact Edit.keeps hguar hu
  | draw => exact hu

theorem flush_same {body : Labels.LabelCreate} {loaded : Label}
    (h : body.name = loaded.name ∧ body.color = loaded.color) (r : Label) :
    body.flush loaded r = r := by
  simp [Labels.LabelCreate.flush, h.1, h.2]

theorem apply_isEmpty {body : Projects.ProjectUpdate}
    (h : body.isEmpty = true) (r : Project) : body.apply r = some r := by
  obtain ⟨hname, hdescription⟩ := Bool.and_eq_true_iff.mp h
  rw [Option.isNone_iff_eq_none] at hname hdescription
  simp [Projects.ProjectUpdate.apply, Projects.setColumn, hname, hdescription]

theorem edit_label {O k : Uuid} {user : User} {body : Labels.LabelCreate}
    {c : Commit schema} (hbefore : c.before = s.store)
    (h : Labels.Updates ((editing requests).Past p s) O k user body c) :
    Edit c (.label (.update O k user body)) := by
  cases h with
  | kept m db label _ hread hrow hlabel hsame hwrites =>
      obtain ⟨_, past, hpast, hlook⟩ := hlabel
      have hthere : (s.store .labels).lookup (.id k) ≠ none :=
        row_of_past hpast (by simp [hlook])
      obtain ⟨r, hr⟩ := Option.ne_none_iff_exists'.mp hthere
      rw [← hbefore] at hr
      have hafter : labelRow k c.after = some r :=
        (lookup_after_of_writes (by simp [hwrites])).trans hr
      refine .label label r (Option.bind_eq_some_iff.mpr ⟨db, hread, hrow⟩) hr ?_
        (only_of_writes_nil hwrites _ _)
      rw [flush_same hsame, hafter]
  | updated m db label r _ hread hrow _ _ hr hwrites =>
      have hkey : primaryKey .labels (body.flush label r) = .id k :=
        Relation.key_of_lookup hr
      refine .label label r (Option.bind_eq_some_iff.mpr ⟨db, hread, hrow⟩) hr ?_
        (only_of_put hwrites hkey)
      rw [labelRow, ← hkey]
      exact lookup_after_put [] hwrites (by simp)

theorem edit_project {O k : Uuid} {user : User}
    {body : Projects.ProjectUpdate} {c : Commit schema}
    (hbefore : c.before = s.store)
    (h : Issues.UpdatesProject ((editing requests).Past p s) O k user body c) :
    Edit c (.issue (.updateProject O k user body)) := by
  cases h with
  | kept m db project _ hread hrow hproject hempty hwrites =>
      obtain ⟨_, past, hpast, hlook⟩ := hproject
      have hthere : (s.store .projects).lookup (.id k) ≠ none :=
        row_of_past hpast (by simp [hlook])
      obtain ⟨r, hr⟩ := Option.ne_none_iff_exists'.mp hthere
      rw [← hbefore] at hr
      have hafter : projectRow k c.after = some r :=
        (lookup_after_of_writes (by simp [hwrites])).trans hr
      exact .project project r r (Option.bind_eq_some_iff.mpr ⟨db, hread, hrow⟩) hr
        (apply_isEmpty hempty r) hafter (only_of_writes_nil hwrites _ _)
  | changed m db project r r' _ hread hrow _ hr happly hwrites =>
      have hid := (Projects.ProjectUpdate.apply_same happly).1
      have hkey : primaryKey .projects r' = .id k := by
        change Key.id r'.id = .id k
        rw [hid]
        exact Relation.key_of_lookup hr
      refine .project project r r'
        (Option.bind_eq_some_iff.mpr ⟨db, hread, hrow⟩) hr happly ?_
        (only_of_put hwrites hkey)
      rw [projectRow, ← hkey]
      exact lookup_after_put [] hwrites (by simp)

/-- An edit commits what it says, as long as all the others do. -/
theorem requests_editing {H : TokenHash} (hedits : (requests p).edits) :
    Requests (editing requests) p (serve H (requests p)) {} s := by
  have hlabel : ∀ {O k user body},
      requests p = .label (.update O k user body) →
        (editing requests).Accepts p fun past c =>
          Labels.Updates past O k user body c := by
    intro O k user body hrequest l s c _ hc _ _ h
    refine ⟨?_, trivial⟩
    change Edit c (requests c.pid)
    rw [hc.pid, hrequest]
    exact edit_label hc.before h
  have hproject : ∀ {O k user body},
      requests p = .issue (.updateProject O k user body) →
        (editing requests).Accepts p fun past c =>
          Issues.UpdatesProject past O k user body c := by
    intro O k user body hrequest l s c _ hc _ _ h
    refine ⟨?_, trivial⟩
    change Edit c (requests c.pid)
    rw [hc.pid, hrequest]
    exact edit_project hc.before h
  generalize hrequest : requests p = request at hedits
  match request with
  | .label (.update O k user body) =>
      exact requests_map (requests_map
        (Labels.requests_updates (hlabel hrequest)) trivial) trivial
  | .issue (.updateProject O k user body) =>
      exact requests_map (requests_map
        (Issues.requests_updatesProject (hproject hrequest)) trivial) trivial

end Edits

/-! ## Columns -/

inductive LabelColumn where
  | name
  | color

inductive ProjectColumn where
  | name
  | description

def LabelColumn.get : LabelColumn → Label → String
  | .name, l => l.name
  | .color, l => l.color

def LabelColumn.given : LabelColumn → Labels.LabelCreate → String
  | .name, body => body.name
  | .color, body => body.color

/-- The column, whose value might be null. -/
def ProjectColumn.get : ProjectColumn → Project → Option String
  | .name, p => some p.name
  | .description, p => some p.description

def ProjectColumn.given :
    ProjectColumn → Projects.ProjectUpdate → Option (Option String)
  | .name, body => body.name
  | .description, body => body.description

theorem flushes_label (body : Labels.LabelCreate) (loaded r : Label) :
    Flushes LabelColumn.get (fun x => some (x.given body)) loaded r
      (body.flush loaded r) := by
  intro x
  simp only [Option.some.injEq, Option.getD_some]
  cases x with
  | name => rfl
  | color => rfl

theorem setColumn_filter {current loaded value : String}
    {o : Option (Option String)}
    (h : Projects.setColumn current (o.filter (· ≠ some loaded)) =
      some value) :
    some value = if o = some (some loaded) then some current
      else o.getD (some current) := by
  cases o with
  | none => simpa [Projects.setColumn] using h.symm
  | some given =>
      by_cases hsame : given = some loaded
      · simpa [Projects.setColumn, Option.filter_some, hsame] using h.symm
      · simpa [Projects.setColumn, Option.filter_some, hsame] using h.symm

theorem flushes_project {body : Projects.ProjectUpdate}
    {loaded r r' : Project} (h : (body.changes loaded).apply r = some r') :
    Flushes ProjectColumn.get (fun x => x.given body) loaded r r' := by
  simp only [Projects.ProjectUpdate.apply, Option.pure_def,
    Option.bind_eq_bind, Option.bind_eq_some_iff] at h
  obtain ⟨name, hname, description, hdescription, hr'⟩ := h
  obtain rfl := Option.some.inj hr'
  intro x
  cases x with
  | name => exact setColumn_filter hname
  | description => exact setColumn_filter hdescription

/-- The edits of the label `k`. -/
def labelEdits (requests : Pid → Request) (k : Uuid) :
    Editing schema Label LabelColumn String where
  row := labelRow k
  get := LabelColumn.get
  given c x :=
    match requests c.pid with
    | .label (.update _ labelId _ body) =>
        if labelId = k then some (x.given body) else none
    | _ => none
  loaded c := (Issues.readOn c).bind (labelRow k)

/-- The edits of the project `k`. -/
def projectEdits (requests : Pid → Request) (k : Uuid) :
    Editing schema Project ProjectColumn (Option String) where
  row := projectRow k
  get := ProjectColumn.get
  given c x :=
    match requests c.pid with
    | .issue (.updateProject _ projectId _ body) =>
        if projectId = k then x.given body else none
    | _ => none
  loaded c := (Issues.readOn c).bind (projectRow k)

section Steps

variable {requests : Pid → Request} {c : Commit schema}

theorem Edit.labelStep (h : Edit c (requests c.pid)) (k : Uuid) :
    (labelEdits requests k).Step c := by
  generalize hrequest : requests c.pid = request at h
  cases h with
  | @label O i user body loaded r hloaded hbefore hafter honly =>
      by_cases hi : i = k
      · subst hi
        have hgiven : (labelEdits requests i).given c =
            fun x => some (x.given body) := by
          funext x
          simp [labelEdits, hrequest]
        refine .flushed loaded r _ hloaded hbefore hafter ?_
        rw [hgiven]
        exact flushes_label body loaded r
      · refine .aside (fun x => by simp [labelEdits, hrequest, hi]) ?_
        exact honly _ _ (by simpa using Ne.symm hi)
  | project loaded r r' _ _ _ _ honly =>
      refine .aside (fun x => by simp [labelEdits, hrequest]) ?_
      exact honly _ _ (by simp)

theorem Edit.projectStep (h : Edit c (requests c.pid)) (k : Uuid) :
    (projectEdits requests k).Step c := by
  generalize hrequest : requests c.pid = request at h
  cases h with
  | label loaded r _ _ _ honly =>
      refine .aside (fun x => by simp [projectEdits, hrequest]) ?_
      exact honly _ _ (by simp)
  | @project O i user body loaded r r' hloaded hbefore happly hafter honly =>
      by_cases hi : i = k
      · subst hi
        have hgiven : (projectEdits requests i).given c =
            fun x => x.given body := by
          funext x
          simp [projectEdits, hrequest]
        refine .flushed loaded r r' hloaded hbefore hafter ?_
        rw [hgiven]
        exact flushes_project happly
      · refine .aside (fun x => by simp [projectEdits, hrequest, hi]) ?_
        exact honly _ _ (by simpa using Ne.symm hi)

end Steps

/-! ## Every run -/

/-- The label that a request edits. -/
def Request.editedLabel : Request → Option Uuid
  | .label (.update _ labelId _ _) => some labelId
  | _ => none

/-- The last commit that edits the label `k`. -/
def lastLabelEdit (requests : Pid → Request) (k : Uuid)
    (log : List (Commit schema)) : Option (Commit schema) :=
  log.find? fun c => (requests c.pid).editedLabel = some k

/-- The last commit that gives the column `x` of the project `k` a value. -/
def lastProjectEdit (requests : Pid → Request) (k : Uuid) (x : ProjectColumn)
    (log : List (Commit schema)) : Option (Commit schema) :=
  (projectEdits requests k).last log x

section Runs

variable {H : TokenHash} {requests : Pid → Request} {s₀ : Db}
  {w : World schema AppError Response}

theorem last_label (k : Uuid) (log : List (Commit schema)) (x : LabelColumn) :
    (labelEdits requests k).last log x = lastLabelEdit requests k log := by
  rw [Editing.last, lastLabelEdit]
  congr 1
  funext c
  simp only [labelEdits, Request.editedLabel]
  generalize requests c.pid = request
  cases request with
  | label request =>
      cases request with
      | update O i user body => by_cases hi : i = k <;> simp [hi]
      | _ => simp
  | _ => simp

theorem sound_editing (hedits : ∀ p, (requests p).edits)
    (hreach : Reachable (clients H requests s₀) w) :
    ∀ c ∈ w.log, Edit c (requests c.pid) := by
  have hsound := sound (C := editing requests) (Q := fun _ _ _ _ => True)
    (E := fun _ => Unwritten) trivial
    (fun p => requests_editing (hedits p)) hreach fun _ _ => trivial
  exact hsound.guar

/-- The name and the color of a label are those of the edit that was committed
last, and a column of a project holds what was given to it last, if and only
if that edit has found what it has not sent as it was when it was loaded. -/
theorem edits_kept_iff (H : TokenHash) (requests : Pid → Request)
    (hedits : ∀ p, (requests p).edits) {s₀ : Db}
    {w : World schema AppError Response}
    (hreach : Reachable (clients H requests s₀) w) :
    (∀ k c, lastLabelEdit requests k w.log = some c → ∀ O user body,
      requests c.pid = .label (.update O k user body) →
        ((∃ l, labelRow k w.store = some l ∧ l.name = body.name ∧
          l.color = body.color) ↔
            ∀ x, (labelEdits requests k).Current c x)) ∧
    ∀ k x c, lastProjectEdit requests k x w.log = some c →
      ∀ O user body, requests c.pid = .issue (.updateProject O k user body) →
        ((∃ p, projectRow k w.store = some p ∧
          some (x.get p) = x.given body) ↔
            (projectEdits requests k).Current c x) := by
  have hchain := (wellFormed_of_reachable hreach).chain
  have hguar := sound_editing hedits hreach
  constructor
  · intro k c hlast O user body hrequest
    have hvalue : ∀ x, (labelRow k w.store).map x.get = some (x.given body) ↔
        (labelEdits requests k).Current c x := by
      intro x
      have hiff := Editing.value_eq_given_iff hchain
        (fun c hc => (hguar c hc).labelStep k)
        ((last_label k w.log x).trans hlast)
      have hgiven : (labelEdits requests k).given c x =
          some (x.given body) := by
        simp [labelEdits, hrequest]
      rwa [hgiven] at hiff
    constructor
    · rintro ⟨l, hl, hname, hcolor⟩ x
      rw [← hvalue x, hl, Option.map_some]
      cases x with
      | name => exact congrArg some hname
      | color => exact congrArg some hcolor
    · intro hcurrent
      obtain ⟨l, hl, hname⟩ :=
        Option.map_eq_some_iff.mp ((hvalue .name).mpr (hcurrent .name))
      have hcolor := (hvalue .color).mpr (hcurrent .color)
      rw [hl, Option.map_some] at hcolor
      exact ⟨l, hl, hname, Option.some.inj hcolor⟩
  · intro k x c hlast O user body hrequest
    have hiff := Editing.value_eq_given_iff hchain
      (fun c hc => (hguar c hc).projectStep k) hlast
    have hgiven : (projectEdits requests k).given c x = x.given body := by
      simp [projectEdits, hrequest]
    rw [← hiff, hgiven]
    constructor
    · rintro ⟨p, hp, hvalue⟩
      rw [← hvalue]
      exact congrArg (Option.map x.get) hp
    · intro hvalue
      obtain ⟨v, hv⟩ : ∃ v, x.given body = some v := by
        have hsome := List.find?_some hlast
        rw [hgiven] at hsome
        exact Option.isSome_iff_exists.mp hsome
      rw [hv] at hvalue ⊢
      obtain ⟨p, hp, hpv⟩ := Option.map_eq_some_iff.mp hvalue
      exact ⟨p, hp, congrArg some hpv⟩

end Runs

/-! ## Two edits at a time -/

/-- Bob's organization, with a label and a project. -/
def board : Db :=
  Store.view (σ := schema)
    [.put .organizations
        { id := 10, name := "Team", slug := "team", createdAt := 0
          updatedAt := 0 },
      .put .memberships { organizationId := 10, userId := 1, role := .owner },
      .put .labels
        { id := 70, organizationId := 10, name := "bug", color := "red" },
      .put .projects
        { id := 50, organizationId := 10, name := "Board", key := "BRD"
          createdAt := 0 }]
    (Store.empty schema)

/-- Two edits of the label and two of the project; in each pair the second one
gives one column the value that it has at first. -/
def pairs : Pid → Request
  | 0 => .label (.update 10 70 Organizations.bob ⟨"defect", "red"⟩)
  | 1 => .label (.update 10 70 Organizations.bob ⟨"bug", "blue"⟩)
  | 2 => .issue (.updateProject 10 50 Organizations.bob
      { name := some (some "Plan") })
  | _ => .issue (.updateProject 10 50 Organizations.bob
      { name := some (some "Board"), description := some (some "Tasks") })

theorem edits_pairs : ∀ p, (pairs p).edits := by
  rintro (_ | _ | _ | p) <;> rfl

def loadSteps (p : Pid) : List (Pid × Input schema) :=
  steps p [.go, .go]

def flushSteps (p : Pid) (k : Uuid) : List (Pid × Input schema) :=
  steps p [.order [.id k], .go, .go, .go]

/-- Both edits of a pair load the row before one of them commits. -/
def overlapping : List (Pid × Input schema) :=
  loadSteps 0 ++ loadSteps 1 ++ flushSteps 0 70 ++ flushSteps 1 70 ++
    loadSteps 2 ++ loadSteps 3 ++ flushSteps 2 50 ++ flushSteps 3 50

/-- The label ends up with a name and a color that nobody has given it, and the
project without the name that was given last. -/
theorem edits_blend :
    (¬ ∀ w, Reachable (clients plainHash pairs board) w → ∀ c,
      lastLabelEdit pairs 70 w.log = some c → ∀ O user body,
        pairs c.pid = .label (.update O 70 user body) →
          ∃ l, labelRow 70 w.store = some l ∧ l.name = body.name ∧
            l.color = body.color) ∧
    ¬ ∀ w, Reachable (clients plainHash pairs board) w → ∀ c,
      lastProjectEdit pairs 50 .name w.log = some c → ∀ O user body,
        pairs c.pid = .issue (.updateProject O 50 user body) →
          ∃ p, projectRow 50 w.store = some p ∧ some (some p.name) = body.name
      := by
  have hrun : ((clients plainHash pairs board).run overlapping).any (fun w =>
      (lastLabelEdit pairs 70 w.log).any (fun c => c.pid = 1) = true ∧
      (lastProjectEdit pairs 50 .name w.log).any (fun c => c.pid = 3) = true ∧
      (labelRow 70 w.store).map Label.name = some "defect" ∧
      (projectRow 50 w.store).map Project.name = some "Plan") = true := by
    decide +kernel
  obtain ⟨w, hreach, hlabel, hproject, hname, hplan⟩ := exists_reachable hrun
  constructor
  · intro hclaim
    obtain ⟨c, hc, hpid⟩ := (Option.any_eq_true _ _).mp hlabel
    have hrequest : pairs c.pid =
        .label (.update 10 70 Organizations.bob ⟨"bug", "blue"⟩) := by
      rw [of_decide_eq_true hpid]
      rfl
    obtain ⟨l, hl, hbody, _⟩ := hclaim w hreach c hc _ _ _ hrequest
    rw [hl, Option.map_some, hbody] at hname
    simp at hname
  · intro hclaim
    obtain ⟨c, hc, hpid⟩ := (Option.any_eq_true _ _).mp hproject
    have hrequest : pairs c.pid = .issue (.updateProject 10 50
        Organizations.bob { name := some (some "Board")
                            description := some (some "Tasks") }) := by
      rw [of_decide_eq_true hpid]
      rfl
    obtain ⟨p, hp, hbody⟩ := hclaim w hreach c hc _ _ _ hrequest
    have hboard : some p.name = some "Board" := Option.some.inj hbody
    rw [hp, Option.map_some, hboard] at hplan
    simp at hplan

/-- The edits of each pair come one after the other. -/
def consecutive : List (Pid × Input schema) :=
  loadSteps 0 ++ flushSteps 0 70 ++ loadSteps 1 ++ flushSteps 1 70 ++
    loadSteps 2 ++ flushSteps 2 50 ++ loadSteps 3 ++ flushSteps 3 50

/-- Then the label and the project are as the second edits say. -/
theorem edits_kept_iff_consecutive :
    ∃ w, Reachable (clients plainHash pairs board) w ∧
      (∃ l, labelRow 70 w.store = some l ∧ l.name = "bug" ∧
        l.color = "blue") ∧
      ∃ p, projectRow 50 w.store = some p ∧ p.name = "Board" := by
  have hrun : ((clients plainHash pairs board).run consecutive).any (fun w =>
      (lastLabelEdit pairs 70 w.log).any (fun c => c.pid = 1 ∧
        (labelEdits pairs 70).Current c .name ∧
        (labelEdits pairs 70).Current c .color) = true ∧
      (lastProjectEdit pairs 50 .name w.log).any (fun c => c.pid = 3 ∧
        (projectEdits pairs 50).Current c .name) = true) = true := by
    decide +kernel
  obtain ⟨w, hreach, hlabel, hproject⟩ := exists_reachable hrun
  obtain ⟨hlabels, hprojects⟩ :=
    edits_kept_iff plainHash pairs edits_pairs hreach
  obtain ⟨c, hc, hcurrent⟩ := (Option.any_eq_true _ _).mp hlabel
  obtain ⟨hcpid, hname, hcolor⟩ := of_decide_eq_true hcurrent
  obtain ⟨d, hd, hcurrent'⟩ := (Option.any_eq_true _ _).mp hproject
  obtain ⟨hdpid, hproject'⟩ := of_decide_eq_true hcurrent'
  have hc' : pairs c.pid =
      .label (.update 10 70 Organizations.bob ⟨"bug", "blue"⟩) := by
    rw [hcpid]
    rfl
  have hd' : pairs d.pid = .issue (.updateProject 10 50
      Organizations.bob { name := some (some "Board")
                          description := some (some "Tasks") }) := by
    rw [hdpid]
    rfl
  have hkept := (hlabels 70 c hc _ _ _ hc').mpr fun x => by
    cases x with
    | name => exact hname
    | color => exact hcolor
  obtain ⟨p, hp, hvalue⟩ := (hprojects 50 .name d hd _ _ _ hd').mpr hproject'
  have hboard : some p.name = some "Board" := Option.some.inj hvalue
  exact ⟨w, hreach, hkept, p, hp, Option.some.inj hboard⟩

end Workstream.Tracker
