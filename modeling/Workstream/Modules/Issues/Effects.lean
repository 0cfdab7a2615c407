import Workstream.Modules.Issues.Service

/-!
# What the commits of the issue service do

`Effects` lists, for every kind of request, the writes that it commits and
what they have to do with the store on which they are committed.
-/

namespace Workstream.Issues

open ReadCommitted Projects

/-! ## Writes -/

/-- The issue, the old and the new status of an `issue.status_changed`
event. -/
def statusEvent : Write schema → Option (Uuid × IssueStatus × IssueStatus)
  | .put .auditEvents e =>
      match decide (AuditEvent.action e = "issue.status_changed"), e.entityId,
          e.metadata with
      | true, some i, .statuses previous target => some (i, previous, target)
      | _, _, _ => none
  | _ => none

/-- Writes to the audit log and of notifications, with these status
events. -/
structure Aside (ws : List (Write schema))
    (events : List (Uuid × IssueStatus × IssueStatus)) : Prop where
  tables : ∀ x ∈ ws, x.ref.1 = .auditEvents ∨ x.ref.1 = .notifications
  events : ws.filterMap statusEvent = events

section Aside

variable {ws vs : List (Write schema)}
  {es ds : List (Uuid × IssueStatus × IssueStatus)}

theorem Aside.nil : Aside [] [] := ⟨by simp, rfl⟩

theorem Aside.append (h : Aside ws es) (h' : Aside vs ds) :
    Aside (ws ++ vs) (es ++ ds) where
  tables := by
    intro x hx
    rcases List.mem_append.mp hx with hx | hx
    · exact h.tables x hx
    · exact h'.tables x hx
  events := by rw [List.filterMap_append, h.events, h'.events]

theorem Aside.view (h : Aside ws es) (db : Db) {t : Table}
    (haudit : t ≠ .auditEvents) (hnotification : t ≠ .notifications) :
    Store.view ws db t = db t := by
  refine Store.view_of_table_ne fun x hx ht => ?_
  rcases h.tables x hx with htable | htable
  · exact haudit (ht.symm.trans htable)
  · exact hnotification (ht.symm.trans htable)

end Aside

/-! ## Requests that change one issue -/

/-- The issue that a request is about. -/
def Request.issue : Request → Option Uuid
  | .updateIssue _ issueId _ _ => some issueId
  | .changeStatus _ issueId _ _ => some issueId
  | .assign _ issueId _ _ => some issueId
  | .archive _ issueId _ => some issueId
  | _ => none

/-- The version that a request expects. -/
def Request.expected : Request → Option ℕ
  | .updateIssue _ _ _ body => some body.expectedVersion
  | .changeStatus _ _ _ body => some body.expectedVersion
  | .assign _ _ _ body => some body.expectedVersion
  | _ => none

/-- The columns that an optimistic request writes, besides the version. -/
def Request.revise (request : Request) (i : Issue) : Option Issue :=
  match request with
  | .updateIssue _ _ _ body => body.apply i
  | .changeStatus _ _ _ body => some { i with status := body.status }
  | .assign _ _ _ body => some { i with assigneeId := body.assigneeId }
  | _ => none

/-- The columns of an issue that requests name. -/
inductive Column where
  | title
  | description
  | priority
  | dueDate
  | status
  | assigneeId
  | archivedAt
  deriving DecidableEq

abbrev Column.Value : Column → Type
  | .title => String
  | .description => String
  | .priority => Priority
  | .dueDate => Option Date
  | .status => IssueStatus
  | .assigneeId => Option Uuid
  | .archivedAt => Option Instant

def Column.get (x : Issue) : (column : Column) → column.Value
  | .title => x.title
  | .description => x.description
  | .priority => x.priority
  | .dueDate => x.dueDate
  | .status => x.status
  | .assigneeId => x.assigneeId
  | .archivedAt => x.archivedAt

/-- A new issue has a value in every column. -/
def IssueCreate.column (body : IssueCreate) : (column : Column) → column.Value
  | .title => body.title
  | .description => body.description
  | .priority => body.priority
  | .dueDate => body.dueDate
  | .status => .backlog
  | .assigneeId => body.assigneeId
  | .archivedAt => none

def IssueUpdate.column (body : IssueUpdate) :
    (column : Column) → Option column.Value
  | .title => body.title.join
  | .description => body.description.join
  | .priority => body.priority.join
  | .dueDate => body.dueDate
  | _ => none

/-- The value that a request writes to a column, if it names it; `clock` is
the time of an archival. -/
def Request.assigned (clock : Option Instant) :
    Request → (column : Column) → Option column.Value
  | .createIssue _ _ body, column => some (body.column column)
  | .updateIssue _ _ _ body, column => body.column column
  | .changeStatus _ _ _ body, .status => some body.status
  | .assign _ _ _ body, .assigneeId => some body.assigneeId
  | .archive _ _ _, .archivedAt => clock.map some
  | _, _ => none

/-- The clock reading that follows two statements, which is the first one in
`archive`. -/
def clockOn (c : Commit schema) : Option Instant :=
  match c.session.seen.reverse with
  | _ :: _ :: .answered .now τ :: _ => some τ
  | _ => none

theorem clockOn_eq {c : Commit schema} {τ : Instant} {o a : Obs schema}
    (h : [.answered .now τ, a, o] <:+ c.session.seen) :
    clockOn c = some τ := by
  obtain ⟨pre, hpre⟩ := h
  simp [clockOn, ← hpre]

/-- The store that the second statement of a transaction has read, which is
`get_issue` in `change_status`. -/
def readOn (c : Commit schema) : Option Db :=
  match c.session.seen.reverse with
  | _ :: .saw db :: _ => some db
  | _ => none

theorem readOn_eq {c : Commit schema} {db : Db} {o : Obs schema}
    (h : [.saw db, o] <:+ c.session.seen) : readOn c = some db := by
  obtain ⟨pre, hpre⟩ := h
  simp [readOn, ← hpre]

/-- The row that `change_status` has read allows the step to `target`, and it
is the row of before, as far as the status is concerned, if it has the same
version. -/
structure Stepped (c : Commit schema) (i : Uuid) (target : IssueStatus)
    (r : Issue) (x : Issue) : Prop where
  read : ∃ db, readOn c = some db ∧ (db .issues).lookup (.id i) = some x
  allowed : canTransition x.status target = true
  same : x.version = r.version → x.status = r.status

/-- What the commit of a request does. -/
inductive Effects (request : Request) (c : Commit schema) : Prop where
  | nothing (hissue : request.issue = none) (hwrites : Aside c.session.writes [])
  | projectCreated (project : Project) (rest : List (Write schema))
      (hissue : request.issue = none)
      (hnew : (c.before .projects).lookup (.id project.id) = none)
      (hfirst : project.nextIssueNumber = 1)
      (hwrites : c.session.writes = .put .projects project :: rest)
      (hrest : Aside rest [])
  | projectChanged (p p' : Project) (rest : List (Write schema))
      (hissue : request.issue = none)
      (hlook : (c.before .projects).lookup (.id p.id) = some p)
      (hid : p'.id = p.id)
      (hnext : p'.nextIssueNumber = p.nextIssueNumber)
      (hwrites : c.session.writes = .put .projects p' :: rest)
      (hrest : Aside rest [])
  | created (project : Project) (issue : Issue) (rest : List (Write schema))
      (hissue : request.issue = none)
      (hproject : (c.before .projects).lookup (.id project.id) = some project)
      (hnew : (c.before .issues).lookup (.id issue.id) = none)
      (hprojectId : issue.projectId = project.id)
      (hnumber : issue.number = project.nextIssueNumber)
      (hversion : issue.version = 1) (hstatus : issue.status = .backlog)
      (hcolumns : ∀ clock column,
        request.assigned clock column = some (column.get issue))
      (hwrites : c.session.writes =
        .put .projects
          { project with nextIssueNumber := project.nextIssueNumber + 1 } ::
        .put .issues issue :: rest)
      (hrest : Aside rest [])
  | revised (i : Uuid) (r v : Issue) (time : Instant)
      (rest : List (Write schema))
      (events : List (Uuid × IssueStatus × IssueStatus))
      (hissue : request.issue = some i)
      (hlook : (c.before .issues).lookup (.id i) = some r)
      (hexpected : request.expected = some r.version)
      (hvalues : request.revise r = some v)
      (hwrites : c.session.writes =
        .put .issues { v with version := r.version + 1, updatedAt := time } ::
          rest)
      (hrest : Aside rest events)
      (hevents : (∀ o user body, request ≠ .changeStatus o i user body) →
        events = [])
      (hsteps : ∀ o user body, request = .changeStatus o i user body →
        ∃ x, Stepped c i body.status r x ∧
          events = [(i, x.status, body.status)])
  | archived (i : Uuid) (r : Issue) (archivedAt updatedAt : Instant)
      (hissue : request.issue = some i) (hexpected : request.expected = none)
      (hlook : (c.before .issues).lookup (.id i) = some r)
      (hclock : clockOn c = some archivedAt)
      (hwrites : c.session.writes = [.put .issues
        { r with archivedAt := some archivedAt, updatedAt }])

/-! ## Issues -/

abbrev IssueTable : Type := Relation schema .issues

theorem mem_issues_iff {R : IssueTable} {x : Issue} :
    x ∈ R.rows ↔ R.lookup (.id x.id) = some x := by
  rw [Relation.lookup_eq_some_iff]
  exact (and_iff_left rfl).symm

/-- What becomes of an issue. -/
structure Evolves (x y : Issue) : Prop where
  id : y.id = x.id
  organization : y.organizationId = x.organizationId
  project : y.projectId = x.projectId
  number : y.number = x.number
  version : x.version ≤ y.version
  status : y.version = x.version → y.status = x.status

theorem Evolves.refl (x : Issue) : Evolves x x :=
  ⟨rfl, rfl, rfl, rfl, le_rfl, fun _ => rfl⟩

theorem Evolves.trans {x y z : Issue} (h : Evolves x y) (h' : Evolves y z) :
    Evolves x z where
  id := h'.id.trans h.id
  organization := h'.organization.trans h.organization
  project := h'.project.trans h.project
  number := h'.number.trans h.number
  version := h.version.trans h'.version
  status := by
    intro hversion
    have hyx : y.version = x.version := by
      have hle := h.version
      have hle' := h'.version
      omega
    rw [h'.status (hversion.trans hyx.symm), h.status hyx]

/-- A request never moves an issue. -/
structure SameIssue (x y : Issue) : Prop where
  id : y.id = x.id
  organization : y.organizationId = x.organizationId
  project : y.projectId = x.projectId
  number : y.number = x.number

/-- The columns that an update may set. -/
theorem IssueUpdate.apply_cases {body : IssueUpdate} {i v : Issue}
    (h : body.apply i = some v) :
    ∃ title description priority dueDate,
      v = { i with title, description, priority, dueDate } := by
  simp only [IssueUpdate.apply, Option.pure_def, Option.bind_eq_bind,
    Option.bind_eq_some_iff] at h
  obtain ⟨title, _, description, _, priority, _, hv⟩ := h
  exact ⟨title, description, priority, _, (Option.some.inj hv).symm⟩

theorem IssueUpdate.apply_same {body : IssueUpdate} {i v : Issue}
    (h : body.apply i = some v) : SameIssue i v := by
  obtain ⟨title, description, priority, dueDate, rfl⟩ :=
    IssueUpdate.apply_cases h
  exact ⟨rfl, rfl, rfl, rfl⟩

theorem Request.revise_same {request : Request} {i v : Issue}
    (h : request.revise i = some v) : SameIssue i v := by
  unfold Request.revise at h
  split at h
  · exact IssueUpdate.apply_same h
  · cases h
    exact ⟨rfl, rfl, rfl, rfl⟩
  · cases h
    exact ⟨rfl, rfl, rfl, rfl⟩
  · cases h

/-- What a commit does to the issues: one row at most changes. -/
inductive IssueChange (request : Request) (c : Commit schema) : Prop where
  | same (hissue : request.issue = none)
      (hafter : c.after .issues = c.before .issues)
  | created (issue : Issue) (hissue : request.issue = none)
      (hnew : (c.before .issues).lookup (.id issue.id) = none)
      (hversion : issue.version = 1) (hstatus : issue.status = .backlog)
      (hcolumns : ∀ clock column,
        request.assigned clock column = some (column.get issue))
      (hafter : c.after .issues = (c.before .issues).put issue)
  | revised (r v : Issue) (time : Instant)
      (hissue : request.issue = some r.id)
      (hlook : (c.before .issues).lookup (.id r.id) = some r)
      (hexpected : request.expected = some r.version)
      (hvalues : request.revise r = some v)
      (hafter : c.after .issues = (c.before .issues).put
        { v with version := r.version + 1, updatedAt := time })
  | archived (r : Issue) (archivedAt updatedAt : Instant)
      (hissue : request.issue = some r.id) (hexpected : request.expected = none)
      (hlook : (c.before .issues).lookup (.id r.id) = some r)
      (hclock : clockOn c = some archivedAt)
      (hafter : c.after .issues = (c.before .issues).put
        { r with archivedAt := some archivedAt, updatedAt })

theorem lookup_put_issues (R : IssueTable) (r : Issue) (k : Key) :
    (R.put r).lookup k = if k = .id r.id then some r else R.lookup k :=
  R.lookup_put r k

section Change

variable {request : Request} {c : Commit schema}

/-- A row that replaces `r` and evolves from it. -/
theorem evolves_put {b : IssueTable} {r r' x : Issue}
    (hr : b.lookup (.id r.id) = some r) (h : Evolves r r') (hx : x ∈ b.rows) :
    ∃ y, (b.put r').lookup (.id x.id) = some y ∧ Evolves x y := by
  have hlook := mem_issues_iff.mp hx
  by_cases hxr : x.id = r.id
  · rw [hxr, hr] at hlook
    obtain rfl := Option.some.inj hlook
    refine ⟨r', ?_, h⟩
    rw [lookup_put_issues, if_pos (congrArg Key.id h.id.symm)]
  · refine ⟨x, ?_, .refl x⟩
    rw [lookup_put_issues, if_neg, hlook]
    rw [h.id]
    simpa using hxr

theorem evolves_revise {r v : Issue} {time : Instant}
    (h : request.revise r = some v) :
    Evolves r { v with version := r.version + 1, updatedAt := time } := by
  have hsame := Request.revise_same h
  refine ⟨hsame.id, hsame.organization, hsame.project, hsame.number, ?_, ?_⟩
  · exact Nat.le_succ r.version
  · intro hversion
    exact absurd hversion (Nat.succ_ne_self r.version)

/-- No issue is lost, moved or renumbered. -/
theorem IssueChange.evolves (h : IssueChange request c) {x : Issue}
    (hx : x ∈ (c.before .issues).rows) :
    ∃ y, (c.after .issues).lookup (.id x.id) = some y ∧ Evolves x y := by
  have hlook := mem_issues_iff.mp hx
  cases h with
  | same _ h => exact ⟨x, h ▸ hlook, .refl x⟩
  | created issue _ hnew _ _ _ hafter =>
      refine ⟨x, ?_, .refl x⟩
      rw [hafter, lookup_put_issues, if_neg, hlook]
      intro heq
      rw [heq, hnew] at hlook
      cases hlook
  | revised r v time _ hr _ hvalues hafter =>
      exact hafter ▸ evolves_put hr (evolves_revise hvalues) hx
  | archived r archivedAt updatedAt _ _ hr _ hafter =>
      exact hafter ▸ evolves_put hr
        ⟨rfl, rfl, rfl, rfl, le_rfl, fun _ => rfl⟩ hx

theorem Effects.issueChange (h : Effects request c) :
    IssueChange request c := by
  have hafter : ∀ ws, c.session.writes = ws →
      c.after = Store.view ws c.before := by
    rintro _ rfl
    rfl
  cases h with
  | nothing hissue hwrites =>
      exact .same hissue (hwrites.view _ (by decide) (by decide))
  | projectCreated project rest hissue _ _ hwrites hrest =>
      refine .same hissue ?_
      rw [hafter _ hwrites, Store.view_cons, hrest.view _ (by decide)
        (by decide), Store.write_put_of_ne _ _ (by decide)]
  | projectChanged p p' rest hissue _ _ _ hwrites hrest =>
      refine .same hissue ?_
      rw [hafter _ hwrites, Store.view_cons, hrest.view _ (by decide)
        (by decide), Store.write_put_of_ne _ _ (by decide)]
  | created project issue rest hissue _ hnew _ _ hversion hstatus hcolumns
      hwrites hrest =>
      refine .created issue hissue hnew hversion hstatus hcolumns ?_
      rw [hafter _ hwrites, Store.view_cons, Store.view_cons,
        hrest.view _ (by decide) (by decide), Store.write_put_self,
        Store.write_put_of_ne _ _ (by decide)]
  | revised i r v time rest events hissue hlook hexpected hvalues hwrites
      hrest =>
      have hid : r.id = i := Key.id.inj (Relation.key_of_lookup hlook)
      subst hid
      refine .revised r v time hissue hlook hexpected hvalues ?_
      rw [hafter _ hwrites, Store.view_cons, hrest.view _ (by decide)
        (by decide), Store.write_put_self]
  | archived i r archivedAt updatedAt hissue hexpected hlook hclock hwrites =>
      have hid : r.id = i := Key.id.inj (Relation.key_of_lookup hlook)
      subst hid
      refine .archived r archivedAt updatedAt hissue hexpected hlook hclock ?_
      rw [hafter _ hwrites, Store.view_cons, Store.view_nil,
        Store.write_put_self]

end Change

/-! ## The contract -/

/-- Every commit has the effects of its request. -/
def services (requests : Pid → Request) : Contract schema where
  inv := fun _ => True
  assume := fun _ => True
  guar := fun c => Effects (requests c.pid) c
  inv_draw := fun _ _ _ h => h

/-- An issue that has been read only evolves. -/
theorem evolves_rely {requests : Pid → Request} {p : Pid} {l : Local schema}
    {s s' : Shared schema} (h : (services requests).Rely p l s s') {i : Uuid}
    {x : Issue} (hx : (s.store .issues).lookup (.id i) = some x) :
    ∃ y, (s'.store .issues).lookup (.id i) = some y ∧ Evolves x y := by
  refine h.induct (P := fun u : Shared schema =>
    ∃ y, (u.store .issues).lookup (.id i) = some y ∧ Evolves x y)
    ⟨x, hx, .refl x⟩ ?_
  rintro u v henv ⟨y, hy, hxy⟩
  cases henv with
  | commit c _ _ _ _ _ hguar =>
      have hid : y.id = i := Key.id.inj (Relation.key_of_lookup hy)
      obtain ⟨z, hz, hyz⟩ :=
        hguar.issueChange.evolves (Relation.mem_of_lookup hy)
      exact ⟨z, hid ▸ hz, hxy.trans hyz⟩
  | draw => exact ⟨y, hy, hxy⟩

end Workstream.Issues
