import Workstream.Api.Dependencies

/-!
# The project service

A body that leaves a field unset differs from one that sets it to null: the
outer option of a field says whether it is set.  The flush sends the columns
in which the object differs from the row that was loaded.
-/

namespace Workstream.Projects

open ReadCommitted

/-! ## Request bodies -/

structure ProjectCreate where
  name : String
  key : String
  description : String := ""

structure ProjectUpdate where
  name : Option (Option String) := none
  description : Option (Option String) := none

/-! ## Columns of an `UPDATE` -/

/-- The value that a body gives to a column that admits no null; `none` if it
gives null. -/
def setColumn {α : Type} (current : α) : Option (Option α) → Option α
  | none => some current
  | some value => value

/-- The row with the columns that `body` sets; `none` if one of them would be
null. -/
def ProjectUpdate.apply (body : ProjectUpdate) (p : Project) :
    Option Project := do
  let name ← setColumn p.name body.name
  let description ← setColumn p.description body.description
  return { p with name, description }

/-- Nothing but the name and the description changes. -/
theorem ProjectUpdate.apply_cases {body : ProjectUpdate} {p p' : Project}
    (h : body.apply p = some p') :
    ∃ name description, p' = { p with name, description } := by
  simp only [ProjectUpdate.apply, Option.pure_def, Option.bind_eq_bind,
    Option.bind_eq_some_iff] at h
  obtain ⟨name, _, description, _, hp⟩ := h
  exact ⟨name, description, (Option.some.inj hp).symm⟩

theorem ProjectUpdate.apply_same {body : ProjectUpdate} {p p' : Project}
    (h : body.apply p = some p') :
    p'.id = p.id ∧ p'.nextIssueNumber = p.nextIssueNumber := by
  obtain ⟨name, description, rfl⟩ := ProjectUpdate.apply_cases h
  exact ⟨rfl, rfl⟩

theorem ProjectUpdate.apply_organization {body : ProjectUpdate}
    {p p' : Project} (h : body.apply p = some p') :
    p'.organizationId = p.organizationId := by
  obtain ⟨name, description, rfl⟩ := ProjectUpdate.apply_cases h
  rfl

/-- The part of `body` that differs from the loaded row. -/
def ProjectUpdate.changes (body : ProjectUpdate) (p : Project) :
    ProjectUpdate where
  name := body.name.filter (· ≠ some p.name)
  description := body.description.filter (· ≠ some p.description)

def ProjectUpdate.isEmpty (body : ProjectUpdate) : Bool :=
  body.name.isNone && body.description.isNone

/-- An `UPDATE` whose new row violates a constraint of the table fails. -/
def writeOrReject {α : Type} : Option α → Effect α
  | some r => .write r
  | none => .reject

theorem writeOrReject_cases {α : Type} (o : Option α) :
    writeOrReject o = .reject ∨ ∃ r, writeOrReject o = .write r := by
  cases o with
  | none => exact Or.inl rfl
  | some r => exact Or.inr ⟨r, rfl⟩

theorem writeOrReject_eq_write {α : Type} {o : Option α} {r : α} :
    writeOrReject o = .write r ↔ o = some r := by
  cases o with
  | none => simp [writeOrReject]
  | some r' => simp [writeOrReject]

/-! ## Projects -/

def getProject (organizationId projectId : Uuid) : Tx Project := do
  let rows ← Prog.select fun db : Db =>
    (db .projects).rows.filter fun p : Project =>
      p.id = projectId ∧ p.organizationId = organizationId
  let project ← scalarOneOrNone rows
  Prog.require project (notFound "Project not found")

def projectKeyConflict : AppError where
  status := 409
  code := "project_key_conflict"
  detail := "Project key is already in use in this organization"

def createProject (organizationId : Uuid) (user : User)
    (body : ProjectCreate) : Tx Project := do
  let _ ← requireMembership organizationId user.id [.owner, .admin, .member]
  let id ← Prog.freshId
  let createdAt ← now
  let project : Project :=
    { id, organizationId, name := body.name, key := body.key
      description := body.description, createdAt }
  let conflict ← Prog.insertRow (σ := schema) .projects project
  match conflict with
  | some (.projectKey _ _) => do
      Prog.rollbackNow
      .raise projectKeyConflict
  | some _ => .halt
  | none => do
      audit user.id (some organizationId) "project.created" "project"
        project.id .empty none
      Prog.commitNow
      return project

def updateProject (organizationId projectId : Uuid) (user : User)
    (body : ProjectUpdate) : Tx Project := do
  let _ ← requireMembership organizationId user.id [.owner, .admin, .member]
  let project ← getProject organizationId projectId
  let changes := body.changes project
  (if changes.isEmpty then pure ()
    else Prog.alterKey (σ := schema) .projects (.id project.id)
      fun p => writeOrReject (changes.apply p))
  Prog.commitNow
  return (body.apply project).getD project

def setArchived (organizationId projectId : Uuid) (user : User)
    (archived : Bool) : Tx Unit := do
  let _ ← requireMembership organizationId user.id [.owner, .admin]
  let project ← getProject organizationId projectId
  (if project.archived = archived then pure ()
    else Prog.updateKey (σ := schema) .projects (.id project.id)
      fun p => { p with archived })
  audit user.id (some organizationId)
    (if archived then "project.archived" else "project.unarchived") "project"
    project.id .empty none
  Prog.commitNow

end Workstream.Projects
