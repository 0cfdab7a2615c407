import Workstream.Modules.Issues.Service

/-!
# The label service

Labels are the only rows of the tracker that are deleted while others refer to
them.  The foreign key of a link is checked at the end of its `INSERT`, with a
lock on the label that lasts to the commit, which is the next statement; a
label takes its links along when it is deleted.
-/

namespace Workstream.Labels

open ReadCommitted Issues

structure LabelCreate where
  name : String
  color : String

def labelNameConflict : AppError where
  status := 409
  code := "label_name_conflict"
  detail := "Label name is already in use in this organization"

def create (organizationId : Uuid) (user : User) (body : LabelCreate) :
    Tx Label := do
  let _ ← requireMembership organizationId user.id [.owner, .admin, .member]
  let id ← Prog.freshId
  let label : Label :=
    { id, organizationId, name := body.name, color := body.color }
  let conflict ← Prog.insertRow (σ := schema) .labels label
  match conflict with
  | some (.labelName _ _) => do
      Prog.rollbackNow
      .raise labelNameConflict
  | some _ => .halt
  | none => do
      Prog.commitNow
      return label

def get (organizationId labelId : Uuid) : Tx Label := do
  let rows ← Prog.select fun db : Db =>
    (db .labels).rows.filter fun l : Label =>
      l.id = labelId ∧ l.organizationId = organizationId
  let label ← scalarOneOrNone rows
  Prog.require label (notFound "Label not found")

/-- The columns of `body` that differ from the loaded row. -/
def LabelCreate.flush (body : LabelCreate) (loaded l : Label) : Label :=
  { l with
    name := if body.name = loaded.name then l.name else body.name
    color := if body.color = loaded.color then l.color else body.color }

def update (organizationId labelId : Uuid) (user : User)
    (body : LabelCreate) : Tx Label := do
  let _ ← requireMembership organizationId user.id [.owner, .admin, .member]
  let label ← get organizationId labelId
  (if body.name = label.name ∧ body.color = label.color then pure ()
    else Prog.updateKey (σ := schema) .labels (.id label.id)
      (body.flush label))
  Prog.commitNow
  return { label with name := body.name, color := body.color }

/-- `DELETE` with its `ON DELETE CASCADE`. -/
def delete (organizationId labelId : Uuid) (user : User) : Tx Unit := do
  let _ ← requireMembership organizationId user.id [.owner, .admin]
  let _ ← get organizationId labelId
  let labels ← Prog.locking (σ := schema) (t := .labels)
    { pred := fun l => l.id = labelId, effect := fun _ => .delete }
  (match labels with
    | [] => pure ()
    | _ => do
        let _ ← Prog.locking (σ := schema) (t := .issueLabels)
          { pred := fun x => x.labelId = labelId, effect := fun _ => .delete })
  Prog.commitNow

def linkKey (issueId labelId : Uuid) : Key :=
  .pair issueId labelId

/-- The check of a foreign key at the end of a statement. -/
def checkLabel (labelId : Uuid) : Tx Unit := do
  let labels ← Prog.locking (σ := schema) (t := .labels)
    (Prog.byKey (.id labelId) fun _ => .lock)
  match labels with
  | [] => .halt
  | _ => pure ()

/-- `INSERT ... ON CONFLICT DO NOTHING`. -/
def attach (organizationId issueId labelId : Uuid) (user : User) :
    Tx Unit := do
  let _ ← requireMembership organizationId user.id [.owner, .admin, .member]
  let _ ← getIssue organizationId issueId
  let _ ← get organizationId labelId
  let conflict ← Prog.insertRow (σ := schema) .issueLabels
    { issueId, labelId }
  (match conflict with
    | some _ => pure ()
    | none => checkLabel labelId)
  Prog.commitNow

def detach (organizationId issueId labelId : Uuid) (user : User) :
    Tx Unit := do
  let _ ← requireMembership organizationId user.id [.owner, .admin, .member]
  let _ ← getIssue organizationId issueId
  let _ ← get organizationId labelId
  Prog.deleteKey (σ := schema) .issueLabels (linkKey issueId labelId)
  Prog.commitNow

/-! ## Requests -/

inductive Request where
  | create (organizationId : Uuid) (user : User) (body : LabelCreate)
  | update (organizationId labelId : Uuid) (user : User) (body : LabelCreate)
  | delete (organizationId labelId : Uuid) (user : User)
  | attach (organizationId issueId labelId : Uuid) (user : User)
  | detach (organizationId issueId labelId : Uuid) (user : User)

inductive Response where
  | label (label : Label)
  | noContent

def serve : Request → Tx Response
  | .create organizationId user body =>
      .label <$> create organizationId user body
  | .update organizationId labelId user body =>
      .label <$> update organizationId labelId user body
  | .delete organizationId labelId user =>
      (fun _ => .noContent) <$> delete organizationId labelId user
  | .attach organizationId issueId labelId user =>
      (fun _ => .noContent) <$> attach organizationId issueId labelId user
  | .detach organizationId issueId labelId user =>
      (fun _ => .noContent) <$> detach organizationId issueId labelId user

end Workstream.Labels
