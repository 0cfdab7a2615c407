import Workstream.Modules.Issues.Service

/-!
# The comment service

Editing is up to the author; an owner or an admin may delete any comment of
the organization.  A comment that is gone at its `DELETE` is not missed.
-/

namespace Workstream.Comments

open ReadCommitted Issues

structure CommentCreate where
  body : String

def get (organizationId commentId : Uuid) : Tx Comment := do
  let rows ← Prog.select fun db : Db =>
    (db .comments).rows.filter fun x : Comment =>
      x.id = commentId ∧ x.organizationId = organizationId
  let row ← scalarOneOrNone rows
  Prog.require row (notFound "Comment not found")

def create (organizationId issueId : Uuid) (user : User)
    (body : CommentCreate) : Tx Comment := do
  let _ ← requireMembership organizationId user.id [.owner, .admin, .member]
  let _ ← getIssue organizationId issueId
  let id ← Prog.freshId
  let createdAt ← now
  let row : Comment :=
    { id, organizationId, issueId, authorId := user.id, body := body.body
      createdAt }
  Prog.insertOrHalt (σ := schema) .comments row
  Prog.commitNow
  return row

/-- The columns of an edit that differ from the loaded row. -/
def CommentCreate.flush (body : CommentCreate) (loaded x : Comment)
    (time : Instant) : Comment :=
  { x with
    body := if body.body = loaded.body then x.body else body.body
    editedAt := some time }

def update (organizationId commentId : Uuid) (user : User)
    (body : CommentCreate) : Tx Comment := do
  let _ ← requireMembership organizationId user.id []
  let row ← get organizationId commentId
  Prog.ensure (row.authorId = user.id)
    (insufficientPermission "Only the author may edit this comment")
  let editedAt ← now
  Prog.updateKey (σ := schema) .comments (.id row.id)
    fun x => body.flush row x editedAt
  Prog.commitNow
  return { row with body := body.body, editedAt := some editedAt }

def delete (organizationId commentId : Uuid) (user : User) : Tx Unit := do
  let membership ← requireMembership organizationId user.id []
  let row ← get organizationId commentId
  Prog.ensure (row.authorId = user.id ∨
      membership.role = .owner ∨ membership.role = .admin)
    (insufficientPermission "Comment deletion is not permitted")
  Prog.deleteKey (σ := schema) .comments (.id row.id)
  Prog.commitNow

/-! ## Requests -/

inductive Request where
  | create (organizationId issueId : Uuid) (user : User) (body : CommentCreate)
  | update (organizationId commentId : Uuid) (user : User)
      (body : CommentCreate)
  | delete (organizationId commentId : Uuid) (user : User)

inductive Response where
  | comment (comment : Comment)
  | noContent

def serve : Request → Tx Response
  | .create organizationId issueId user body =>
      .comment <$> create organizationId issueId user body
  | .update organizationId commentId user body =>
      .comment <$> update organizationId commentId user body
  | .delete organizationId commentId user =>
      (fun _ => .noContent) <$> delete organizationId commentId user

end Workstream.Comments
