import Workstream.Modules.Projects.Service

/-!
# The demo data

`seed.main` is one transaction.  The rows that it looks for again have
identifiers that are made of their names.
-/

namespace Workstream.Seed

open ReadCommitted

/-- The text that `uid` hashes. -/
def qualified (name : String) : String := "workstream.local/" ++ name

section Main

variable (uuid5 : String → Uuid)

def uid (name : String) : Uuid := uuid5 (qualified name)

/-- The users of the demo: their names, addresses and display names. -/
def demoUsers : List (String × String × String) :=
  [("owner", "owner@demo.example.com", "Olivia Owner"),
    ("member", "member@demo.example.com", "Morgan Member"),
    ("viewer", "viewer@demo.example.com", "Val Viewer")]

def seedUserIds : List Uuid := demoUsers.map fun x => uid uuid5 x.1

/-- The addresses are set again, in case that somebody has changed them; a
flush sends only what differs. -/
def resetEmails (existing : List User) :
    List (String × String × String) → Tx Unit
  | [] => pure ()
  | (name, email, _) :: rest => do
      (match existing.find? fun u => u.id = uid uuid5 name with
        | some user =>
            if user.email = email then pure ()
            else Prog.updateKey (σ := schema) .users (.id user.id)
              fun u => { u with email }
        | none => pure ())
      resetEmails existing rest

/-- The `User` objects of `main`. -/
def demoAccounts : List (String × String × String) → Tx (List User)
  | [] => pure []
  | (name, email, displayName) :: rest => do
      let passwordHash ← Prog.callOut (.hashPassword "DemoPassword123!")
      let users ← demoAccounts rest
      return { id := uid uuid5 name, email, passwordHash, displayName } :: users

/-- The rows of one `INSERT`. -/
def insertAll (t : Table) : List (Row t) → Tx Unit
  | [] => pure ()
  | r :: rest => do
      Prog.insertOrHalt (σ := schema) t r
      insertAll t rest

/-- An organization of the demo, whose timestamps are defaults. -/
def demoOrganization (key name slug : String) : Tx Organization := do
  let createdAt ← now
  let updatedAt ← now
  return { id := uid uuid5 key, name, slug, createdAt, updatedAt }

/-- The issues of the demo: number, title, status and priority. -/
def demoIssues : List (ℕ × String × IssueStatus × Priority) :=
  [(1, "Ship API", .inProgress, .high),
    (2, "Improve metrics", .todo, .medium),
    (3, "Archive imports", .backlog, .low)]

def insertIssues (project : Project) (reporterId assigneeId : Uuid) :
    List (ℕ × String × IssueStatus × Priority) → Tx (List Issue)
  | [] => pure []
  | (number, title, status, priority) :: rest => do
      let id ← Prog.freshId
      let createdAt ← now
      let updatedAt ← now
      let issue : Issue :=
        { id, organizationId := project.organizationId
          projectId := project.id, number, title, status, priority
          reporterId, assigneeId := some assigneeId, createdAt, updatedAt }
      Prog.insertOrHalt (σ := schema) .issues issue
      let issues ← insertIssues project reporterId assigneeId rest
      return issue :: issues

/-- The part of `main` for a database without the demo. -/
def plant : Tx Unit := do
  let users ← demoAccounts uuid5 demoUsers
  let acme ← demoOrganization uuid5 "acme" "Acme Engineering" "acme-engineering"
  let northstar ←
    demoOrganization uuid5 "northstar" "Northstar Labs" "northstar-labs"
  insertAll .users users
  insertAll .organizations [acme, northstar]
  let owner := uid uuid5 "owner"
  let member := uid uuid5 "member"
  let viewer := uid uuid5 "viewer"
  insertAll .memberships
    [{ organizationId := acme.id, userId := owner, role := .owner },
      { organizationId := acme.id, userId := member, role := .member },
      { organizationId := acme.id, userId := viewer, role := .viewer },
      { organizationId := northstar.id, userId := owner, role := .admin },
      { organizationId := northstar.id, userId := member, role := .owner }]
  let createdAt ← now
  let project : Project :=
    { id := uid uuid5 "project-eng", organizationId := acme.id
      name := "Engineering", key := "ENG", description := "Core platform"
      nextIssueNumber := 4, createdAt }
  Prog.insertOrHalt (σ := schema) .projects project
  let issues ← insertIssues project owner member demoIssues
  let labelId ← Prog.freshId
  Prog.insertOrHalt (σ := schema) .labels
    { id := labelId, organizationId := acme.id, name := "backend"
      color := "#3366CC" }
  match issues with
  | [] => .halt
  | issue :: _ => do
      let commentId ← Prog.freshId
      let commentedAt ← now
      Prog.insertOrHalt (σ := schema) .comments
        { id := commentId, organizationId := acme.id, issueId := issue.id
          authorId := member
          body := "Initial implementation is ready for review."
          createdAt := commentedAt }
  Prog.commitNow

def main : Tx Unit := do
  let existing ← Prog.select fun db : Db =>
    (db .users).rows.filter fun u : User => u.id ∈ seedUserIds uuid5
  if existing.any fun u => u.id = uid uuid5 "owner" then do
    resetEmails uuid5 existing demoUsers
    Prog.commitNow
  else plant uuid5

end Main

end Workstream.Seed
