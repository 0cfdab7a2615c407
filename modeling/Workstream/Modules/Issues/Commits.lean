import Workstream.Modules.Issues.Transactions

/-!
# The commits of the issue service

Every endpoint commits what `Effects` says, under interference by all the
others, and an endpoint that raises an error has written nothing.
-/

namespace Workstream.Issues

open ReadCommitted Contract Projects

/-! ## Audit events -/

theorem aside_audit {event : AuditEvent}
    (h : event.action ≠ "issue.status_changed") :
    Aside [.put .auditEvents event] [] where
  tables := by
    intro x hx
    obtain rfl := List.mem_singleton.mp hx
    exact Or.inl rfl
  events := by simp [statusEvent, h]

theorem aside_statusChanged {event : AuditEvent} {i : Uuid}
    {previous target : IssueStatus}
    (haction : event.action = "issue.status_changed")
    (hentity : event.entityId = some i)
    (hmetadata : event.metadata = .statuses previous target) :
    Aside [.put .auditEvents event] [(i, previous, target)] where
  tables := by
    intro x hx
    obtain rfl := List.mem_singleton.mp hx
    exact Or.inl rfl
  events := by simp [statusEvent, haction, hentity, hmetadata]

theorem aside_notified {db : Db} {O i : Uuid} {actor : User}
    {assigneeId : Option Uuid} {ws : List (Write schema)}
    (h : Notified db O i actor assigneeId ws) : Aside ws [] := by
  cases h with
  | nobody => exact .nil
  | actor => exact .nil
  | assignee userId id createdAt _ _ =>
      refine ⟨fun x hx => ?_, rfl⟩
      obtain rfl := List.mem_singleton.mp hx
      exact Or.inr rfl

/-! ## Effects -/

section Effects

variable {past : List schema.Ref → Db → Prop} {request : Request}
  {c : Commit schema}

/-- What has been read of an issue only evolves to the commit. -/
def PastEvolves (past : List schema.Ref → Db → Prop) (c : Commit schema) :
    Prop :=
  ∀ db i x, past [] db → (db .issues).lookup (.id i) = some x →
    ∃ y, (c.before .issues).lookup (.id i) = some y ∧ Evolves x y

theorem Transacts.effects (h : Transacts past request c)
    (hpast : PastEvolves past c) : Effects request c := by
  cases h with
  | projectCreated m id createdAt event _ hnew haudit hwrites =>
      refine .projectCreated _ _ rfl hnew rfl hwrites (aside_audit ?_)
      rw [haudit.action]
      decide
  | projectKept m project _ _ _ hwrites => exact .nothing rfl (hwrites ▸ .nil)
  | projectChanged m project r r' _ _ hrow hvalues hwrites =>
      obtain ⟨hid, hnext⟩ := ProjectUpdate.apply_same hvalues
      have hkey : Key.id r.id = .id _ := Relation.key_of_lookup hrow
      rw [← hkey] at hrow
      exact .projectChanged r r' [] rfl hrow hid hnext hwrites .nil
  | @archivedKept _ _ _ archived _ m project event _ _ _ haudit hwrites =>
      refine .nothing rfl (hwrites ▸ aside_audit ?_)
      rw [haudit.action]
      cases archived <;> decide
  | @archivedChanged _ _ _ archived _ m project r event _ _ _ hrow haudit
      hwrites =>
      have hkey : Key.id r.id = .id _ := Relation.key_of_lookup hrow
      rw [← hkey] at hrow
      refine .projectChanged r { r with archived } _ rfl hrow rfl rfl hwrites
        (aside_audit ?_)
      rw [haudit.action]
      cases archived <;> decide
  | issueCreated m project r id createdAt updatedAt event ws _ _ _ _ hrow hnew
      haudit hnotified hwrites =>
      have hkey : Key.id r.id = .id _ := Relation.key_of_lookup hrow
      have hid := Key.id.inj hkey
      rw [← hkey] at hrow
      refine .created r _ _ rfl hrow hnew hid.symm rfl rfl rfl
        (fun clock column => by cases column <;> rfl) hwrites
        ((aside_audit ?_).append (aside_notified hnotified))
      rw [haudit.action]
      decide
  | @updated _ i _ _ _ m db x r v time _ _ hexpected hvalues hwrites =>
      refine .revised i r v time [] [] rfl hexpected.row
        (congrArg some hexpected.version.symm) hvalues hwrites .nil
        (fun _ => rfl) ?_
      rintro _ _ _ ⟨⟩
  | @statusChanged _ i user body _ m db x r time event _ hread hgot hallowed
      hexpected haudit hwrites =>
      refine .revised i r _ time _ _ rfl hexpected.row
        (congrArg some hexpected.version.symm) rfl hwrites
        (aside_statusChanged haudit.action haudit.entity haudit.metadata)
        (fun hnot => absurd rfl (hnot _ user body)) ?_
      rintro _ _ _ ⟨⟩
      refine ⟨x, ⟨⟨db, hread, hgot.row⟩, hallowed, fun hsame => ?_⟩, rfl⟩
      obtain ⟨y, hy, hxy⟩ := hpast db i x hgot.past hgot.row
      rw [hexpected.row] at hy
      obtain rfl := Option.some.inj hy
      exact (hxy.status hsame.symm).symm
  | @assigned _ i _ _ _ m db x r time event ws _ _ _ hexpected haudit hnotified
      hwrites =>
      refine .revised i r _ time _ [] rfl hexpected.row
        (congrArg some hexpected.version.symm) rfl hwrites
        ((aside_audit ?_).append (aside_notified hnotified))
        (fun _ => rfl) ?_
      · rw [haudit.action]
        decide
      · rintro _ _ _ ⟨⟩
  | @archived _ i _ _ m db x r archivedAt updatedAt _ _ hclock hrow hwrites =>
      exact .archived i r archivedAt updatedAt rfl rfl hrow hclock hwrites

end Effects

/-! ## Runs -/

/-- An error leaves nothing behind. -/
def Untouched : AppError → Local schema → Shared schema → Prop :=
  fun _ l _ => l.session.writes = [] ∧ Obs.committed ∉ l.session.seen

theorem allows_services {requests : Pid → Request} {p : Pid} :
    Allows (services requests) (requests p) p := by
  intro l s c _ hc _ _ htransacts
  refine ⟨?_, trivial⟩
  change Effects (requests c.pid) c
  rw [hc.pid]
  refine htransacts.effects fun db i x hpast hx => ?_
  obtain ⟨used, _, hrely⟩ := hpast
  rw [hc.before]
  exact evolves_rely hrely hx

/-- The world in which every client is about to send its request. -/
abbrev clients (requests : Pid → Request) (s₀ : Db) :
    World schema AppError Response :=
  World.start s₀ fun p => serve (requests p)

theorem sound_services {requests : Pid → Request} {s₀ : Db}
    {w : World schema AppError Response}
    (hreach : Reachable (clients requests s₀) w) :
    Sound (services requests) (fun _ _ _ _ => True) (fun _ => Untouched) w :=
  sound (C := services requests) trivial
    (fun _ => requests_serve allows_services trivial) hreach
    fun _ _ => trivial

end Workstream.Issues
