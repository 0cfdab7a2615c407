import Workstream.Modules.Comments.Transactions
import Workstream.Modules.Labels.Transactions
import Workstream.Modules.Organizations.Commits

/-!
# The requests of an organization

The services for organizations, projects, issues, labels and comments on one
database: what a request of any of them commits, under any contract.
-/

namespace Workstream.Tracker

open ReadCommitted Contract World

/-- A request of one of the services. -/
inductive Request where
  | organization (request : Organizations.Request)
  | rename (organizationId : Uuid) (user : User)
      (body : Organizations.OrganizationUpdate)
  | issue (request : Issues.Request)
  | label (request : Labels.Request)
  | comment (request : Comments.Request)

inductive Response where
  | organization (organization : Organization)
  | issue (response : Issues.Response)
  | label (response : Labels.Response)
  | comment (response : Comments.Response)
  | noContent

def serve (H : TokenHash) : Request → Tx Response
  | .organization request =>
      (fun _ => .noContent) <$> Organizations.serve H request
  | .rename organizationId user body =>
      .organization <$> Organizations.update organizationId user body
  | .issue request => .issue <$> Issues.serve request
  | .label request => .label <$> Labels.serve request
  | .comment request => .comment <$> Comments.serve request

/-- What the commit of a request does. -/
inductive Transacts (H : TokenHash) (past : List schema.Ref → Db → Prop)
    (c : Commit schema) : Request → Prop where
  | organization (request : Organizations.Request)
      (h : Organizations.Effects H past request c) :
      Transacts H past c (.organization request)
  | rename (O : Uuid) (user : User) (body : Organizations.OrganizationUpdate)
      (h : Organizations.Renames past c O user body) :
      Transacts H past c (.rename O user body)
  | issue (request : Issues.Request) (h : Issues.Transacts past request c) :
      Transacts H past c (.issue request)
  | label (request : Labels.Request) (h : Labels.Transacts past request c) :
      Transacts H past c (.label request)
  | comment (request : Comments.Request)
      (h : Comments.Transacts past request c) :
      Transacts H past c (.comment request)

/-! ## Tables -/

/-- The tables to which a request writes. -/
def Request.tables : Request → List Table
  | .organization _ =>
      [.organizations, .memberships, .invitations, .auditEvents, .outboxEvents]
  | .rename _ _ _ => [.organizations, .auditEvents]
  | .issue _ => [.projects, .issues, .auditEvents, .notifications]
  | .label _ => [.labels, .issueLabels]
  | .comment _ => [.comments]

section Tables

variable {H : TokenHash} {past : List schema.Ref → Db → Prop}
  {c : Commit schema}

theorem ref_of_notified {O i : Uuid} {actor : User} {assigneeId : Option Uuid}
    {ws : List (Write schema)} {db : Db}
    (h : Issues.Notified db O i actor assigneeId ws) :
    ∀ w ∈ ws, w.ref.1 = Table.notifications := by
  intro w hw
  cases h with
  | nobody => cases hw
  | actor => cases hw
  | assignee userId id createdAt _ _ =>
      rw [List.mem_singleton.mp hw]
      rfl

theorem tables_organization {request : Organizations.Request}
    (h : Organizations.Effects H past request c) :
    ∀ w ∈ c.session.writes,
      w.ref.1 ∈ Request.tables (.organization request) := by
  cases h with
  | accepted r time ws event _ _ _ _ _ _ _ hjoins _ hwrites =>
      cases hjoins <;> simp [hwrites, Write.ref, Request.tables]
  | _ => simp [*, Write.ref, Request.tables]

theorem tables_rename {O : Uuid} {user : User}
    {body : Organizations.OrganizationUpdate}
    (h : Organizations.Renames past c O user body) :
    ∀ w ∈ c.session.writes,
      w.ref.1 ∈ Request.tables (.rename O user body) := by
  cases h <;> simp [*, Write.ref, Request.tables]

theorem tables_issue {request : Issues.Request}
    (h : Issues.Transacts past request c) :
    ∀ w ∈ c.session.writes, w.ref.1 ∈ Request.tables (.issue request) := by
  have haside : ∀ {ws : List (Write schema)},
      (∀ w ∈ ws, w.ref.1 = Table.notifications) →
      ∀ w ∈ ws, w.ref.1 ∈ Request.tables (.issue request) := by
    intro ws hws w hw
    simp [Request.tables, hws w hw]
  cases h with
  | issueCreated m project r id createdAt updatedAt event ws _ _ _ _ _ _ _
      hnotified hwrites =>
      have hws := haside (ref_of_notified hnotified)
      simpa [hwrites, Write.ref, Request.tables] using hws
  | assigned m db x r time event ws _ _ _ _ _ hnotified hwrites =>
      have hws := haside (ref_of_notified hnotified)
      simpa [hwrites, Write.ref, Request.tables] using hws
  | _ => simp [*, Write.ref, Request.tables]

theorem tables_label {request : Labels.Request}
    (h : Labels.Transacts past request c) :
    ∀ w ∈ c.session.writes, w.ref.1 ∈ Request.tables (.label request) := by
  cases h with
  | deleted m label r ws _ _ _ _ hunlinks hwrites =>
      rw [hwrites]
      intro w hw
      rcases List.mem_cons.mp hw with rfl | hw
      · simp [Write.ref, Request.tables]
      · obtain ⟨i, rfl⟩ := hunlinks.links w hw
        simp [Write.ref, Request.tables]
  | _ => simp [*, Write.ref, Request.tables]

theorem tables_comment {request : Comments.Request}
    (h : Comments.Transacts past request c) :
    ∀ w ∈ c.session.writes, w.ref.1 ∈ Request.tables (.comment request) := by
  cases h <;> simp [*, Write.ref, Request.tables]

theorem Transacts.tables {request : Request}
    (h : Transacts H past c request) :
    ∀ w ∈ c.session.writes, w.ref.1 ∈ request.tables := by
  cases h with
  | organization request h => exact tables_organization h
  | rename O user body h => exact tables_rename h
  | issue request h => exact tables_issue h
  | label request h => exact tables_label h
  | comment request h => exact tables_comment h

/-- A row of a table to which the request does not write. -/
theorem Transacts.lookup_after {request : Request}
    (h : Transacts H past c request) {t : Table} (ht : t ∉ request.tables)
    (k : Key) : (c.after t).lookup k = (c.before t).lookup k := by
  refine lookup_after_of_writes fun w hw href => ht ?_
  have htable := h.tables w hw
  rwa [href] at htable

end Tables

/-! ## Rules -/

section Serve

variable {H : TokenHash} {C : Contract schema} {p : Pid} {s : Shared schema}

/-- The contract accepts what `request` commits. -/
abbrev Allows (H : TokenHash) (C : Contract schema) (request : Request)
    (p : Pid) : Prop :=
  C.Accepts p fun past c => Transacts H past c request

/-- All requests, under any contract that accepts their transactions. -/
theorem requests_serve {request : Request} (hallows : Allows H C request p)
    (hinv : C.inv s) : Requests C p (serve H request) {} s := by
  cases request with
  | organization request =>
      have hrequest : Organizations.Allows H C (fun _ => request) p :=
        fun l s c hi hc ha hfirst h =>
          hallows l s c hi hc ha hfirst (.organization request h)
      exact requests_map (Organizations.requests_serve hrequest hinv) hinv
  | rename O user body =>
      refine requests_map (Organizations.requests_update ?_) hinv
      exact fun l s c hi hc ha hfirst h =>
        hallows l s c hi hc ha hfirst (.rename O user body h)
  | issue request =>
      refine requests_map (Issues.requests_serve ?_ hinv) hinv
      exact fun l s c hi hc ha hfirst h =>
        hallows l s c hi hc ha hfirst (.issue request h)
  | label request =>
      refine requests_map (Labels.requests_serve ?_ hinv) hinv
      exact fun l s c hi hc ha hfirst h =>
        hallows l s c hi hc ha hfirst (.label request h)
  | comment request =>
      refine requests_map (Comments.requests_serve ?_ hinv) hinv
      exact fun l s c hi hc ha hfirst h =>
        hallows l s c hi hc ha hfirst (.comment request h)

end Serve

/-- The world in which every client is about to send its request. -/
abbrev clients (H : TokenHash) (requests : Pid → Request) (s₀ : Db) :
    World schema AppError Response :=
  World.start s₀ fun p => serve H (requests p)

/-! ## Runs -/

/-- Every commit is a transaction of its request, and the first commit of its
client. -/
def services (H : TokenHash) (requests : Pid → Request) : Contract schema where
  inv := fun _ => True
  assume := fun _ => True
  guar := fun c => Obs.committed ∉ c.session.seen ∧
    ∃ past, Transacts H past c (requests c.pid)
  inv_draw := fun _ _ _ h => h

theorem sound_services {H : TokenHash} {requests : Pid → Request} {s₀ : Db}
    {w : World schema AppError Response}
    (hreach : Reachable (clients H requests s₀) w) :
    Sound (services H requests) (fun _ _ _ _ => True) (fun _ => Unwritten)
      w := by
  refine sound (C := services H requests) trivial (fun p => ?_) hreach
    fun _ _ => trivial
  refine requests_serve (fun l s c _ hc _ hfirst h => ?_) trivial
  refine ⟨⟨hfirst, (services H requests).Past p s, ?_⟩, trivial⟩
  rw [hc.pid]
  exact h

end Workstream.Tracker
