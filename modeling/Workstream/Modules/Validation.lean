import Workstream.Modules.Auth.Writes
import Workstream.Modules.Tracker.Roles

/-!
# Validated requests and the constraints of the schema

The request models let through an explicit null for columns that admit none,
and nothing bounds the `User-Agent` and the address that a login stores.  Apart
from these, what a validated request writes is turned down by a unique index,
if by anything, in every run of the application.
-/

namespace Workstream.Schemas

open ReadCommitted Constraints World

/-! ## The application -/

/-- An endpoint behind `current_user`, which acts for nobody else. -/
structure Endpoint where
  request : User → Tracker.Request
  user_request : ∀ user, (request user).user = user

inductive Request where
  | account (request : Auth.Request)
  | tracker (authorization : Authorization) (endpoint : Endpoint)
  | dispatch (worker : String) (batchSize : ℕ)

section Serve

variable (H : TokenHash) (settings : Settings)
  (dispatching : Outbox.DispatchSettings) (className : ℕ → String)

def serve : Request → Tx Unit
  | .account request => do
      let _ ← Auth.serve H settings request
  | .tracker authorization endpoint => do
      let user ← currentUser authorization
      let _ ← Tracker.serve H (endpoint.request user)
  | .dispatch worker batchSize => do
      let _ ← Outbox.dispatchOutbox dispatching className worker batchSize

/-- The world in which every client is about to send its request. -/
abbrev clients (requests : Pid → Request) (s₀ : Db) :
    World schema AppError Unit :=
  World.start s₀ fun p => serve H settings dispatching className (requests p)

end Serve

/-! ## What is accepted, and what is stored -/

section Accepted

variable (EmailStr : String → Prop)

/-- The body of the request passes its model. -/
def AcceptedTracker : Tracker.Request → Prop
  | .organization (.create _ body requestId) =>
      AcceptedOrganizationCreate body ∧ Stamped requestId
  | .organization (.invite _ _ body) => AcceptedInvitationCreate EmailStr body
  | .rename _ _ body => AcceptedOrganizationUpdate body
  | .issue (.createProject _ _ body) => AcceptedProjectCreate body
  | .issue (.updateProject _ _ _ body) => AcceptedProjectUpdate body
  | .issue (.createIssue _ _ body) => AcceptedIssueCreate body
  | .issue (.updateIssue _ _ _ body) => AcceptedIssueUpdate body
  | .label (.create _ _ body) => AcceptedLabelCreate body
  | .label (.update _ _ _ body) => AcceptedLabelCreate body
  | .comment (.create _ _ _ body) => AcceptedCommentCreate body
  | .comment (.update _ _ _ body) => AcceptedCommentCreate body
  | _ => True

def Accepted : Request → Prop
  | .account (.register body client) =>
      AcceptedRegisterRequest EmailStr body ∧ Stamped client.requestId
  | .account (.login _ client) => Stamped client.requestId
  | .tracker _ endpoint => ∀ user, AcceptedTracker EmailStr (endpoint.request user)
  | _ => True

end Accepted

/-- The body sets no column to null that admits none. -/
def NonNull : Tracker.Request → Prop
  | .issue (.updateProject _ _ _ body) => NonNullProject body
  | .issue (.updateIssue _ _ _ body) => NonNullIssue body
  | _ => True

/-- Nothing in the request is more than the columns hold for which the models
have no bound. -/
def Storable : Request → Prop
  | .account (.login _ client) =>
      (∀ agent, client.userAgent = some agent → agent.length ≤ 300) ∧
        ∀ host, client.host = some host → host.length ≤ 64
  | .account _ => True
  | .tracker _ endpoint => ∀ user, NonNull (endpoint.request user)
  | .dispatch worker _ => worker.length ≤ 100

/-! ## Every request -/

section Checked

variable {EmailStr : String → Prop} {H : TokenHash} {settings : Settings}
  {dispatching : Outbox.DispatchSettings} {className : ℕ → String}
  {K : Set schema.Ref}

theorem checked_organization
    (hEmailStr : ∀ email, EmailStr email → email.utf8ByteSize ≤ 254)
    {request : Organizations.Request}
    (haccepted : AcceptedTracker EmailStr (.organization request))
    (huser : userRef (Tracker.Request.organization request).user.id ∈ K) :
    Checked (Organizations.serve H request) K := by
  cases request with
  | create user body requestId =>
      obtain ⟨hbody, hrequest⟩ := haccepted
      exact sends_map (checked_createOrganization hbody hrequest.length huser)
  | changeRole O memberId user body => exact checked_changeRole
  | removeMember O memberId user => exact checked_removeMember
  | invite O user body =>
      have hemail : body.email.utf8ByteSize ≤ 320 :=
        (hEmailStr body.email haccepted).trans (by decide)
      exact sends_map (checked_invite hemail)
  | revokeInvitation O invitationId user => exact checked_revokeInvitation
  | accept user body => exact checked_accept huser

theorem checked_issue {request : Issues.Request}
    (haccepted : AcceptedTracker EmailStr (.issue request))
    (hnull : NonNull (.issue request)) :
    Checked (Issues.serve request) K := by
  cases request with
  | createProject O user body =>
      exact sends_map (checked_createProject haccepted)
  | updateProject O projectId user body =>
      exact sends_map (checked_updateProject haccepted hnull)
  | setArchived O projectId user archived =>
      exact sends_map checked_setArchived
  | createIssue O user body => exact sends_map (checked_createIssue haccepted)
  | updateIssue O issueId user body =>
      exact sends_map (checked_updateIssue haccepted hnull)
  | changeStatus O issueId user body => exact sends_map checked_changeStatus
  | assign O issueId user body => exact sends_map checked_assign
  | archive O issueId user => exact sends_map checked_archive

theorem checked_label {request : Labels.Request}
    (haccepted : AcceptedTracker EmailStr (.label request)) :
    Checked (Labels.serve request) K := by
  cases request with
  | create O user body => exact sends_map (checked_createLabel haccepted)
  | update O labelId user body =>
      exact sends_map (checked_updateLabel haccepted)
  | delete O labelId user => exact sends_map checked_deleteLabel
  | attach O issueId labelId user => exact sends_map checked_attach
  | detach O issueId labelId user => exact sends_map checked_detach

theorem checked_comment {request : Comments.Request} :
    Checked (Comments.serve request) K := by
  cases request with
  | create O issueId user body => exact sends_map checked_createComment
  | update O commentId user body => exact sends_map checked_updateComment
  | delete O commentId user => exact sends_map checked_deleteComment

theorem checked_tracker
    (hEmailStr : ∀ email, EmailStr email → email.utf8ByteSize ≤ 254)
    {request : Tracker.Request} (haccepted : AcceptedTracker EmailStr request)
    (hnull : NonNull request) (huser : userRef request.user.id ∈ K) :
    Checked (Tracker.serve H request) K := by
  cases request with
  | organization request =>
      exact sends_map (checked_organization hEmailStr haccepted huser)
  | rename O user body => exact sends_map (checked_rename haccepted)
  | issue request => exact sends_map (checked_issue haccepted hnull)
  | label request => exact sends_map (checked_label haccepted)
  | comment request => exact sends_map checked_comment

theorem checked_account
    (hEmailStr : ∀ email, EmailStr email → email.utf8ByteSize ≤ 254)
    {request : Auth.Request} (haccepted : Accepted EmailStr (.account request))
    (hstorable : Storable (.account request)) :
    Checked (Auth.serve H settings request) K := by
  cases request with
  | register body client =>
      obtain ⟨⟨hemail, -, hname⟩, hrequest⟩ := haccepted
      have hemail' : body.email.utf8ByteSize ≤ 320 :=
        (hEmailStr body.email hemail).trans (by decide)
      exact sends_map (checked_register hemail' hname.2 hrequest.length)
  | login body client =>
      obtain ⟨hagent, hhost⟩ := hstorable
      exact sends_map (checked_login hagent hhost (Stamped.length haccepted))
  | refresh body => exact sends_map checked_refresh
  | logout authorization => exact sends_map checked_logout
  | sessions authorization => exact sends_map checked_sessions
  | revokeSession sessionId authorization =>
      exact sends_map checked_revokeSession
  | revokeAll authorization => exact sends_map checked_revokeAll
  | verifyEmail body => exact sends_map checked_verifyEmail
  | resendVerification authorization client =>
      exact sends_map checked_resendVerification
  | requestReset body client => exact sends_map checked_requestReset
  | resetPassword body => exact sends_map checked_resetPassword

theorem checked_serve
    (hEmailStr : ∀ email, EmailStr email → email.utf8ByteSize ≤ 254)
    {request : Request} (haccepted : Accepted EmailStr request)
    (hstorable : Storable request) :
    Checked (serve H settings dispatching className request) K := by
  cases request with
  | account request =>
      exact sends_map (checked_account hEmailStr haccepted hstorable)
  | tracker authorization endpoint =>
      apply sends_currentUser_bind
      intro user K' hK huser
      apply sends_map
      apply checked_tracker hEmailStr (haccepted user) (hstorable user)
      rw [endpoint.user_request]
      exact huser
  | dispatch worker batchSize =>
      exact sends_map (checked_dispatchOutbox hstorable)

end Checked

/-! ## Every run -/

/-- In every run all that is written meets the constraints, and a statement
that is turned down meets a unique index. -/
theorem writes_meet_constraints (EmailStr : String → Prop)
    (hEmailStr : ∀ email, EmailStr email → email.utf8ByteSize ≤ 254)
    (H : TokenHash) (settings : Settings)
    (dispatching : Outbox.DispatchSettings) (className : ℕ → String)
    (requests : Pid → Request) (haccepted : ∀ p, Accepted EmailStr (requests p))
    (hstorable : ∀ p, Storable (requests p)) {s₀ : Db}
    (hs₀ : constraints.Valid s₀) {w : World schema AppError Unit}
    (hreach : Reachable
      (clients H settings dispatching className requests s₀) w) :
    constraints.Valid w.store ∧ ∀ p,
      constraints.Valid (w.view p) ∧
      constraints.Meets (w.view p) (w.procs p).prog ∧
      OnlyClashes (w.view p) (w.procs p).prog := by
  have hchecked : ∀ p, Checked
      (serve H settings dispatching className (requests p))
      (constraints.known s₀) :=
    fun p => checked_serve hEmailStr (haccepted p) (hstorable p)
  obtain ⟨hvalid, -⟩ := obeys_of_reachable hs₀ hchecked hreach
  refine ⟨hvalid, fun p => ?_⟩
  obtain ⟨hview, hmeets⟩ := meets_of_reachable hs₀ hchecked hreach p
  exact ⟨hview, hmeets, hmeets.onlyClashes⟩

/-! ## Runs of accepted requests -/

def alice : User where
  id := 1
  email := "alice@example.org"
  passwordHash := 0
  displayName := "Alice"

/-- Alice, who is logged in, and an organization of hers with an issue. -/
def tracked : Db :=
  Store.view (σ := schema)
    [.put .users alice,
      .put .organizations
        { id := 2, name := "Team", slug := "team", createdAt := 0
          updatedAt := 0 },
      .put .memberships { organizationId := 2, userId := 1, role := .owner },
      .put .projects
        { id := 3, organizationId := 2, name := "Board", key := "BD"
          createdAt := 0 },
      .put .issues
        { id := 4, organizationId := 2, projectId := 3, number := 1
          title := "Broken", reporterId := 1, createdAt := 0, updatedAt := 0 },
      .put .authSessions
        { id := 5, userId := 1, familyId := 6, refreshTokenHash := 7
          createdAt := 0, expiresAt := 1000 }]
    (Store.empty schema)

theorem valid_tracked : constraints.Valid tracked := by
  have husers : userRef 1 ∈ constraints.known tracked := ⟨rfl, by decide⟩
  have horganizations : organizationRef 2 ∈ constraints.known tracked :=
    ⟨rfl, by decide⟩
  have hprojects : projectRef 3 ∈ constraints.known tracked :=
    ⟨rfl, by decide⟩
  apply valid_view
  · intro t r hr
    cases hr
  · intro t k hk
    simp at hk
  · intro t r hr
    simp only [List.mem_cons, List.not_mem_nil, or_false] at hr
    rcases hr with h | h | h | h | h | h
    all_goals
      cases h
    · exact ⟨⟨by decide, by decide⟩, List.forall_mem_nil _⟩
    · exact ⟨⟨by decide, by decide, by decide⟩, List.forall_mem_nil _⟩
    · exact admits_membership horganizations husers
    · exact ⟨⟨by decide, by decide, by decide⟩,
        List.forall_mem_singleton.mpr horganizations⟩
    · exact ⟨columns_issue (by decide) le_rfl,
        refs_issue.mpr ⟨horganizations, hprojects, husers, by simp⟩⟩
    · exact ⟨⟨(length_hexdigest _).le, by simp, by simp⟩,
        List.forall_mem_singleton.mpr husers⟩

/-- Alice logs in, and gives the issue another title and no due date. -/
def ordinary : Pid → Request
  | 0 => .account (.login ⟨"alice@example.org", "secret"⟩
      { host := some "192.0.2.1", userAgent := some "browser"
        requestId := "login" })
  | _ => .tracker (.claims 1 6)
      { request := fun user => .issue (.updateIssue 2 4 user
          { expectedVersion := 1, expected_pos := Nat.le_refl 1
            title := some (some "Fixed"), dueDate := some none })
        user_request := fun _ => rfl }

theorem stamped_login : Stamped "login" :=
  ⟨"login", "01234567-89ab-cdef-0123-456789abcdef", by decide, by decide⟩

theorem accepted_ordinary (p : Pid) :
    Accepted (fun email => email = "alice@example.org") (ordinary p) ∧
      Storable (ordinary p) := by
  match p with
  | 0 =>
      refine ⟨stamped_login, fun agent hagent => ?_, fun host hhost => ?_⟩
      · obtain rfl := Option.some.inj hagent
        decide
      · obtain rfl := Option.some.inj hhost
        decide
  | _ + 1 =>
      refine ⟨fun user => ⟨fun s hs => ?_, fun s hs => by simp at hs⟩,
        fun user => ⟨by simp, by simp, by simp⟩⟩
      obtain rfl : "Fixed" = s := by simpa using hs
      exact ⟨by decide, by decide⟩

/-- Both requests are through, and all rows meet the constraints. -/
theorem writes_meet_constraints_alice :
    ∃ w, Reachable (clients plainHash {} {} (fun _ => "") ordinary tracked) w ∧
      w.log.length = 2 ∧ constraints.Valid w.store := by
  have hrun : ((clients plainHash {} {} (fun _ => "") ordinary tracked).run
      (steps 0 [.value 1, .value 60, .go, .value 1, .value 20, .value 21,
          .value 100, .value 22, .value 100, .go, .value 23, .value 100, .go,
          .go] ++
        steps 1 [.go, .go, .go, .value 100, .order [.id 4], .go, .go,
          .go])).any (fun w => w.log.length = 2) = true := by
    decide +kernel
  obtain ⟨w, hreach, hlog⟩ := exists_reachable hrun
  have hEmailStr : ∀ email : String, email = "alice@example.org" →
      email.utf8ByteSize ≤ 254 := by
    rintro email rfl
    decide
  obtain ⟨hvalid, -⟩ := writes_meet_constraints _ hEmailStr plainHash {} {}
    (fun _ => "") ordinary (fun p => (accepted_ordinary p).1)
    (fun p => (accepted_ordinary p).2) valid_tracked hreach
  exact ⟨w, hreach, hlog, hvalid⟩

/-- A header of `n` characters. -/
def agentOfLength (n : ℕ) : String := String.ofList (List.replicate n 'x')

theorem length_agentOfLength (n : ℕ) : (agentOfLength n).length = n := by
  rw [agentOfLength, String.length_ofList, List.length_replicate]

/-- Alice logs in with 301 characters, and sets a title and a name to null. -/
def unbounded : Pid → Request
  | 0 => .account (.login ⟨"alice@example.org", "secret"⟩
      { host := some "192.0.2.1", userAgent := some (agentOfLength 301)
        requestId := "login" })
  | 1 => .tracker (.claims 1 6)
      { request := fun user => .issue (.updateIssue 2 4 user
          { expectedVersion := 1, expected_pos := Nat.le_refl 1
            title := some none })
        user_request := fun _ => rfl }
  | _ => .tracker (.claims 1 6)
      { request := fun user =>
          .issue (.updateProject 2 3 user { name := some none })
        user_request := fun _ => rfl }

/-- The `User-Agent` of a session that is about to be inserted. -/
def storedAgent (w : World schema AppError Unit) (p : Pid) : Option String :=
  match (w.procs p).prog with
  | .insert .authSessions (r : AuthSession) _ => r.userAgent
  | _ => none

theorem not_meets_of_storedAgent {w : World schema AppError Unit} {p : Pid}
    {agent : String} (h : storedAgent w p = some agent)
    (hlong : 300 < agent.length) :
    ¬constraints.Meets (w.view p) (w.procs p).prog := by
  unfold storedAgent at h
  intro hmeets
  split at h
  · next r k hprog =>
      rw [hprog] at hmeets
      have hshort : agent.length ≤ 300 := hmeets.row.2.1 agent h
      omega
  · contradiction

def rejects {ρ : Type} : Effect ρ → Bool
  | .reject => true
  | _ => false

/-- The next row of a statement is one that it may not write. -/
def rejected (w : World schema AppError Unit) (p : Pid) : Bool :=
  match (w.procs p).prog with
  | .visit t q (key :: _) _ _ =>
      ((w.view p t).lookup key).any fun r => q.pred r && rejects (q.effect r)
  | _ => false

theorem not_meets_of_rejected {w : World schema AppError Unit} {p : Pid}
    (h : rejected w p = true) :
    ¬constraints.Meets (w.view p) (w.procs p).prog := by
  unfold rejected at h
  intro hmeets
  split at h
  · next t q key todo acc k hprog =>
      rw [hprog] at hmeets
      obtain ⟨r, hlook, hr⟩ := (Option.any_eq_true _ _).mp h
      obtain ⟨hpred, hreject⟩ := Bool.and_eq_true_iff.mp hr
      have hallows := hmeets r hlook hpred
      cases heffect : q.effect r with
      | reject =>
          rw [heffect] at hallows
          exact hallows
      | _ => simp [heffect, rejects] at hreject
  · contradiction

/-- All three requests are accepted, and turned down for a column. -/
theorem accepted_turnedDown :
    (∀ p, Accepted (fun email => email = "alice@example.org") (unbounded p)) ∧
    constraints.Valid tracked ∧
    (∃ w, Reachable (clients plainHash {} {} (fun _ => "") unbounded tracked)
        w ∧ ¬constraints.Meets (w.view 0) (w.procs 0).prog) ∧
    ∃ w, Reachable (clients plainHash {} {} (fun _ => "") unbounded tracked)
        w ∧ ¬constraints.Meets (w.view 1) (w.procs 1).prog ∧
      ¬constraints.Meets (w.view 2) (w.procs 2).prog := by
  refine ⟨?_, valid_tracked, ?_, ?_⟩
  · rintro (_ | _ | p)
    · exact stamped_login
    · intro user
      exact ⟨fun s hs => by simp at hs, fun s hs => by simp at hs⟩
    · intro user
      exact ⟨fun s hs => by simp at hs, fun s hs => by simp at hs⟩
  · have hrun : ((clients plainHash {} {} (fun _ => "") unbounded tracked).run
        (steps 0 [.value 1, .value 60, .go, .value 1, .value 20, .value 21,
          .value 100, .value 22, .value 100])).map (fun w => storedAgent w 0) =
        some (some (agentOfLength 301)) := by
      with_unfolding_all rfl
    have hlong : 300 < (agentOfLength 301).length := by
      rw [length_agentOfLength]
      decide
    obtain ⟨w, hw, hagent⟩ := Option.map_eq_some_iff.mp hrun
    exact ⟨w, Reachable.start.run hw, not_meets_of_storedAgent hagent hlong⟩
  · have hrun : ((clients plainHash {} {} (fun _ => "") unbounded tracked).run
        (steps 1 [.go, .go, .go, .value 100, .order [.id 4]] ++
          steps 2 [.go, .go, .go, .order [.id 3]])).any (fun w =>
        rejected w 1 = true ∧ rejected w 2 = true) = true := by
      decide +kernel
    obtain ⟨w, hreach, hissue, hproject⟩ := exists_reachable hrun
    exact ⟨w, hreach, not_meets_of_rejected hissue,
      not_meets_of_rejected hproject⟩

end Workstream.Schemas
