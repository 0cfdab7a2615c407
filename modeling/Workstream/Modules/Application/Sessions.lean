import Workstream.Modules.Application.Permission
import Workstream.Modules.Auth.SessionRuns
import Workstream.ReadCommitted.Frames

/-!
# Sessions of the application

Only the account requests write to the table of the sessions; all others
leave it alone and keep its contract for that reason.  A family that has ended
stays so, and no access token of it gets anybody in, at any endpoint.
-/

namespace Workstream.Application

open ReadCommitted Contract Discipline

/-- The requests as the contract of the sessions sees them. -/
def accounts (requests : Pid → Request) (p : Pid) : Auth.Request :=
  match requests p with
  | .account request => request
  | _ => .sessions .missing

section Contract

variable {E : Environment} {requests : Pid → Request} {p : Pid}

/-- What the account requests promise each other about sessions. -/
abbrev sessionContract (E : Environment) (requests : Pid → Request) :
    Contract schema :=
  Auth.sessionContract E.tokens (accounts requests)

/-- A commit without sessions keeps the contract. -/
theorem frames_sessions (hp : ∀ request, requests p ≠ .account request) :
    (sessionContract E requests).Frames p (· = .authSessions) := by
  intro l s c hinv hc _ hspared
  have hquiet : Auth.Quiet l.session.writes := hspared
  have hguar : Auth.SessionGuarantee E.tokens (accounts requests c.pid) c := by
    refine Auth.guarantee_of_quiet hinv hc hquiet ?_
    intro db x
    unfold accounts
    split
    · next request hrequest => exact absurd hrequest (hp request)
    · exact id
  exact ⟨hguar, Auth.sessionsOk_after hinv hc hguar⟩

theorem spares_sessions {request : Request}
    (hrequest : ∀ r, request ≠ .account r) :
    (duty E request).Spares (· = .authSessions) := by
  have hadds : Table.authSessions ∉ request.adds := by
    cases request with
    | account r => exact absurd rfl (hrequest r)
    | tracker client authorization endpoint =>
        cases endpoint <;> simp [Request.adds, trackerAdds]
    | _ => simp [Request.adds]
  have halters : Table.authSessions ∉ request.alters := by
    cases request with
    | account r => exact absurd rfl (hrequest r)
    | tracker client authorization endpoint =>
        cases endpoint <;> simp [Request.alters, trackerAlters]
    | notifications authorization endpoint =>
        cases endpoint <;> simp [Request.alters]
    | _ => simp [Request.alters]
  have herases : Table.authSessions ∉ request.erases := by
    intro h
    have := mem_erasable h
    simp [erasable] at this
  constructor
  · rintro t r hr rfl
    exact hadds hr.1
  · rintro t r r' hr rfl
    exact halters hr.1
  · rintro t r hr rfl
    exact herases hr

end Contract

section Dispatch

open Outbox Prog

variable {settings : DispatchSettings} {className : ℕ → String}
  {worker : String}

@[simp] theorem bracketed_now {P : Bool → Instant → Prop} {b : Bool} :
    now.Bracketed P b ↔ ∀ n, P b n := Iff.rfl

theorem bracketed_leaseAll {time : Instant} {b : Bool} {P : Bool → Unit → Prop}
    (h : P b ()) (events : List OutboxEvent) :
    (leaseAll worker time events).Bracketed P b := by
  induction events with
  | nil => exact h
  | cons e rest ih =>
      rw [leaseAll, bracketed_bind]
      exact bracketed_updateKey _ _ ih

theorem bracketed_entry {payload : Payload} {key : String} {b : Bool}
    {P : Bool → PayloadValue → Prop} (h : ∀ value, P b value) :
    (entry payload key).Bracketed P b := by
  unfold entry
  split
  · exact h _
  · trivial

theorem bracketed_deliver {event : ClaimedEvent} {b : Bool}
    {P : Bool → Unit → Prop} (h : P b ()) :
    (deliver event).Bracketed P b := by
  rw [deliver, bracketed_bind]
  refine bracketed_entry fun token => ?_
  split
  · trivial
  · rw [bracketed_bind]
    refine bracketed_entry fun recipient => ?_
    rw [bracketed_bind, bracketed_callOut]
    intro n
    split
    · trivial
    · exact h

theorem bracketed_markFailed {event : ClaimedEvent} {error : String}
    {maxAttempts : ℕ} {b : Bool} {P : Bool → Unit → Prop} (h : P b ()) :
    (markFailed event worker error maxAttempts).Bracketed P b := by
  simp only [markFailed, Prog.locking, bracketed_bind, bracketed_now,
    bracketed_scan, bracketed_ret]
  intro time rows _
  split
  · exact h
  · split
    · rw [bracketed_bind, bracketed_pure, bracketed_bind]
      exact bracketed_updateKey _ _ h
    · rw [bracketed_bind, bracketed_callOut]
      intro extra
      rw [bracketed_bind]
      exact bracketed_updateKey _ _ h

theorem bracketed_dispatchEvents (events : List ClaimedEvent) :
    (dispatchEvents settings className worker events).Bracketed
      (fun b _ => b = false) false := by
  induction events with
  | nil => rfl
  | cons event rest ih =>
      rw [dispatchEvents, bracketed_bind]
      apply bracketed_attempt
      · simp only [bracketed_bind, bracketed_callOut]
        exact fun _ => bracketed_markFailed ih
      · simp only [bracketed_bind]
        exact bracketed_deliver fun _ _ _ => ih

theorem bracketed_dispatchOutbox (batchSize : ℕ) :
    (dispatchOutbox settings className worker batchSize).Bracketed
      (fun b _ => b = false) false := by
  simp only [dispatchOutbox, claimEvents, Prog.locking, bracketed_bind,
    bracketed_now, bracketed_scan, bracketed_ret, bracketed_commitNow,
    bracketed_pure]
  exact fun _ _ _ => bracketed_leaseAll (bracketed_dispatchEvents _) _

/-- Every request has put its handlers aside when it answers. -/
theorem bracketed_serve (E : Environment) (request : Request) :
    (serve E request).Bracketed (fun b _ => b = false) false := by
  cases hrequest : request with
  | dispatch worker batchSize =>
      exact (bracketed_map _ _).mpr (bracketed_dispatchOutbox batchSize)
  | _ =>
      rw [← hrequest]
      refine (follows_serve E request).bracketed ?_
      rw [hrequest]
      rintro ⟨_, _, h⟩
      cases h

end Dispatch

/-! ## Every run -/

section Runs

variable {E : Environment} {requests : Pid → Request} {s₀ : Db}
  {w w' : World schema AppError Response} {p : Pid} {F : Uuid}

/-- Every request keeps the contract of the sessions. -/
theorem keeps_sessions {s : Shared schema} (hinv : Auth.SessionsOk s) :
    (sessionContract E requests).wp p (fun _ _ _ => True) (fun _ _ _ => True)
      (serve E (requests p)) none {} s := by
  by_cases hp : ∃ request, requests p = .account request
  · obtain ⟨request, hrequest⟩ := hp
    have hprog : serve E (requests p) =
        .account <$> Auth.serve E.tokens E.settings (accounts requests p) := by
      rw [accounts, hrequest]
      rfl
    rw [hprog]
    have hwp := @Auth.wp_serve E.tokens E.settings (accounts requests) p s hinv
    refine wp_map (wp_mono hwp .none (fun _ _ _ _ _ => trivial)
      (fun _ _ _ _ _ => trivial) hinv) (fun _ _ _ _ _ _ _ _ => trivial) hinv
  · push Not at hp
    exact wp_of_spared (spares_sessions hp) (frames_sessions hp)
      (follows_serve E (requests p)) (bracketed_serve E (requests p)) rfl
      (fun _ hx => nomatch hx)

theorem sound_sessions (h₀ : Auth.NoSessions s₀)
    (hreach : Reachable (clients E requests s₀) w) :
    Sound (sessionContract E requests) (fun _ _ _ _ => True)
      (fun _ _ _ _ => True) w :=
  sound h₀.ok (fun _ => keeps_sessions h₀.ok) hreach
    (World.unique_of_reachable h₀.unique hreach)

/-- A family that has ended stays so. -/
theorem ended_of_reachable (h₀ : Auth.NoSessions s₀)
    (hreach : Reachable (clients E requests s₀) w)
    (hended : Auth.Ended F w.store) (hlater : Reachable w w') :
    Auth.Ended F w'.store := by
  refine persists_of_reachable hlater hended ?_
  intro v hv c hmem hbefore
  have hguar : Auth.SessionGuarantee E.tokens (accounts requests c.pid) c :=
    (sound_sessions h₀ (hreach.trans hv)).guar c hmem
  exact hbefore.change hguar

end Runs

/-! ## Tokens -/

section Tokens

variable {E : Environment} {request : Request} {authorization : Authorization}

/-- The token that a request has to show. -/
def Request.token : Request → Option Authorization
  | .account request => accountToken request
  | .tracker _ authorization _ => some authorization
  | .notifications authorization _ => some authorization
  | _ => none

/-- The program starts with the session of the token. -/
def Shows {α : Type} (authorization : Authorization) (prog : Tx α) : Prop :=
  ∃ f, prog = currentPrincipal authorization >>= f

theorem Shows.bind {α β : Type} {prog : Tx α} (h : Shows authorization prog)
    (f : α → Tx β) : Shows authorization (prog >>= f) := by
  obtain ⟨g, rfl⟩ := h
  exact ⟨fun a => g a >>= f, bind_assoc _ _ _⟩

theorem Shows.map {α β : Type} {prog : Tx α} (h : Shows authorization prog)
    (f : α → β) : Shows authorization (f <$> prog) := by
  rw [map_eq_pure_bind]
  exact h.bind _

theorem shows_currentUser : Shows authorization (currentUser authorization) :=
  ⟨_, rfl⟩

theorem shows_serve (h : request.token = some authorization) :
    Shows authorization (serve E request) := by
  cases request with
  | account request =>
      apply Shows.map
      cases request with
      | logout =>
          cases h
          exact Shows.map ⟨_, rfl⟩ _
      | sessions | revokeSession | revokeAll | resendVerification =>
          cases h
          exact (shows_currentUser.bind _).map _
      | _ => cases h
  | tracker | notifications =>
      cases h
      exact (shows_currentUser.bind _).map _
  | dispatch | seed => cases h

/-- Without a row for the token, nobody gets in. -/
theorem Shows.refuses {α : Type} {userId F : Uuid} {prog : Tx α}
    (h : Shows (.claims userId F) prog) :
    ∃ k, prog = .query k ∧
      ∀ db, principalRows userId F db = [] → k db = .raise sessionRevoked := by
  obtain ⟨f, rfl⟩ := h
  refine ⟨_, rfl, fun db hrows => ?_⟩
  simp only [Prog.bind, hrows]
  rfl

end Tokens

/-- A family that has ended stays so, whatever all requests do, and a request
that shows an access token of the family and has not read anything yet gets
nothing but the error: it never locks, writes or commits, and it does not stop
before the error unless a failure befalls it. -/
theorem ended_session_refused {E : Environment} {requests : Pid → Request}
    {s₀ : Db} {w w' : World schema AppError Response} {F : Uuid}
    (h₀ : Auth.NoSessions s₀)
    (hreach : Reachable (clients E requests s₀) w)
    (hended : Auth.Ended F w.store) (hlater : Reachable w w') :
    Auth.Ended F w'.store ∧ ∀ p userId,
      (requests p).token = some (.claims userId F) → Idle w p →
      (w.procs p).prog = serve E (requests p) →
        Idle w' p ∧ ((w'.procs p).prog = serve E (requests p) ∨
          (w'.procs p).prog = .raise sessionRevoked ∨
          (w'.procs p).prog = .halt) ∧
        (Steady w p w' → (w'.procs p).prog ≠ .halt) := by
  refine ⟨ended_of_reachable h₀ hreach hended hlater, ?_⟩
  intro p userId htoken hidle hprog
  obtain ⟨k, hserve, hk⟩ := (shows_serve (E := E) htoken).refuses
  rw [hserve] at hprog ⊢
  have hrefuses : ∀ v, Reachable w v → k v.store = .raise sessionRevoked := by
    intro v hv
    have hdead := (ended_of_reachable h₀ hreach hended hv).2
    exact hk v.store (hdead.principalRows_eq userId)
  obtain ⟨hidle', hcases⟩ :=
    refused_of_reachable hidle hprog hrefuses hlater
  refine ⟨hidle', hcases, fun hsteady hhalt => ?_⟩
  rcases (refused_of_steady hidle hprog hrefuses hsteady).2 with hquery | hraise
  · cases hhalt.symm.trans hquery
  · cases hhalt.symm.trans hraise

/-- Carol logs in and out, and uses her access token once more. -/
def carolRequests : Pid → Request
  | 0 => .account (.login ⟨"carol@example.org", "secret"⟩ Auth.browser)
  | 1 => .account (.logout (.claims 1 11))
  | 2 => .tracker Auth.browser (.claims 1 11) .listOrgs
  | _ => .seed

def carolClients : World schema AppError Response :=
  clients testing carolRequests Auth.oneUser

def carolSteps : List (Pid × Input schema) :=
  Auth.loginSteps ++
    steps 1 [.go, .value 201, .order [.id 12], .go, .go, .go]

theorem ended_session_refused_carol :
    ∃ w w', Reachable carolClients w ∧ Steady w 2 w' ∧
      (w'.procs 2).error = some sessionRevoked ∧
      Auth.Ended 11 w'.store ∧ Idle w' 2 ∧ (w'.procs 2).prog ≠ .halt := by
  have hrun : (carolClients.run carolSteps).any (fun w =>
      (∃ x ∈ (w.store .authSessions).rows, AuthSession.familyId x = 11) ∧
      (∀ x ∈ (w.store .authSessions).rows, AuthSession.revokedAt x ≠ none) ∧
      ((w.run (steps 2 [.go])).any fun w' =>
        (w'.procs 2).error = some sessionRevoked) = true) = true := by
    decide +kernel
  obtain ⟨w, hw, htest⟩ := (Option.any_eq_true _ _).mp hrun
  rw [decide_eq_true_eq] at htest
  obtain ⟨hfamily, hrevoked, hlast⟩ := htest
  obtain ⟨w', hw', herror⟩ := (Option.any_eq_true _ _).mp hlast
  rw [decide_eq_true_eq] at herror
  have hreach : Reachable carolClients w := Reachable.start.run hw
  have hended : Auth.Ended 11 w.store :=
    ⟨hfamily, fun x hx _ hlive => hrevoked x hx hlive.1⟩
  obtain ⟨hidle, hproc⟩ := (idle_start _ _ 2).run (by decide) hw
  have hprog : (w.procs 2).prog = serve testing (carolRequests 2) := by
    rw [hproc]
    rfl
  have hstep : w.advance 2 .go = some w' := by
    simpa [steps, World.run] using hw'
  have hsteady : Steady w 2 w' := by
    refine .step 2 .go .start (fun _ => ⟨rfl, ?_⟩) hstep
    rw [hproc]
    rfl
  obtain ⟨hended', hrefused⟩ :=
    ended_session_refused Auth.noSessions_oneUser hreach hended
      hsteady.reachable
  obtain ⟨hidle', _, hspeaks⟩ := hrefused 2 1 rfl hidle hprog
  exact ⟨w, w', hreach, hsteady, herror, hended', hidle', hspeaks hsteady⟩

end Workstream.Application
