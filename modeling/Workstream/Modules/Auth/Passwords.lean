import Workstream.Modules.Auth.Tokens

/-!
# Sessions and passwords

A reset means to leave no session behind that was opened with the old
password.  It does, unless a login has read the old hash before the reset
commits and inserts its session where the `UPDATE` of the reset no longer
looks.
-/

namespace Workstream.Auth

open ReadCommitted Contract World

/-- The password hash that is stored for a user. -/
def hashOf (db : Db) (userId : Uuid) : Option PasswordHash :=
  ((db .users).lookup (.id userId)).map User.passwordHash

/-- The commit of a login has created the session `x` after it had verified
the password against `passwordHash`. -/
structure Creates (request : Request) (c : Commit schema) (x : AuthSession)
    (passwordHash : PasswordHash) : Prop where
  verified : ∃ body client verified, request = .login body client ∧
    verified ≠ 0 ∧
    .answered (.verifyPassword body.password passwordHash) verified ∈
      c.session.seen
  new : (c.before .authSessions).lookup (.id x.id) = none
  stored : (c.after .authSessions).lookup (.id x.id) = some x

/-- Every session that is not revoked was opened with the password that its
user has now. -/
def Current (requests : Pid → Request) (log : List (Commit schema))
    (db : Db) : Prop :=
  ∀ x ∈ (db .authSessions).rows, AuthSession.revokedAt x = none →
    ∃ passwordHash, hashOf db x.userId = some passwordHash ∧
      ∃ c ∈ log, Creates (requests c.pid) c x passwordHash

/-- The user of a login has got another password since he was read. -/
def Outdated (request : Request) (c : Commit schema) : Prop :=
  ∃ body client db user, request = .login body client ∧
    selectedOn c = some db ∧
    (db .users).lookup (.id (User.id user)) = some user ∧
    user.email = lower body.email ∧
    hashOf c.before user.id ≠ some user.passwordHash

/-- A session of the user that is not revoked was not there yet when the
`UPDATE` of a reset has picked its rows. -/
def Missed (H : TokenHash) (request : Request) (c : Commit schema) : Prop :=
  ∃ body db row x, request = .resetPassword body ∧ updatedOn c = some db ∧
    oneTimeToken (OneTimeToken.id row) c.before = some row ∧
    row.tokenHash = H.hash body.token ∧ row.purpose = .passwordReset ∧
    (c.before .authSessions).lookup (.id (AuthSession.id x)) = some x ∧
    x.userId = row.userId ∧ x.revokedAt = none ∧
    ¬ Visible db row.userId (.id x.id)

/-! ## Commits -/

section Commits

variable {H : TokenHash} {requests : Pid → Request} {c : Commit schema}
  {older : List (Commit schema)}

/-- Nothing has happened to the sessions, and nothing to the passwords of
those who have one. -/
theorem Current.same (h : Current requests older c.before)
    (hsessions : ∀ k, (c.after .authSessions).lookup k =
      (c.before .authSessions).lookup k)
    (hhash : ∀ u passwordHash, hashOf c.before u = some passwordHash →
      hashOf c.after u = some passwordHash) :
    Current requests (c :: older) c.after := by
  intro x hx hlive
  rw [mem_sessions_iff, hsessions, ← mem_sessions_iff] at hx
  obtain ⟨passwordHash, hhash', d, hd, hcreates⟩ := h x hx hlive
  exact ⟨passwordHash, hhash _ _ hhash', d, List.mem_cons_of_mem c hd,
    hcreates⟩

theorem hashOf_of_writes {u : Uuid}
    (h : ∀ w ∈ c.session.writes, w.ref ≠ (.users, .id u)) :
    hashOf c.after u = hashOf c.before u := by
  rw [hashOf, lookup_after_of_writes h, hashOf]

theorem Issued.same_hash {user : User} {purpose : Purpose} {topic : String}
    (h : Issued H c user purpose topic c.session.writes) (u : Uuid) :
    hashOf c.after u = hashOf c.before u := by
  apply hashOf_of_writes
  intro w hw href
  rcases h.ref w hw with htable | htable <;> simp [href] at htable

theorem VerifiesEmail.same_hash {row : OneTimeToken} {time : Instant}
    (h : VerifiesEmail c row time) (u : Uuid) :
    hashOf c.after u = hashOf c.before u := by
  by_cases hu : u = row.userId
  · obtain ⟨user, hbefore, hafter⟩ := h.user
    subst hu
    rw [hashOf, hafter, hashOf, hbefore]
    rfl
  · rw [hashOf, h.rest _ _ (by simpa using hu) (by simp), hashOf]

/-- Nothing but a reset of his changes the password of a user. -/
theorem Effects.hashOf_cases {request : Request} (h : Effects H request c)
    {u : Uuid} {passwordHash : PasswordHash}
    (hhash : hashOf c.before u = some passwordHash) :
    hashOf c.after u = some passwordHash ∨ ∃ body row time,
      request = .resetPassword body ∧
      Spends H c body.token .passwordReset row time ∧
      ResetsPassword c body.newPassword row time ∧ row.userId = u := by
  by_cases hpresents : request.presents
  · obtain ⟨row, hacts⟩ := h.actsOn hpresents
    cases hacts with
    | verified body time _ _ heffect =>
        exact Or.inl ((heffect.same_hash u).trans hhash)
    | reset body time hrequest hspends heffect =>
        by_cases hu : row.userId = u
        · exact Or.inr ⟨body, row, time, hrequest, hspends, heffect, hu⟩
        · left
          rw [hashOf, heffect.rest _ _ (by simp) (by simpa using Ne.symm hu)
            (by simp)]
          exact hhash
  · left
    cases h with
    | registered user ws event _ hnew hissued hwrites =>
        rw [hashOf_of_writes, hhash]
        intro w hw href
        rw [hwrites, List.cons_append, List.mem_cons, List.mem_append,
          List.mem_singleton] at hw
        rcases hw with rfl | hw | rfl
        · rw [hashOf, ← (Prod.mk.inj href).2] at hhash
          change Option.map _ ((c.before .users).lookup (.id user.id)) = _
            at hhash
          rw [hnew] at hhash
          cases hhash
        · rcases hissued.ref w hw with htable | htable <;>
            simp [href] at htable
        · simp [Write.ref] at href
    | loggedIn db user verified r event _ _ _ _ _ _ _ _ hwrites =>
        exact (hashOf_of_writes (by simp [hwrites, Write.ref])).trans hhash
    | resent user owner _ _ hissued => exact (hissued.same_hash u).trans hhash
    | requested user owner _ _ hissued => exact (hissued.same_hash u).trans hhash
    | verified => exact absurd rfl hpresents
    | reset => exact absurd rfl hpresents

/-- A reset evicts its user, as long as it misses none of his sessions. -/
theorem ResetsPassword.current {body : PasswordResetConfirm}
    {row : OneTimeToken} {time : Instant}
    (hrequest : requests c.pid = .resetPassword body)
    (hspends : Spends H c body.token .passwordReset row time)
    (h : ResetsPassword c body.newPassword row time)
    (hmissed : ¬ Missed H (requests c.pid) c)
    (hc : Current requests older c.before) :
    Current requests (c :: older) c.after := by
  obtain ⟨db, hupdated, hsessions⟩ := h.sessions
  intro x hx hlive
  rw [mem_sessions_iff] at hx
  obtain ⟨hevicted, hkept⟩ := hsessions (.id x.id)
  by_cases hvisible : Visible db row.userId (.id x.id)
  · obtain ⟨y, _, hafter⟩ := hevicted hvisible
    rw [hx] at hafter
    rw [Option.some.inj hafter] at hlive
    cases hlive
  · rw [hkept hvisible] at hx
    have hother : x.userId ≠ row.userId := by
      intro howns
      exact hmissed ⟨body, db, row, x, hrequest, hupdated,
        hspends.claimed.stored, hspends.claimed.hash, hspends.claimed.purpose,
        hx, howns, hlive, hvisible⟩
    obtain ⟨passwordHash, hhash, d, hd, hcreates⟩ :=
      hc x (mem_sessions_iff.mpr hx) hlive
    refine ⟨passwordHash, ?_, d, List.mem_cons_of_mem c hd, hcreates⟩
    rw [hashOf, h.rest _ _ (by simp) (by simpa using hother) (by simp)]
    exact hhash

/-- A login opens a session with the password that it has verified. -/
theorem current_login {body : LoginRequest} {client : Client} {db : Db}
    {user : User} {verified : ℕ} {r : AuthSession} {event : AuditEvent}
    (hrequest : requests c.pid = .login body client)
    (hselected : selectedOn c = some db)
    (huser : (db .users).lookup (.id user.id) = some user)
    (hemail : user.email = lower body.email)
    (hcall : .answered (.verifyPassword body.password user.passwordHash)
      verified ∈ c.session.seen)
    (hverified : verified ≠ 0)
    (hnew : (c.before .authSessions).lookup (.id r.id) = none)
    (howner : r.userId = user.id)
    (hwrites : c.session.writes =
      [.put .authSessions r, .put .auditEvents event])
    (houtdated : ¬ Outdated (requests c.pid) c)
    (hc : Current requests older c.before) :
    Current requests (c :: older) c.after := by
  have husers : ∀ u, hashOf c.after u = hashOf c.before u := by
    intro u
    exact hashOf_of_writes (by simp [hwrites, Write.ref])
  have hstored : (c.after .authSessions).lookup (.id r.id) = some r :=
    lookup_after_put [] hwrites (by simp [Write.ref])
  intro x hx hlive
  rw [mem_sessions_iff] at hx
  by_cases hid : x.id = r.id
  · rw [hid, hstored] at hx
    obtain rfl := Option.some.inj hx
    refine ⟨user.passwordHash, ?_, c, List.mem_cons_self,
      ⟨body, client, verified, hrequest, hverified, hcall⟩, hnew, hstored⟩
    rw [husers, howner]
    by_contra hhash
    exact houtdated ⟨body, client, db, user, hrequest, hselected, huser,
      hemail, hhash⟩
  · rw [lookup_after_of_writes] at hx
    · obtain ⟨passwordHash, hhash, d, hd, hcreates⟩ :=
        hc x (mem_sessions_iff.mpr hx) hlive
      exact ⟨passwordHash, (husers x.userId).trans hhash, d,
        List.mem_cons_of_mem c hd, hcreates⟩
    · simpa [hwrites, Write.ref, primaryKey] using Ne.symm hid

theorem Effects.current (h : Effects H (requests c.pid) c)
    (houtdated : ¬ Outdated (requests c.pid) c)
    (hmissed : ¬ Missed H (requests c.pid) c)
    (hc : Current requests older c.before) :
    Current requests (c :: older) c.after := by
  by_cases hpresents : (requests c.pid).presents
  · obtain ⟨row, hacts⟩ := h.actsOn hpresents
    cases hacts with
    | verified body time _ _ heffect =>
        exact hc.same (fun k => heffect.rest _ _ (by simp) (by simp))
          fun u passwordHash hhash => (heffect.same_hash u).trans hhash
    | reset body time hrequest hspends heffect =>
        exact heffect.current hrequest hspends hmissed hc
  · have hhash : ∀ u passwordHash, hashOf c.before u = some passwordHash →
        hashOf c.after u = some passwordHash := by
      intro u passwordHash hhash
      apply (h.hashOf_cases hhash).resolve_right
      rintro ⟨body, row, time, hrequest, _⟩
      rw [hrequest] at hpresents
      exact hpresents rfl
    have hissues : ∀ {user purpose topic},
        Issued H c user purpose topic c.session.writes →
          Current requests (c :: older) c.after := by
      intro user purpose topic hissued
      apply hc.same (fun k => lookup_after_of_writes ?_) hhash
      intro w hw href
      rcases hissued.ref w hw with htable | htable <;> simp [href] at htable
    generalize hrequest : requests c.pid = request at h hpresents
    cases h with
    | registered user ws event _ hnew hissued hwrites =>
        apply hc.same (fun k => lookup_after_of_writes ?_) hhash
        intro w hw href
        rw [hwrites, List.cons_append, List.mem_cons, List.mem_append,
          List.mem_singleton] at hw
        rcases hw with rfl | hw | rfl
        · simp [Write.ref] at href
        · rcases hissued.ref w hw with htable | htable <;>
            simp [href] at htable
        · simp [Write.ref] at href
    | loggedIn db user verified r event hselected huser hemail _ hcall
        hverified hnew howner hwrites =>
        exact current_login hrequest hselected huser hemail hcall hverified
          hnew howner hwrites houtdated hc
    | resent user owner _ _ hissued => exact hissues hissued
    | requested user owner _ _ hissued => exact hissues hissued
    | verified => exact absurd rfl hpresents
    | reset => exact absurd rfl hpresents

end Commits

/-! ## Every run -/

/-- As long as no login that commits is outdated, and no reset misses a
session, every session that is not revoked was opened with the password that
its user has now. -/
theorem sessions_current (H : TokenHash) (settings : Settings)
    (requests : Pid → Request) (hrequests : ∀ p, (requests p).account)
    {s₀ : Db} (hs₀ : (s₀ .authSessions).rows = [])
    {w : World schema AppError Response}
    (hreach : Reachable (clients H settings requests s₀) w)
    (hlog : ∀ c ∈ w.log, ¬ Outdated (requests c.pid) c ∧
      ¬ Missed H (requests c.pid) c) :
    Current requests w.log w.store := by
  have hsound := sound_accounts hrequests hreach
  refine (wellFormed_of_reachable hreach).chain.induction
    (G := fun c => Effects H (requests c.pid) c ∧
      ¬ Outdated (requests c.pid) c ∧ ¬ Missed H (requests c.pid) c)
    (fun c hc => ⟨hsound.guar c hc, hlog c hc⟩) (P := Current requests) ?_ ?_
  · intro x hx
    rw [hs₀] at hx
    cases hx
  · rintro c older ⟨heffects, houtdated, hmissed⟩ hc
    exact heffects.current houtdated hmissed hc

/-! ## Runs with a reset -/

/-- Carol asks for a reset and resets her password; the others log in. -/
def resetAndLogin : Pid → Request
  | 0 => .requestReset ⟨"carol@example.org"⟩ browser
  | 1 => .resetPassword ⟨10, "renewed"⟩
  | _ => .login ⟨"carol@example.org", "secret"⟩ browser

theorem account_resetAndLogin : ∀ p, (resetAndLogin p).account := by
  rintro (_ | _ | p) <;> rfl

def requestSteps : List (Pid × Input schema) :=
  steps 0 [.value 1, .value 60, .go, .value 10, .value 100, .value 11, .go,
    .value 12, .value 100, .go, .go]

/-- The reset, whose `UPDATE` of the sessions visits `sessions`. -/
def resetSteps (sessions : List Key) : List (Pid × Input schema) :=
  steps 1 ([.order [.id 11], .go, .go, .value 200, .go, .value 77,
    .order [.id 1], .go, .go, .order [.id 11], .go, .go, .order sessions] ++
      sessions.map (fun _ => .go) ++ [.go, .go])

def verifySteps (p : Pid) : List (Pid × Input schema) :=
  steps p [.value 1, .value 60, .go, .value 1]

def openSteps (p : Pid) (n : ℕ) : List (Pid × Input schema) :=
  steps p [.value n, .value (n + 1), .value 300, .value (n + 2), .value 300,
    .go, .value (n + 3), .value 300, .go, .go]

/-- The login has verified the password before the reset, and opens its
session after it. -/
def overtakenLogin : List (Pid × Input schema) :=
  requestSteps ++ verifySteps 2 ++ resetSteps [] ++ openSteps 2 20

/-- The password has been verified against this hash. -/
def verifiesAgainst (passwordHash : PasswordHash) : Obs schema → Bool
  | .answered (.verifyPassword _ h) _ => h = passwordHash
  | _ => false

/-- Without the condition on the logins, a session of the old password
outlives the reset. -/
theorem overtakenLogin_keeps_session :
    ¬ ∀ w, Reachable (clients plainHash {} resetAndLogin oneUser) w →
      Current resetAndLogin w.log w.store := by
  intro hclaim
  have hrun : ((clients plainHash {} resetAndLogin oneUser).run
      overtakenLogin).any (fun w =>
        (∃ x ∈ (w.store .authSessions).rows, AuthSession.revokedAt x = none ∧
          hashOf w.store x.userId = some 77) ∧
        ∀ c ∈ w.log, ∀ o ∈ c.session.seen, verifiesAgainst 77 o = false) =
          true := by
    decide +kernel
  obtain ⟨w, hreach, ⟨x, hx, hlive, hrenewed⟩, hseen⟩ := exists_reachable hrun
  obtain ⟨passwordHash, hhash, c, hc, hcreates⟩ := hclaim w hreach x hx hlive
  rw [hrenewed] at hhash
  obtain rfl := Option.some.inj hhash
  obtain ⟨body, client, verified, _, _, hcall⟩ := hcreates.verified
  have hnot := hseen c hc _ hcall
  simp [verifiesAgainst] at hnot

/-- One login comes before the reset and one after it. -/
def evictedLogin : List (Pid × Input schema) :=
  requestSteps ++ verifySteps 2 ++ openSteps 2 20 ++ resetSteps [.id 22] ++
    verifySteps 3 ++ openSteps 3 30

theorem sessions_current_evictedLogin :
    ∃ w, Reachable (clients plainHash {} resetAndLogin oneUser) w ∧
      (∃ x ∈ (w.store .authSessions).rows,
        AuthSession.revokedAt x = none) ∧
      Current resetAndLogin w.log w.store := by
  have hrun : ((clients plainHash {} resetAndLogin oneUser).run
      evictedLogin).any (fun w =>
        (∃ x ∈ (w.store .authSessions).rows,
          AuthSession.revokedAt x = none) ∧
        ∀ c ∈ w.log, ((selectedOn c).all fun db =>
            ∀ u ∈ (db .users).rows,
              hashOf c.before (User.id u) = some u.passwordHash) ∧
          (updatedOn c).all fun db =>
            ∀ x ∈ (c.before .authSessions).rows,
              (db .authSessions).lookup (.id (AuthSession.id x)) = some x) =
                true := by
    decide +kernel
  obtain ⟨w, hreach, hlive, hlog⟩ := exists_reachable hrun
  refine ⟨w, hreach, hlive, sessions_current plainHash {} resetAndLogin
    account_resetAndLogin rfl hreach fun c hc => ?_⟩
  obtain ⟨hselected, hupdated⟩ := hlog c hc
  constructor
  · rintro ⟨body, client, db, user, _, hdb, huser, _, hhash⟩
    rw [hdb, Option.all_some, decide_eq_true_eq] at hselected
    exact hhash (hselected user (Relation.mem_of_lookup huser))
  · rintro ⟨body, db, row, x, _, hdb, _, _, _, hx, howns, _, hvisible⟩
    rw [hdb, Option.all_some, decide_eq_true_eq] at hupdated
    exact hvisible ⟨x, hupdated x (Relation.mem_of_lookup hx), howns⟩

end Workstream.Auth
