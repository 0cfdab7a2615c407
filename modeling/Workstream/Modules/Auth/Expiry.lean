import Workstream.Modules.Auth.SessionRuns
import Workstream.ReadCommitted.Gates
import Workstream.ReadCommitted.Requests

/-!
# The end of a login

A refresh hands on the expiry of its login, and looks at it before it commits;
an access token lives for a few minutes from the request that has issued it.
So a login ends at a time that no refresh postpones.
-/

namespace Workstream.Auth

open ReadCommitted Contract

/-! ## Clock readings at a commit -/

/-- What a login and a refresh have read from the clock when they commit a
session. -/
def Timely (settings : Settings) (request : Request) (c : Commit schema) :
    Prop :=
  match request with
  | .login _ _ => ∀ r : AuthSession,
      .put .authSessions r ∈ c.session.writes →
      ∃ time, .answered .now time ∈ c.session.seen ∧
        r.expiresAt = time + days settings.refreshTokenDays
  | .refresh _ =>
      (∀ r : AuthSession, .put .authSessions r ∈ c.session.writes →
        r.revokedAt ≠ none) ∨
      ∃ time, .answered .now time ∈ c.session.seen ∧
        ∀ r : AuthSession, .put .authSessions r ∈ c.session.writes →
          time < r.expiresAt
  | _ => True

/-- Commits that change the sessions as they should, and in time. -/
def timely (H : TokenHash) (settings : Settings)
    (requests : Pid → Request) : Contract schema where
  inv := SessionsOk
  assume := fun c => (c.before.Unique ∧ c.after.Unique) ∧
    SessionGuarantee H (requests c.pid) c
  guar := fun c => SessionGuarantee H (requests c.pid) c ∧
    Timely settings (requests c.pid) c
  inv_draw := (sessionContract H requests).inv_draw

/-- A login sets the expiry, and a refresh looks at it. -/
def InTime (settings : Settings) (request : Request)
    (time expiresAt : Instant) : Prop :=
  match request with
  | .login _ _ => expiresAt = time + days settings.refreshTokenDays
  | _ => time < expiresAt

/-- The tokens that a request has issued: their family is stored, and their
times are those that the request has read. -/
def Issues (settings : Settings) (request : Request) (tokens : TokenPair)
    (l : Local schema) (s : Shared schema) : Prop :=
  ∃ x ∈ (s.store .authSessions).rows,
    AuthSession.familyId x = tokens.accessToken.sid ∧
    (∃ time, .answered .now time ∈ l.session.seen ∧
      InTime settings request time x.expiresAt) ∧
    ∃ time, .answered .now time ∈ l.session.seen ∧
      tokens.accessToken.exp = time + minutes settings.accessTokenMinutes

section Requests

variable {H : TokenHash} {settings : Settings} {requests : Pid → Request}
  {p : Pid} {l : Local schema} {s s' : Shared schema}

theorem timely_persists (h : (timely H settings requests).Rely p l s s')
    {x : AuthSession} (hx : x ∈ (s.store .authSessions).rows) :
    ∃ y ∈ (s'.store .authSessions).rows, Persists x y := by
  have hrely : (sessionContract H requests).Rely p l s s' :=
    rely_mono (D := timely H settings requests) (fun _ hinv => hinv)
      (fun _ hguar => hguar.1) h
  obtain ⟨y, hy, hxy⟩ := persists_rely hrely hx
  exact ⟨y, Relation.mem_of_lookup hy, hxy⟩

theorem Issues.rely {request : Request} {tokens : TokenPair}
    (h : Issues settings request tokens l s)
    (hrely : (timely H settings requests).Rely p l s s') :
    Issues settings request tokens l s' := by
  obtain ⟨x, hx, hfamily, ⟨time, htime, hexpires⟩, hexp⟩ := h
  obtain ⟨y, hy, hxy⟩ := timely_persists hrely hx
  refine ⟨y, hy, hxy.family.trans hfamily, ⟨time, htime, ?_⟩, hexp⟩
  rw [hxy.expires]
  exact hexpires

/-- The commit of a session in time. -/
theorem timely_commit_bind {α : Type}
    {Q : α → Local schema → Shared schema → Prop} {f : Unit → Tx α}
    (htimely : ∀ c : Commit schema, c.session = l.session →
      Timely settings (requests p) c)
    (h : ∀ s' c, Makes p l s' c →
      (timely H settings requests).wp p Q (fun _ _ _ => True) (f ()) none
        l.committed ⟨c.after, s'.used⟩) :
    (timely H settings requests).wp p Q (fun _ _ _ => True)
      (Prog.commitNow >>= f) none l s := by
  refine wp_commitNow_bind fun s' c _ hinv hc hassume => ?_
  have hguar := hassume.2
  refine ⟨⟨hguar, ?_⟩, sessionsOk_after hinv hc hguar, h s' c hc⟩
  rw [hc.pid]
  exact htimely c hc.session

/-- The access token is issued for a family that is stored. -/
theorem timely_pair {request : Request} {user : User} {session : AuthSession}
    {raw : Token} (hmem : session ∈ (s.store .authSessions).rows)
    (htime : ∃ time, .answered .now time ∈ l.session.seen ∧
      InTime settings request time session.expiresAt) :
    (timely H settings requests).wp p (Issues settings request)
      (fun _ _ _ => True) (pair user session raw settings) none l s := by
  simp only [pair, accessToken, bind_assoc, pure_bind]
  refine wp_now_bind fun time s₁ h₁ _ => ?_
  refine wp_freshId_bind fun jti s₂ h₂ _ _ => ?_
  refine wp_ret fun s₃ h₃ _ => ?_
  obtain ⟨before, hbefore, hexpires⟩ := htime
  obtain ⟨x, hx, hp⟩ := timely_persists h₁ hmem
  obtain ⟨y, hy, hxy⟩ := timely_persists h₂ hx
  have hissues : Issues settings request
      { accessToken := { sub := user.id, sid := session.familyId, iat := time
                         exp := time + minutes settings.accessTokenMinutes
                         jti }
        refreshToken := raw, expiresIn := settings.accessTokenMinutes * 60 }
      ((l.observe (.answered Call.now time)).draw jti)
      { s₂ with used := jti :: s₂.used } := by
    refine ⟨y, hy, hxy.family.trans hp.family, ⟨before, ?_, ?_⟩, time, ?_,
      rfl⟩
    · exact List.mem_cons_of_mem _ hbefore
    · rw [hxy.expires, hp.expires]
      exact hexpires
    · exact List.mem_cons_self
  exact hissues.rely h₃

/-- A row that is the last to be written is there after the commit. -/
theorem mem_after_of_writes {r : AuthSession} {c : Commit schema}
    (ws vs : List (Write schema))
    (hwrites : c.session.writes = ws ++ .put .authSessions r :: vs)
    (hvs : ∀ x ∈ vs, x.ref.1 ≠ .authSessions) :
    r ∈ (c.after .authSessions).rows := by
  rw [Commit.after, Session.view, hwrites]
  exact Relation.mem_of_lookup
    (Store.lookup_view_put ws fun x hx href => hvs x hx (by rw [href]))

theorem timely_login {body : LoginRequest} {client : Client}
    (hrequest : requests p = .login body client) :
    (timely H settings requests).wp p (Issues settings (.login body client))
      (fun _ _ _ => True) (login H settings body client) none {} s := by
  simp only [login, userByEmail, bind_assoc]
  refine wp_enforceRateLimit_bind (fun l₁ s₁ _ _ hg₁ => ?_)
    fun _ _ _ _ => trivial
  refine wp_select_bind fun s₂ _ _ => ?_
  refine wp_scalarOneOrNone_bind fun o _ => ?_
  refine wp_require_bind (fun user _ => ?_) fun _ _ => trivial
  refine wp_ensure_bind (fun _ => ?_) fun _ _ => trivial
  refine wp_callOut_bind fun verified s₃ _ _ => ?_
  refine wp_ensure_bind (fun _ => ?_) fun _ _ => trivial
  refine wp_freshId_bind fun raw s₄ _ _ _ => ?_
  refine wp_freshId_bind fun familyId s₅ _ _ _ => ?_
  refine wp_now_bind fun time s₆ _ _ => ?_
  refine wp_freshId_bind fun id s₇ _ _ _ => ?_
  refine wp_now_bind fun createdAt s₈ _ _ => ?_
  refine wp_insertOrHalt_bind fun l₉ s₉ _ _ _ hg₉ _ => ?_
  refine wp_audit_bind fun l₁₀ s₁₀ event _ _ _ _ _ _ _ _ _ hg₁₀ _ => ?_
  have hg := hg₉.trans hg₁₀
  have hwrites := hg.writes
  change _ = l₁.session.writes ++ _ at hwrites
  rw [hg₁.writes] at hwrites
  have htime : Obs.answered (σ := schema) Call.now time ∈ l₁₀.session.seen :=
    hg.seen.subset (List.mem_cons_of_mem _ List.mem_cons_self)
  refine timely_commit_bind (fun c hc => ?_) fun s' c hc => ?_
  · rw [hrequest]
    intro r hr
    rw [hc, hwrites] at hr
    rcases List.mem_append.mp hr with hput | hput
    · cases hput
    · rcases List.mem_append.mp hput with hput | hput
      · cases List.mem_singleton.mp hput
        exact ⟨time, hc ▸ htime, rfl⟩
      · cases List.mem_singleton.mp hput
  · refine timely_pair ?_ ⟨time, List.mem_cons_of_mem _ htime, rfl⟩
    refine mem_after_of_writes [] [.put .auditEvents event] ?_ ?_
    · rw [hc.session]
      exact hwrites
    · intro x hx
      obtain rfl := List.mem_singleton.mp hx
      simp [Write.ref]

/-- The rows that a refresh revokes do not count. -/
theorem timely_revoke_bind {body : RefreshRequest}
    (hrequest : requests p = .refresh body) (hempty : l.session.writes = [])
    {α : Type} {pred : AuthSession → Bool} {time : Instant} {e : AppError}
    {Q : α → Local schema → Shared schema → Prop} :
    (timely H settings requests).wp p Q (fun _ _ _ => True)
      (revokeWhere pred time >>= fun _ => Prog.commitNow >>= fun _ => .raise e)
      none l s := by
  simp only [revokeWhere, bind_assoc, pure_bind]
  refine wp_updateRows_bind ⟨rfl, rfl⟩ (fun _ => rfl) (fun _ _ => True)
    (fun _ _ _ _ _ _ => trivial) (fun _ _ _ _ _ _ _ _ _ => trivial) ?_
  intro rows l₁ s₁ s₂ ws _ _ _ _ hup _ _ _
  refine timely_commit_bind (fun c hc => ?_) fun s' c hc => ?_
  · rw [hrequest]
    refine Or.inl fun r hr => ?_
    rw [hc, hup.grows.writes, hempty] at hr
    obtain ⟨x, hx, _⟩ := hup.writes _ hr
    cases hx
    simp
  · exact wp_raise fun _ _ _ => trivial

theorem timely_exchange {body : RefreshRequest} {h : AuthSession}
    {user : User} {time : Instant} (hrequest : requests p = .refresh body)
    (hempty : l.session.writes = [])
    (hlock : l.locks (.authSessions, .id h.id))
    (hlook : (l.view s .authSessions).lookup (.id h.id) = some h)
    (hseen : .answered .now time ∈ l.session.seen)
    (htime : time < h.expiresAt) :
    (timely H settings requests).wp p (Issues settings (.refresh body))
      (fun _ _ _ => True) (exchange H settings h user time) none l s := by
  simp only [exchange]
  refine wp_freshId_bind fun raw s₁ h₁ _ _ => ?_
  have hheld : ((l.draw raw).view { s₁ with used := raw :: s₁.used }
      .authSessions).lookup (.id h.id) = some h :=
    (h₁.lookup_view_eq hlock).trans hlook
  refine wp_updateHeld_bind (l := l.draw raw) (r := h) hheld hlock ?_
  intro l₂ s₂ _ _ _ hg₂ _
  refine wp_freshId_bind fun id s₃ _ _ _ => ?_
  refine wp_now_bind fun createdAt s₄ _ _ => ?_
  refine wp_insertOrHalt_bind fun l₅ s₅ _ _ _ hg₅ _ => ?_
  have hwrites := hg₅.writes
  change _ = l₂.session.writes ++ _ at hwrites
  rw [hg₂.writes] at hwrites
  change _ = l.session.writes ++ _ ++ _ at hwrites
  rw [hempty, List.nil_append] at hwrites
  have hseen₅ := hg₅.seen.subset
    (List.mem_cons_of_mem (Obs.answered (σ := schema) Call.now createdAt)
      (hg₂.seen.subset hseen))
  refine timely_commit_bind (fun c hc => ?_) fun s' c hc => ?_
  · rw [hrequest]
    refine Or.inr ⟨time, hc ▸ hseen₅, fun r hr => ?_⟩
    rw [hc, hwrites] at hr
    rcases List.mem_append.mp hr with hput | hput
    · cases List.mem_singleton.mp hput
      exact htime
    · cases List.mem_singleton.mp hput
      exact htime
  · refine timely_pair ?_ ⟨time, List.mem_cons_of_mem _ hseen₅, htime⟩
    refine mem_after_of_writes
      [.put .authSessions { h with rotatedAt := some time }] [] ?_ ?_
    · rw [hc.session]
      exact hwrites
    · exact fun x hx => absurd hx List.not_mem_nil

theorem timely_refresh {body : RefreshRequest}
    (hrequest : requests p = .refresh body) :
    (timely H settings requests).wp p (Issues settings (.refresh body))
      (fun _ _ _ => True) (refresh H settings body) none {} s := by
  simp only [refresh]
  refine wp_lockRows_bind ⟨rfl, rfl⟩ (fun _ => rfl) ?_
  intro rows l₁ s₁ _ _ hg₁ hrows
  refine wp_scalarOneOrNone_bind fun o ho => ?_
  refine wp_now_bind fun time s₂ h₂ _ => ?_
  refine wp_require_bind (fun h hh => ?_) fun _ _ => trivial
  obtain ⟨hlook, _, hlock⟩ := hrows.rely h₂ h (by simp [ho, hh])
  split
  · refine timely_revoke_bind hrequest ?_
    exact hg₁.writes
  refine wp_ensure_bind (fun hok => ?_) fun _ _ => trivial
  have htime : time < h.expiresAt := by
    simp only [Bool.and_eq_true, decide_eq_true_eq] at hok
    exact hok.2
  refine wp_get_bind fun s₃ h₃ _ => ?_
  split
  · refine timely_revoke_bind hrequest ?_
    exact hg₁.writes
  · refine timely_exchange hrequest ?_ ?_ ?_ ?_ htime
    · exact hg₁.writes
    · exact hlock
    · exact (h₃.lookup_view_eq hlock).trans hlook
    · exact List.mem_cons_of_mem _ List.mem_cons_self

/-- The other requests neither commit a session in time nor issue tokens. -/
theorem timely_map {α : Type} {x : Tx α} {g : α → Response}
    (h : Keeping H requests p x {} s) (hinv : SessionsOk s)
    (hrequest : ∀ c, Timely settings (requests p) c)
    {Q : Response → Local schema → Shared schema → Prop}
    (hg : ∀ a l s, Q (g a) l s) :
    (timely H settings requests).wp p Q (fun _ _ _ => True) (g <$> x)
      none {} s := by
  have hrefines : (sessionContract H requests).Refines
      (timely H settings requests) p := by
    refine ⟨fun _ => Iff.rfl, fun _ h => h.1, fun _ h => h.1, ?_⟩
    intro c hpid _ hguar
    exact ⟨hguar, hpid ▸ hrequest c⟩
  refine wp_map (wp_refine hrefines h .none (fun _ _ _ _ h => h)
    (fun _ _ _ _ h => h) hinv) (fun a l _ s _ _ _ _ => hg a l s) hinv

/-- The tokens in a response have been issued in time. -/
def issued (settings : Settings) (request : Request) :
    Response → Local schema → Shared schema → Prop
  | .tokens tokens => Issues settings request tokens
  | _ => fun _ _ => True

theorem timely_serve (hinv : SessionsOk s) :
    (timely H settings requests).wp p (issued settings (requests p))
      (fun _ _ _ => True) (serve H settings (requests p)) none {} s := by
  cases hrequest : requests p with
  | register body client =>
      exact timely_map (keeping_register hrequest) hinv
        (by simp [hrequest, Timely]) fun _ _ _ => trivial
  | login body client =>
      exact wp_map (timely_login hrequest)
        (fun _ _ _ _ _ h hrely _ => h.rely hrely) hinv
  | refresh body =>
      exact wp_map (timely_refresh hrequest)
        (fun _ _ _ _ _ h hrely _ => h.rely hrely) hinv
  | logout authorization =>
      exact timely_map (keeping_logout hrequest) hinv
        (by simp [hrequest, Timely]) fun _ _ _ => trivial
  | sessions authorization =>
      exact timely_map keeping_sessions hinv
        (by simp [hrequest, Timely]) fun _ _ _ => trivial
  | revokeSession sessionId authorization =>
      exact timely_map (keeping_revokeSession hrequest) hinv
        (by simp [hrequest, Timely]) fun _ _ _ => trivial
  | revokeAll authorization =>
      exact timely_map (keeping_revokeAll hrequest) hinv
        (by simp [hrequest, Timely]) fun _ _ _ => trivial
  | verifyEmail body =>
      exact timely_map (keeping_verifyEmail hrequest) hinv
        (by simp [hrequest, Timely]) fun _ _ _ => trivial
  | resendVerification authorization client =>
      exact timely_map (keeping_resendVerification hrequest) hinv
        (by simp [hrequest, Timely]) fun _ _ _ => trivial
  | requestReset body client =>
      exact timely_map (keeping_requestReset hrequest) hinv
        (by simp [hrequest, Timely]) fun _ _ _ => trivial
  | resetPassword body =>
      exact timely_map (keeping_resetPassword hrequest) hinv
        (by simp [hrequest, Timely]) fun _ _ _ => trivial

end Requests

/-! ## Access tokens -/

/-- The functions of the token library, under the secret and the algorithm of
the settings.  `decode` looks at a text at a time. -/
structure Jwt where
  encode : AccessToken → String
  decode : String → Instant → Option (Uuid × Uuid)

/-- Only texts that the library has signed are accepted, before they expire. -/
def Jwt.Verifies (jwt : Jwt) (signed : AccessToken → Prop) : Prop :=
  ∀ text time userId sessionId,
    jwt.decode text time = some (userId, sessionId) →
    ∃ token, signed token ∧ text = jwt.encode token ∧ token.sub = userId ∧
      token.sid = sessionId ∧ time < token.exp

/-- What `current_principal` makes of the header at a time. -/
def readHeader (jwt : Jwt) (header : Option String) (time : Instant) :
    Authorization :=
  match header with
  | none => .missing
  | some text =>
      if text.startsWith "Bearer " then
        match jwt.decode (text.drop 7).copy time with
        | some (userId, sessionId) => .claims userId sessionId
        | none => .invalid
      else .missing

theorem readHeader_claims {jwt : Jwt} {header : Option String}
    {time : Instant} {userId sessionId : Uuid}
    (h : readHeader jwt header time = .claims userId sessionId) :
    ∃ text, jwt.decode text time = some (userId, sessionId) := by
  cases header with
  | none => cases h
  | some text =>
      simp only [readHeader] at h
      split at h
      · split at h
        · next hdecode =>
            cases h
            exact ⟨_, hdecode⟩
        · cases h
      · cases h

/-- `current_principal` once it has read the rows of the join. -/
def principalOf (sessionId : Uuid) (rows : List User) : Tx Principal := do
  let user ← scalarOneOrNone rows
  let user ← Prog.require user sessionRevoked
  return { user, sessionId }

theorem final_principalOf (sessionId : Uuid) (rows : List User) :
    (principalOf sessionId rows).final = true := by
  match rows with
  | [] => rfl
  | [_] => rfl
  | _ :: _ :: _ => rfl

theorem sessionId_of_principalOf {sessionId : Uuid} {rows : List User}
    {principal : Principal}
    (h : principalOf sessionId rows = .ret principal) :
    principal.sessionId = sessionId := by
  match rows, h with
  | [_], h =>
      cases h
      rfl

/-- A principal has the session of its token. -/
theorem principal_of_reachable {code : Pid → Tx Principal} {s₀ : Db}
    {w : World schema AppError Principal} {q : Pid}
    {authorization : Authorization} {principal : Principal}
    (hcode : code q = currentPrincipal authorization)
    (h : Reachable (World.start s₀ code) w)
    (hret : (w.procs q).prog = .ret principal) :
    ∃ userId, authorization = .claims userId principal.sessionId := by
  have hraise : ∀ e, currentPrincipal authorization ≠ .raise e := by
    intro e he
    rw [he] at hcode
    obtain ⟨hprog, _⟩ := final_of_reachable (by rw [hcode]; rfl) h
    rw [hret, hcode] at hprog
    simp at hprog
  cases authorization with
  | missing => exact absurd rfl (hraise authenticationRequired)
  | invalid => exact absurd rfl (hraise invalidAccessToken)
  | claims userId sessionId =>
      have hquery : code q = .query fun db =>
          principalOf sessionId (principalRows userId sessionId db) := hcode
      obtain ⟨hread, _⟩ := oneRead_of_reachable hquery
        (fun db => final_principalOf sessionId _) h
      cases hread with
      | before hprog =>
          rw [hret] at hprog
          cases hprog
      | answered db hprog =>
          rw [hret] at hprog
          exact ⟨userId, by rw [sessionId_of_principalOf hprog.symm]⟩
      | stopped hprog =>
          rw [hret] at hprog
          cases hprog

/-! ## Runs -/

section Runs

variable {H : TokenHash} {settings : Settings} {requests : Pid → Request}
  {s₀ : Db} {w w' : World schema AppError Response}

theorem sound_timely (h₀ : NoSessions s₀)
    (hreach : Reachable (clients H settings requests s₀) w) :
    Sound (timely H settings requests)
      (fun p => issued settings (requests p)) (fun _ _ _ _ => True) w := by
  have hsound := sound_sessions h₀ hreach
  refine sound h₀.ok (fun _ => timely_serve h₀.ok) hreach fun c hc => ?_
  exact ⟨World.unique_of_reachable h₀.unique hreach c hc, hsound.guar c hc⟩

/-- Whatever a client reads from the clock is the time of its request. -/
def Consistent (w : World schema AppError Response)
    (clock : Pid → Instant) : Prop :=
  ∀ p time, .answered .now time ∈ (w.session p).seen → time = clock p

/-- The commit adds a row to the family. -/
def Extends (F : Uuid) (c : Commit schema) : Prop :=
  ∃ r ∈ (c.after .authSessions).rows, AuthSession.familyId r = F ∧
    (c.before .authSessions).lookup (.id (AuthSession.id r)) = none

/-- The access token has been issued on the way to `w`. -/
def IssuedBefore (w₀ w : World schema AppError Response)
    (token : AccessToken) : Prop :=
  ∃ w₁ p tokens, Reachable w₀ w₁ ∧ Reachable w₁ w ∧
    (w₁.procs p).prog = .ret (.tokens tokens) ∧ tokens.accessToken = token

/-- A row that is new after a commit was put there. -/
theorem put_of_new {c : Commit schema} {r : AuthSession} {k : Key}
    (hafter : (c.after .authSessions).lookup k = some r)
    (hnew : (c.before .authSessions).lookup k ≠ some r) :
    .put .authSessions r ∈ c.session.writes :=
  (Store.lookup_view_cases hafter).resolve_left hnew

theorem Extends.put {F : Uuid} {c : Commit schema} (h : Extends F c) :
    ∃ r ∈ (c.after .authSessions).rows, AuthSession.familyId r = F ∧
      .put .authSessions r ∈ c.session.writes := by
  obtain ⟨r, hr, hF, hnew⟩ := h
  refine ⟨r, hr, hF, put_of_new (mem_sessions_iff.mp hr) ?_⟩
  rw [hnew]
  simp

/-- Rows stay, with their family and its expiry. -/
theorem persists_of_log (h₀ : NoSessions s₀)
    (hreach : Reachable (clients H settings requests s₀) w)
    {c : Commit schema} (hc : c ∈ w.log) {x : AuthSession}
    (hx : x ∈ (c.after .authSessions).rows) :
    ∃ y ∈ (w.store .authSessions).rows, Persists x y := by
  have hguar := (sound_sessions h₀ hreach).guar
  have hchain := (World.wellFormed_of_reachable hreach).chain
  obtain ⟨newer, older, hlog⟩ := List.append_of_mem hc
  rw [hlog] at hchain hguar
  refine (hchain.persist (P := fun db =>
    ∃ y ∈ (db .authSessions).rows, Persists x y) ⟨x, hx, .refl x⟩ ?_).1
  rintro d hd ⟨y, hy, hxy⟩
  obtain ⟨z, hz, hyz⟩ :=
    (hguar d (List.mem_append_left _ hd)).change.persists hy
  exact ⟨z, Relation.mem_of_lookup hz, hxy.trans hyz⟩

theorem persists_of_reachable (h₀ : NoSessions s₀)
    (hreach : Reachable (clients H settings requests s₀) w)
    (hlater : Reachable w w') {x : AuthSession}
    (hx : x ∈ (w.store .authSessions).rows) :
    ∃ y ∈ (w'.store .authSessions).rows, Persists x y := by
  suffices hboth : Reachable (clients H settings requests s₀) w' ∧
      ∃ y ∈ (w'.store .authSessions).rows, Persists x y from hboth.2
  induction hlater with
  | start => exact ⟨hreach, x, hx, .refl x⟩
  | @step u v p input _ hstep ih =>
      obtain ⟨hu, y, hy, hxy⟩ := ih
      have hv := hu.step p input hstep
      refine ⟨hv, ?_⟩
      rcases (World.change_of_advance hstep).log with
        ⟨_, hstore⟩ | ⟨_, hlog, hstore⟩
      · exact ⟨y, hstore ▸ hy, hxy⟩
      · have hguar := (sound_sessions h₀ hv).guar (u.commitOf p)
          (by rw [hlog]; exact List.mem_cons_self)
        obtain ⟨z, hz, hyz⟩ := hguar.change.persists hy
        rw [hstore]
        exact ⟨z, Relation.mem_of_lookup hz, hxy.trans hyz⟩

section Login

variable {clock : Pid → Instant} {F : Uuid} {c : Commit schema}

/-- The times that a commit has read. -/
theorem Consistent.commit (hclock : Consistent w clock)
    (hreach : Reachable (clients H settings requests s₀) w) (hc : c ∈ w.log)
    {time : Instant} (htime : .answered .now time ∈ c.session.seen) :
    time = clock c.pid :=
  hclock c.pid time ((World.seen_of_log hreach c hc).subset htime)

/-- A family expires when its login has said. -/
theorem expiresAt_of_login (h₀ : NoSessions s₀)
    (hreach : Reachable (clients H settings requests s₀) w)
    (hclock : Consistent w clock) (hc : c ∈ w.log) {body : LoginRequest}
    {client : Client} (hrequest : requests c.pid = .login body client)
    (hopens : Extends F c) {x : AuthSession}
    (hx : x ∈ (w.store .authSessions).rows) (hF : x.familyId = F) :
    x.expiresAt = clock c.pid + days settings.refreshTokenDays := by
  have hsound := sound_timely h₀ hreach
  obtain ⟨r, hr, hrF, hput⟩ := hopens.put
  have htimely := (hsound.guar c hc).2
  rw [hrequest] at htimely
  obtain ⟨time, htime, hexpires⟩ := htimely r hput
  obtain ⟨y, hy, hry⟩ := persists_of_log h₀ hreach hc hr
  have hsame := (hsound.inv.families.login x hx y hy
    (hF.trans (hrF.symm.trans hry.family.symm))).2
  rw [hsame, hry.expires, hexpires, hclock.commit hreach hc htime]

/-- A refresh that commits a successor has found its family in time. -/
theorem lt_of_refresh (h₀ : NoSessions s₀)
    (hreach : Reachable (clients H settings requests s₀) w)
    (hclock : Consistent w clock) (hc : c ∈ w.log) {body : RefreshRequest}
    (hrequest : requests c.pid = .refresh body) (hextends : Extends F c) :
    ∃ x ∈ (w.store .authSessions).rows, AuthSession.familyId x = F ∧
      clock c.pid < x.expiresAt := by
  have hguar := (sound_timely h₀ hreach).guar c hc
  obtain ⟨r, hr, hrF, hput⟩ := hextends.put
  obtain ⟨y, hy, hry⟩ := persists_of_log h₀ hreach hc hr
  have htimely := hguar.2
  rw [hrequest] at htimely
  rcases htimely with hrevoked | ⟨time, htime, hall⟩
  · exfalso
    obtain ⟨r', hr', _, hnew⟩ := hextends
    have hlook := mem_sessions_iff.mp hr'
    cases hguar.1.change with
    | opened body' client' _ hlogin =>
        rw [hrequest] at hlogin
        cases hlogin
    | revoked time hafter =>
        rcases hafter (.id r'.id) with hsame | ⟨x, hx, _⟩
        · rw [hsame, hnew] at hlook
          cases hlook
        · rw [hnew] at hx
          cases hx
    | exchanged body' h s time _ _ hmem hlive hnewRow _ hafter =>
        have hhead : (c.after .authSessions).lookup (.id h.id) =
            some { h with rotatedAt := some time } := by
          rw [hafter, if_neg (by simpa using hnewRow.ne hmem), if_pos rfl]
        have hbefore := mem_sessions_iff.mp hmem
        refine hrevoked _ (put_of_new hhead ?_) hlive.1
        rw [hbefore]
        intro heq
        have hrotated := congrArg AuthSession.rotatedAt (Option.some.inj heq)
        rw [hlive.2] at hrotated
        cases hrotated
  · have hlt := hall r hput
    rw [hclock.commit hreach hc htime, ← hry.expires] at hlt
    exact ⟨y, hy, hry.family.trans hrF, hlt⟩

/-- An access token ends a few minutes after the expiry of its family at the
latest. -/
theorem exp_le_of_issued (h₀ : NoSessions s₀)
    (hclock : Consistent w clock) {token : AccessToken}
    (hissued : IssuedBefore (clients H settings requests s₀) w token) :
    ∃ x ∈ (w.store .authSessions).rows,
      AuthSession.familyId x = token.sid ∧
        token.exp ≤ x.expiresAt + minutes settings.accessTokenMinutes := by
  obtain ⟨w₁, p, tokens, hw₁, hlater, hret, rfl⟩ := hissued
  obtain ⟨x, hx, hF, ⟨time, htime, hexpires⟩, now, hnow, hexp⟩ :=
    (sound_timely h₀ hw₁).returned hret
  obtain ⟨y, hy, hxy⟩ := persists_of_reachable h₀ hw₁ hlater hx
  have hseen := (World.history_of_reachable hlater).2 p
  have htimes : time = now :=
    (hclock p time (hseen.subset htime)).trans
      (hclock p now (hseen.subset hnow)).symm
  subst htimes
  refine ⟨y, hy, hxy.family.trans hF, ?_⟩
  rw [hexp, hxy.expires]
  refine Nat.add_le_add_right ?_ _
  unfold InTime at hexpires
  split at hexpires
  · rw [hexpires]
    exact Nat.le_add_right _ _
  · exact le_of_lt hexpires

end Login

/-- No refresh of a family succeeds, and no access token of it is accepted,
later than its login allows. -/
theorem login_ends (h₀ : NoSessions s₀)
    (hreach : Reachable (clients H settings requests s₀) w)
    {clock : Pid → Instant} (hclock : Consistent w clock) {jwt : Jwt}
    (hjwt : jwt.Verifies
      (IssuedBefore (clients H settings requests s₀) w))
    {c : Commit schema} (hc : c ∈ w.log) {body : LoginRequest}
    {client : Client} (hrequest : requests c.pid = .login body client)
    {F : Uuid} (hopens : Extends F c) :
    (∀ d ∈ w.log, ∀ body, requests d.pid = .refresh body → Extends F d →
      clock d.pid < clock c.pid + days settings.refreshTokenDays) ∧
    ∀ (header : Option String) (time : Instant),
      clock c.pid + days settings.refreshTokenDays +
        minutes settings.accessTokenMinutes ≤ time →
      ∀ (code : Pid → Tx Principal) (db : Db)
        (v : World schema AppError Principal) (q : Pid)
        (principal : Principal),
        code q = currentPrincipal (readHeader jwt header time) →
        Reachable (World.start db code) v →
        (v.procs q).prog = .ret principal → principal.sessionId ≠ F := by
  constructor
  · intro d hd body' hrefresh hextends
    obtain ⟨x, hx, hF, hlt⟩ :=
      lt_of_refresh h₀ hreach hclock hd hrefresh hextends
    rwa [expiresAt_of_login h₀ hreach hclock hc hrequest hopens hx hF] at hlt
  · rintro header time hlate code db v q principal hcode hv hret rfl
    obtain ⟨userId, hclaims⟩ := principal_of_reachable hcode hv hret
    obtain ⟨text, hdecode⟩ := readHeader_claims hclaims
    obtain ⟨token, hissued, _, _, hsid, hlt⟩ :=
      hjwt text time userId principal.sessionId hdecode
    obtain ⟨x, hx, hF, hexp⟩ := exp_le_of_issued h₀ hclock hissued
    rw [expiresAt_of_login h₀ hreach hclock hc hrequest hopens hx
      (hF.trans hsid)] at hexp
    exact absurd (lt_of_lt_of_le hlt hexp) (not_lt.mpr hlate)

end Runs

/-! ## A run with a login and a refresh -/

/-- The tokens that a client has been answered. -/
def answeredTokens (P : Proc schema AppError Response) : Option TokenPair :=
  match P.prog with
  | .ret (.tokens tokens) => some tokens
  | _ => none

theorem prog_of_answeredTokens {P : Proc schema AppError Response}
    {tokens : TokenPair} (h : answeredTokens P = some tokens) :
    P.prog = .ret (.tokens tokens) := by
  unfold answeredTokens at h
  split at h
  · next hprog =>
      rw [hprog, Option.some.inj h]
  · cases h

/-- A clock reading. -/
def timeOf : Obs schema → Option Instant
  | .answered .now time => some time
  | _ => none

instance (F : Uuid) (c : Commit schema) : Decidable (Extends F c) :=
  inferInstanceAs (Decidable (∃ r ∈ (c.after .authSessions).rows, _ ∧ _))

/-- The login is answered at the time `100`, and the refresh commits at
`200`. -/
def refreshedLogin : List (Pid × Input schema) :=
  loginSteps ++ steps 0 [.value 100, .value 14] ++ refreshSteps ++
    steps 1 [.go]

def refreshedClock : Pid → Instant
  | 0 => 100
  | _ => 200

/-- The library for the token of the login. -/
def refreshedJwt : Jwt where
  encode := fun _ => "signed"
  decode := fun text time =>
    if text = "signed" ∧ time < 100 + minutes 15 then some (1, 11) else none

theorem login_ends_refreshedLogin :
    ∃ w, Reachable oneUserStart w ∧
      (∃ d ∈ w.log, d.pid = 1 ∧ Extends 11 d) ∧
      ∀ d ∈ w.log, ∀ body, refreshAndLogout d.pid = .refresh body →
        Extends 11 d → refreshedClock d.pid < 100 + days 30 := by
  have hrun : (oneUserStart.run refreshedLogin).any (fun w =>
      (∃ c ∈ w.log, c.pid = 0 ∧ Extends 11 c) ∧
        (∃ d ∈ w.log, d.pid = 1 ∧ Extends 11 d) ∧
        ((answeredTokens (w.procs 0)).any fun t => t.accessToken.sub = 1 ∧
          t.accessToken.sid = 11 ∧ t.accessToken.exp = 100 + minutes 15) =
            true ∧
        (∀ time ∈ (w.session 0).seen.filterMap timeOf, time = 100) ∧
        ∀ time ∈ (w.session 1).seen.filterMap timeOf, time = 200) = true := by
    decide +kernel
  obtain ⟨w, hw, htest⟩ := (Option.any_eq_true _ _).mp hrun
  simp only [decide_eq_true_eq] at htest
  obtain ⟨⟨c, hc, hpid, hopens⟩, hrefreshed, hanswered, hfirst, hsecond⟩ :=
    htest
  have hreach := Reachable.start.run hw
  obtain ⟨tokens, htokens, htoken⟩ := (Option.any_eq_true _ _).mp hanswered
  rw [decide_eq_true_eq] at htoken
  obtain ⟨hsub, hsid, hexp⟩ := htoken
  have hclock : Consistent w refreshedClock := by
    intro p time htime
    match p with
    | 0 => exact hfirst time (List.mem_filterMap.mpr ⟨_, htime, rfl⟩)
    | 1 => exact hsecond time (List.mem_filterMap.mpr ⟨_, htime, rfl⟩)
    | p + 2 =>
        have hothers : ∀ x ∈ refreshedLogin, x.1 < 2 := by decide
        have hsame := World.session_of_run hw (p := p + 2) fun x hx =>
          Nat.ne_of_lt (Nat.lt_of_lt_of_le (hothers x hx) (Nat.le_add_left 2 p))
        rw [hsame] at htime
        cases htime
  have hjwt : refreshedJwt.Verifies (IssuedBefore oneUserStart w) := by
    intro text time userId sessionId hdecode
    simp only [refreshedJwt] at hdecode
    split at hdecode
    · next haccepted =>
        cases hdecode
        refine ⟨tokens.accessToken, ?_, haccepted.1, hsub, hsid, ?_⟩
        · exact ⟨w, 0, tokens, hreach, .start, prog_of_answeredTokens htokens,
            rfl⟩
        · rw [hexp]
          exact haccepted.2
    · cases hdecode
  have hlogin : refreshAndLogout c.pid =
      .login ⟨"carol@example.org", "secret"⟩ browser := by
    rw [hpid]
    rfl
  have hends := (login_ends noSessions_oneUser hreach hclock hjwt hc hlogin
    hopens).1
  rw [hpid] at hends
  exact ⟨w, hreach, hrefreshed, hends⟩

end Workstream.Auth
