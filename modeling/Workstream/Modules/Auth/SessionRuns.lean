import Workstream.Modules.Auth.Presentation

/-!
# Sessions over whole runs

What holds of the session families in every world that the authentication
endpoints can reach from a database without sessions, however their requests
interleave.
-/

namespace Workstream.Auth

open ReadCommitted Contract World

/-! ## Serving -/

section Serve

variable {H : TokenHash} {settings : Settings} {requests : Pid → Request}
  {p : Pid}

/-- What may be said of the answers to a request. -/
def returns (H : TokenHash) (request : Request) :
    Response → Local schema → Shared schema → Prop :=
  match request with
  | .refresh body => refreshReturns H body
  | _ => fun _ _ _ => True

def raises (H : TokenHash) (request : Request) :
    AppError → Local schema → Shared schema → Prop :=
  match request with
  | .refresh body => refreshRaises H body
  | _ => fun _ _ _ => True

theorem keeping_map {α β : Type} {x : Tx α} {g : α → β} {l : Local schema}
    {s : Shared schema} (h : Keeping H requests p x l s)
    (hinv : SessionsOk s) : Keeping H requests p (g <$> x) l s :=
  wp_map h (fun _ _ _ _ _ _ _ _ => trivial) hinv

theorem wp_serve {s : Shared schema} (hinv : SessionsOk s) :
    (sessionContract H requests).wp p (returns H (requests p))
      (raises H (requests p)) (serve H settings (requests p)) none {} s := by
  cases hrequest : requests p with
  | register body client => exact keeping_map (keeping_register hrequest) hinv
  | login body client => exact keeping_map (keeping_login hrequest) hinv
  | refresh body =>
      exact wp_map (wp_refresh hrequest)
        (fun _ _ _ _ _ hreturns _ _ => hreturns) hinv
  | logout authorization => exact keeping_map (keeping_logout hrequest) hinv
  | sessions authorization => exact keeping_map keeping_sessions hinv
  | revokeSession sessionId authorization =>
      exact keeping_map (keeping_revokeSession hrequest) hinv
  | revokeAll authorization =>
      exact keeping_map (keeping_revokeAll hrequest) hinv
  | verifyEmail body => exact keeping_map (keeping_verifyEmail hrequest) hinv
  | resendVerification authorization client =>
      exact keeping_map (keeping_resendVerification hrequest) hinv
  | requestReset body client =>
      exact keeping_map (keeping_requestReset hrequest) hinv
  | resetPassword body =>
      exact keeping_map (keeping_resetPassword hrequest) hinv

end Serve

/-- A database whose unique indexes hold and in which nobody has logged in. -/
structure NoSessions (s : Db) : Prop where
  unique : s.Unique
  sessions : (s .authSessions).rows = []

section Runs

variable {H : TokenHash} {settings : Settings} {requests : Pid → Request}
  {s₀ : Db} {w : World schema AppError Response}

/-- The world in which every client is about to send its request. -/
abbrev clients (H : TokenHash) (settings : Settings)
    (requests : Pid → Request) (s₀ : Db) : World schema AppError Response :=
  World.start s₀ fun p => serve H settings (requests p)

theorem NoSessions.ok (h : NoSessions s₀) : SessionsOk ⟨s₀, []⟩ where
  families := by constructor <;> simp [h.sessions]
  used := by simp [h.sessions]

theorem sound_sessions (h₀ : NoSessions s₀)
    (hreach : Reachable (clients H settings requests s₀) w) :
    Sound (sessionContract H requests) (fun p => returns H (requests p))
      (fun p => raises H (requests p)) w :=
  sound h₀.ok (fun _ => wp_serve h₀.ok) hreach
    (World.unique_of_reachable h₀.unique hreach)

/-! ## The representation of the sessions -/

/-- What the endpoints take for granted: a family has one row that is not
rotated and belongs to one login, a token is in one row, and so the joins that
expect one row at most find one at most. -/
structure Represents (db : Db) : Prop where
  head : ∀ x ∈ (db .authSessions).rows, ∃! y, y ∈ (db .authSessions).rows ∧
    AuthSession.familyId y = AuthSession.familyId x ∧ y.rotatedAt = none
  login : ∀ x ∈ (db .authSessions).rows, ∀ y ∈ (db .authSessions).rows,
    AuthSession.familyId x = AuthSession.familyId y →
    x.userId = y.userId ∧ x.expiresAt = y.expiresAt
  token : ∀ digest, ((db .authSessions).rows.filter fun x : AuthSession =>
    x.refreshTokenHash = digest).length ≤ 1
  principal : ∀ userId sessionId,
    (principalRows userId sessionId db).length ≤ 1
  listing : ∀ userId,
    ((sessionRows userId db).map AuthSession.familyId).Nodup

theorem Families.represents {db : Db} (h : Families (db .authSessions)) :
    Represents db where
  head := by
    intro x hx
    obtain ⟨y, hy, hfamily, hrotated⟩ := h.head x hx
    refine ⟨y, ⟨hy, hfamily, hrotated⟩, ?_⟩
    rintro z ⟨hz, hzfamily, hzrotated⟩
    exact h.headUnique z hz y hy (hzfamily.trans hfamily.symm) hzrotated
      hrotated
  login := h.login
  token := by
    intro digest
    refine length_le_one ((db .authSessions).nodup_rows.filter _) ?_
    intro x hx y hy
    simp only [List.mem_filter, decide_eq_true_eq] at hx hy
    exact h.digest x hx.1 y hy.1 (hx.2.trans hy.2.symm)
  principal := h.principalRows_length
  listing := h.sessionRows_nodup

/-! ## Tokens are exchanged once -/

/-- The commit of a refresh leaves a successor for its token. -/
def Exchanges (requests : Pid → Request) (token : Token)
    (c : Commit schema) : Prop :=
  ∃ body, requests c.pid = .refresh body ∧ body.refreshToken = token ∧
    ∃ r ∈ (c.after .authSessions).rows,
      (c.before .authSessions).lookup (.id (AuthSession.id r)) = none

/-- The token has been rotated. -/
def Rotated (H : TokenHash) (token : Token) (db : Db) : Prop :=
  ∃ x ∈ (db .authSessions).rows,
    AuthSession.refreshTokenHash x = H.hash token ∧ x.rotatedAt ≠ none

theorem exchanges_live {token : Token} {c : Commit schema}
    (hguar : SessionGuarantee H (requests c.pid) c)
    (h : Exchanges requests token c) :
    (∃ x ∈ (c.before .authSessions).rows,
        AuthSession.refreshTokenHash x = H.hash token ∧
          x.rotatedAt = none) ∧ Rotated H token c.after := by
  obtain ⟨body, hrequest, rfl, r, hr, hnew⟩ := h
  have hlook := mem_sessions_iff.mp hr
  cases hguar.change with
  | opened body' client r' hrequest' =>
      rw [hrequest] at hrequest'
      cases hrequest'
  | revoked time hafter =>
      rcases hafter (.id r.id) with hsame | ⟨x, hx, _⟩
      · rw [hsame, hnew] at hlook
        cases hlook
      · rw [hnew] at hx
        cases hx
  | exchanged body' x r' time hrequest' hdigest hmem hlive hnewRow _ hafter =>
      rw [hrequest] at hrequest'
      cases hrequest'
      have hx : (c.after .authSessions).lookup (.id x.id) =
          some { x with rotatedAt := some time } := by
        rw [hafter, if_neg (by simpa using hnewRow.ne hmem), if_pos rfl]
      exact ⟨⟨x, hmem, hdigest, hlive.2⟩, _, Relation.mem_of_lookup hx,
        hdigest, by simp⟩

theorem Rotated.change {token : Token} {c : Commit schema}
    (hguar : SessionGuarantee H (requests c.pid) c)
    (h : Rotated H token c.before) : Rotated H token c.after := by
  obtain ⟨x, hx, hdigest, hrotated⟩ := h
  obtain ⟨y, hy, hxy⟩ := hguar.change.persists hx
  exact ⟨y, Relation.mem_of_lookup hy, hxy.digest.trans hdigest,
    hxy.rotated hrotated⟩

/-- A rotated token is not exchanged. -/
theorem Rotated.not_exchanges {token : Token} {c : Commit schema}
    (hguar : SessionGuarantee H (requests c.pid) c)
    (h : Rotated H token c.before) : ¬ Exchanges requests token c := by
  intro hexchanges
  obtain ⟨x, hx, hdigest, hrotated⟩ := h
  obtain ⟨⟨y, hy, hydigest, hyrotated⟩, _⟩ := exchanges_live hguar hexchanges
  obtain rfl := hguar.families.digest x hx y hy (hdigest.trans hydigest.symm)
  exact hrotated hyrotated

/-- A refresh that no failure has befallen is still on its way, or what it has
found decides its answer. -/
theorem presenting_of_steady (h₀ : NoSessions s₀) {p : Pid}
    {body : RefreshRequest} (hrequest : requests p = .refresh body)
    {k : List AuthSession → Tx Response}
    (hserve : serve H settings (.refresh body) =
      .scan .authSessions (tokenScan H body) k) (hlooked : Looked k)
    (h : Steady (clients H settings requests s₀) p w) :
    Presenting H body k w p := by
  induction h with
  | start =>
      have hprog : ((clients H settings requests s₀).procs p).prog =
          serve H settings (requests p) := rfl
      exact .before rfl (hprog.trans (hrequest ▸ hserve)) rfl rfl
  | @step w w' q x h hx hstep ih =>
      have hreach := h.reachable
      have hsound := sound_sessions h₀ hreach
      by_cases hq : q = p
      · subst hq
        obtain ⟨hregular, hanswer⟩ := hx rfl
        have hview := (indexed_of_reachable h₀.unique hreach).view q
        exact ih.advance hlooked hview hsound.inv.families hregular hanswer hstep
      · refine ih.others hstep (Ne.symm hq) fun i y hy => ?_
        rcases (change_of_advance hstep).log with ⟨_, hstore⟩ |
          ⟨_, hlog, hstore⟩
        · rw [hstore]
          exact ⟨y, hy, .refl y⟩
        · have hnext := sound_sessions h₀ (.step q x hreach hstep)
          have hguar := hnext.guar (w.commitOf q) (by simp [hlog])
          obtain ⟨z, hz, hyz⟩ :=
            hguar.change.persists (Relation.mem_of_lookup hy)
          have hkey : Key.id y.id = .id i := Relation.key_of_lookup hy
          rw [hstore]
          exact ⟨z, hkey ▸ hz, hyz⟩

/-- The answers to a refresh that presents a rotated token.  One that stops
without an answer has been broken off from outside. -/
structure AnswersReuse (H : TokenHash) (body : RefreshRequest)
    (w₀ w : World schema AppError Response) (p : Pid) : Prop where
  returned : ∀ a, (w.procs p).prog = .ret a →
    ¬ PresentsRotated H body (w.localOf p)
  raised : ∀ e, (w.procs p).prog = .raise e → (w.procs p).guard = none →
    PresentsRotated H body (w.localOf p) →
    ReuseAnswered H body e (w.localOf p) w.shared
  halted : (w.procs p).prog = .halt →
    PresentsRotated H body (w.localOf p) → ¬ Steady w₀ p w

/-- Whoever presents the rotated token next, undisturbed, is told so, and the
family is revoked. -/
def RevokesNext (H : TokenHash) (settings : Settings) (body : RefreshRequest)
    (used : List ℕ) (db : Db) : Prop :=
  Ends (fun a db' => a = .error refreshTokenReuse ∧
      FamilyRevoked H body.refreshToken db db')
    (alone used db (serve H settings (.refresh body)))

/-- Sessions are well represented in every committed state, a token is
exchanged once and stays rotated, and whoever presents it afterwards revokes
what the family has. -/
theorem sessions_represented (h₀ : NoSessions s₀)
    (hreach : Reachable (clients H settings requests s₀) w) :
    Represents w.store ∧
    (∀ token newer c older, w.log = newer ++ c :: older →
      Exchanges requests token c → Rotated H token w.store ∧
        ∀ d ∈ newer, ¬ Exchanges requests token d) ∧
    (∀ p body, requests p = .refresh body →
      AnswersReuse H body (clients H settings requests s₀) w p) ∧
    ∀ used body, Rotated H body.refreshToken w.store →
      RevokesNext H settings body used w.store := by
  have hsound := sound_sessions h₀ hreach
  refine ⟨hsound.inv.families.represents, ?_, ?_, ?_⟩
  · intro token newer c older hlog hexchanges
    have hguar : ∀ d ∈ newer ++ c :: older,
        SessionGuarantee H (requests d.pid) d := hlog ▸ hsound.guar
    have hchain := (World.wellFormed_of_reachable hreach).chain
    rw [hlog] at hchain
    obtain ⟨hlast, hnewer⟩ := hchain.persist
      (exchanges_live (hguar c (by simp)) hexchanges).2
      fun d hd h => h.change (hguar d (List.mem_append_left _ hd))
    exact ⟨hlast, fun d hd =>
      (hnewer d hd).not_exchanges (hguar d (List.mem_append_left _ hd))⟩
  · intro p body hrequest
    constructor
    · intro a hprog
      have hreturns := hsound.returned hprog
      rw [hrequest] at hreturns
      exact hreturns
    · intro e hprog hguard
      have hraises := hsound.raised hprog hguard
      rw [hrequest] at hraises
      exact hraises
    · intro hhalt hpresents hsteady
      obtain ⟨k, hserve, hlooked⟩ := serve_refresh H settings body
      exact (presenting_of_steady h₀ hrequest hserve hlooked hsteady).not_halt
        hpresents hhalt
  · rintro used body ⟨x, hx, hhash, hrotated⟩
    exact ends_iff_yields.mpr (yields_refresh
      (indexed_of_reachable h₀.unique hreach).store hsound.inv.families hx hhash
      hrotated)

/-! ## Revocation -/

/-- The commit of a request revokes the family `F`. -/
def Revokes (H : TokenHash) (requests : Pid → Request) (F : Uuid)
    (c : Commit schema) : Prop :=
  ∃ x ∈ (c.before .authSessions).rows,
    AuthSession.familyId x = F ∧ Targets H (requests c.pid) c.before x

/-- A live row of `F` has been committed after the revoking `UPDATE` has
picked its rows. -/
def Overtaken (F : Uuid) (c : Commit schema) : Prop :=
  ∃ x ∈ (c.before .authSessions).rows, AuthSession.familyId x = F ∧ Live x ∧
    ∀ db, updatedOn c = some db →
      (db .authSessions).lookup (.id (AuthSession.id x)) = none

/-- A commit that revokes a family means every row of it. -/
theorem Revokes.targets {F : Uuid} {c : Commit schema}
    (hguar : SessionGuarantee H (requests c.pid) c)
    (h : Revokes H requests F c) {x : AuthSession}
    (hx : x ∈ (c.before .authSessions).rows) (hF : x.familyId = F) :
    Targets H (requests c.pid) c.before x := by
  obtain ⟨y, hy, hyF, htarget⟩ := h
  have hfamily := hF.trans hyF.symm
  obtain ⟨huser, _⟩ := hguar.families.login x hx y hy hfamily
  unfold Targets at htarget ⊢
  split at htarget
  · exact ⟨huser.trans htarget.1, hfamily.trans htarget.2⟩
  · exact ⟨hfamily.trans htarget.1, huser.trans htarget.2⟩
  · exact huser.trans htarget
  · obtain ⟨t, ht, hhash, hpurpose, hyuser⟩ := htarget
    exact ⟨t, ht, hhash, hpurpose, huser.trans hyuser⟩
  · obtain ⟨z, hz, hhash, hrotated, hyfamily⟩ := htarget
    exact ⟨z, hz, hhash, hrotated, hfamily.trans hyfamily⟩
  · exact htarget

/-- Such a commit neither opens nor continues a family. -/
theorem Revokes.change {F : Uuid} {c : Commit schema}
    (hguar : SessionGuarantee H (requests c.pid) c)
    (h : Revokes H requests F c) : ∃ time, ∀ k,
      (c.after .authSessions).lookup k = (c.before .authSessions).lookup k ∨
        ∃ r : AuthSession, (c.before .authSessions).lookup k = some r ∧
          (c.after .authSessions).lookup k =
            some { r with revokedAt := some time } := by
  obtain ⟨x, _, _, htarget⟩ := h
  cases hguar.change with
  | opened body client r hrequest =>
      rw [hrequest] at htarget
      exact htarget.elim
  | revoked time hafter => exact ⟨time, hafter⟩
  | exchanged body y r time hrequest hdigest hmem hlive =>
      rw [hrequest] at htarget
      obtain ⟨z, hz, hhash, hrotated, _⟩ := htarget
      obtain rfl := hguar.families.digest z hz y hmem
        (hhash.trans hdigest.symm)
      exact absurd hlive.2 hrotated

theorem dead_after_revoke {F : Uuid} {c : Commit schema}
    (hguar : SessionGuarantee H (requests c.pid) c)
    (hrevokes : Revokes H requests F c) (hon : ¬ Overtaken F c) :
    Dead F (c.after .authSessions) := by
  intro y hy hF hlive
  have hlook := mem_sessions_iff.mp hy
  obtain ⟨time, hafter⟩ := hrevokes.change hguar
  rcases hafter (.id y.id) with hsame | ⟨r, _, hrevoked⟩
  · rw [hsame] at hlook
    have hx := mem_sessions_iff.mpr hlook
    obtain ⟨db, hdb, hrevoked⟩ :=
      hguar.revokes y hx (hrevokes.targets hguar hx hF)
    by_cases hseen : (db .authSessions).lookup (.id y.id) = none
    · refine hon ⟨y, hx, hF, hlive, fun db' hdb' => ?_⟩
      obtain rfl := Option.some.inj (hdb.symm.trans hdb')
      exact hseen
    · obtain ⟨z, hz, hzrevoked⟩ := hrevoked hseen
      rw [mem_sessions_iff.mp hy] at hz
      obtain rfl := Option.some.inj hz
      exact hzrevoked hlive.1
  · rw [hlook] at hrevoked
    rw [Option.some.inj hrevoked] at hlive
    cases hlive.1

/-- The family is known and has no live row. -/
def Ended (F : Uuid) (db : Db) : Prop :=
  (∃ x ∈ (db .authSessions).rows, AuthSession.familyId x = F) ∧
    Dead F (db .authSessions)

theorem Ended.change {F : Uuid} {c : Commit schema}
    (hguar : SessionGuarantee H (requests c.pid) c) (h : Ended F c.before) :
    Ended F c.after := by
  obtain ⟨⟨x, hx, hF⟩, hdead⟩ := h
  obtain ⟨y, hy, hxy⟩ := hguar.change.persists hx
  exact ⟨⟨y, Relation.mem_of_lookup hy, hxy.family.trans hF⟩,
    hdead.change ⟨x, hx, hF⟩ hguar.change⟩

/-- No commit adds a row to a family that has ended. -/
theorem Ended.no_successor {F : Uuid} {c : Commit schema}
    (hguar : SessionGuarantee H (requests c.pid) c) (h : Ended F c.before)
    {r : AuthSession} (hr : r ∈ (c.after .authSessions).rows)
    (hF : r.familyId = F) :
    (c.before .authSessions).lookup (.id r.id) ≠ none := by
  obtain ⟨⟨x, hx, hxF⟩, hdead⟩ := h
  rcases hguar.change.origin hr with ⟨y, hy, hyr, _⟩ | ⟨_, hdiff | ⟨z, hz,
    hlive, hsucc, _⟩⟩
  · rw [hyr.id, mem_sessions_iff.mp hy]
    exact Option.some_ne_none y
  · exact absurd (hxF.trans hF.symm) (hdiff x hx)
  · exact absurd hlive (hdead z hz (hsucc.family.symm.trans hF))

/-- A family that a commit has revoked stays without a live row: no access
token of it is accepted and no refresh token of it is exchanged.  The `UPDATE`
must not have been overtaken by a row of the family. -/
theorem revocation_lasts (h₀ : NoSessions s₀)
    (hreach : Reachable (clients H settings requests s₀) w)
    {newer older : List (Commit schema)} {c : Commit schema}
    (hlog : w.log = newer ++ c :: older) {F : Uuid}
    (hrevokes : Revokes H requests F c) (hon : ¬ Overtaken F c) :
    Dead F (w.store .authSessions) ∧
    (∀ userId, principalRows userId F w.store = []) ∧
    ∀ d ∈ newer, Dead F (d.before .authSessions) ∧
      (∀ userId, principalRows userId F d.before = []) ∧
      ∀ r ∈ (d.after .authSessions).rows, AuthSession.familyId r = F →
        (d.before .authSessions).lookup (.id (AuthSession.id r)) ≠ none := by
  have hsound := sound_sessions h₀ hreach
  have hguar : ∀ d ∈ newer ++ c :: older,
      SessionGuarantee H (requests d.pid) d := hlog ▸ hsound.guar
  have hchain := (World.wellFormed_of_reachable hreach).chain
  rw [hlog] at hchain
  have hc := hguar c (by simp)
  have hended : Ended F c.after := by
    obtain ⟨x, hx, hF, _⟩ := id hrevokes
    obtain ⟨y, hy, hxy⟩ := hc.change.persists hx
    exact ⟨⟨y, Relation.mem_of_lookup hy, hxy.family.trans hF⟩,
      dead_after_revoke hc hrevokes hon⟩
  obtain ⟨hlast, hnewer⟩ := hchain.persist hended
    fun d hd h => h.change (hguar d (List.mem_append_left _ hd))
  refine ⟨hlast.2, fun userId => hlast.2.principalRows_eq userId, ?_⟩
  intro d hd
  have hbefore := hnewer d hd
  exact ⟨hbefore.2, fun userId => hbefore.2.principalRows_eq userId,
    fun r hr hF =>
      hbefore.no_successor (hguar d (List.mem_append_left _ hd)) hr hF⟩

end Runs

/-! ## Runs with one login -/

def carol : User where
  id := 1
  email := "carol@example.org"
  passwordHash := 0
  displayName := "Carol"

def browser : Client where
  host := none
  userAgent := none
  requestId := "request"

/-- A database with one user. -/
def oneUser : Db :=
  (Store.empty schema).write (.put Table.users carol)

theorem noSessions_oneUser : NoSessions oneUser where
  unique := Store.unique_empty.put (by decide)
  sessions := rfl

/-- Carol logs in, her session is refreshed, and she logs out. -/
def refreshAndLogout : Pid → Request
  | 0 => .login ⟨"carol@example.org", "secret"⟩ browser
  | 1 => .refresh ⟨10⟩
  | 2 => .refresh ⟨10⟩
  | _ => .logout (.claims 1 11)

def oneUserStart : World schema AppError Response :=
  clients plainHash {} refreshAndLogout oneUser

def loginSteps : List (Pid × Input schema) :=
  steps 0 [.value 1, .value 60, .go, .value 1, .value 10, .value 11,
    .value 100, .value 12, .value 100, .go, .value 13, .value 100, .go, .go]

def refreshSteps : List (Pid × Input schema) :=
  steps 1 [.order [.id 12], .go, .go, .value 200, .go, .value 20,
    .order [.id 12], .go, .go, .value 21, .value 200, .go]

/-- Her logout picks its rows while the refresh has not committed yet. -/
def overtakenLogout : List (Pid × Input schema) :=
  loginSteps ++ refreshSteps ++
    steps 3 [.go, .value 201, .order [.id 12]] ++ steps 1 [.go] ++
    steps 3 [.go, .go, .go]

/-- Without the condition on the `UPDATE`, a session survives its logout. -/
theorem overtakenLogout_leaves_session :
    ¬ ∀ w newer c older F, Reachable oneUserStart w →
      w.log = newer ++ c :: older → Revokes plainHash refreshAndLogout F c →
      Dead F (w.store .authSessions) := by
  intro hclaim
  have hrun : (oneUserStart.run overtakenLogout).any (fun w =>
      (w.log.head?.any fun c => c.pid = 3 ∧
        ∃ x ∈ (c.before .authSessions).rows,
          AuthSession.familyId x = 11 ∧ x.userId = 1) ∧
        ∃ x ∈ (w.store .authSessions).rows, AuthSession.familyId x = 11 ∧
          x.revokedAt = none ∧ x.rotatedAt = none) = true := by
    decide +kernel
  obtain ⟨w, hreach, hhead, x, hx, hF, hlive⟩ := exists_reachable hrun
  obtain ⟨c, hc, hlast⟩ := (Option.any_eq_true _ _).mp hhead
  rw [decide_eq_true_eq] at hlast
  obtain ⟨hpid, y, hy, hyF, huser⟩ := hlast
  obtain ⟨older, hlog⟩ := List.head?_eq_some_iff.mp hc
  refine hclaim w [] c older 11 hreach hlog ⟨y, hy, hyF, ?_⟩ x hx hF hlive
  rw [hpid]
  exact ⟨huser, hyF⟩

/-- The refresh has committed when the logout picks its rows. -/
def lateLogout : List (Pid × Input schema) :=
  loginSteps ++ refreshSteps ++ steps 1 [.go] ++
    steps 3 [.go, .value 201, .order [.id 12, .id 21], .go, .go, .go, .go]

theorem revocation_lasts_lateLogout :
    ∃ w, Reachable oneUserStart w ∧ Dead 11 (w.store .authSessions) := by
  have hrun : (oneUserStart.run lateLogout).any (fun w =>
      (w.log.head?.any fun c => c.pid = 3 ∧
        (∃ x ∈ (c.before .authSessions).rows,
          AuthSession.familyId x = 11 ∧ x.userId = 1) ∧
        (updatedOn c).any fun db => ∀ x ∈ (c.before .authSessions).rows,
          (db .authSessions).lookup (.id (AuthSession.id x)) ≠ none) =
            true) = true := by
    decide +kernel
  obtain ⟨w, hreach, hhead⟩ := exists_reachable hrun
  obtain ⟨c, hc, hlast⟩ := (Option.any_eq_true _ _).mp hhead
  rw [decide_eq_true_eq] at hlast
  obtain ⟨hpid, ⟨y, hy, hyF, huser⟩, hupdated⟩ := hlast
  obtain ⟨db, hdb, hknown⟩ := (Option.any_eq_true _ _).mp hupdated
  rw [decide_eq_true_eq] at hknown
  obtain ⟨older, hlog⟩ : ∃ older, w.log = [] ++ c :: older :=
    List.head?_eq_some_iff.mp hc
  have hrevokes : Revokes plainHash refreshAndLogout 11 c := by
    refine ⟨y, hy, hyF, ?_⟩
    rw [hpid]
    exact ⟨huser, hyF⟩
  refine ⟨w, hreach,
    (revocation_lasts noSessions_oneUser hreach hlog hrevokes ?_).1⟩
  rintro ⟨x, hx, _, _, hnone⟩
  exact hknown x hx (hnone db hdb)

/-- The token is presented again after the refresh. -/
def reusedToken : List (Pid × Input schema) :=
  loginSteps ++ refreshSteps ++ steps 1 [.go] ++
    steps 2 [.order [.id 12], .go, .go, .value 201, .order [.id 12, .id 21],
      .go, .go, .go, .go]

theorem sessions_represented_reusedToken :
    ∃ w, Reachable oneUserStart w ∧ w.log.length = 3 ∧ Represents w.store ∧
      Rotated plainHash 10 w.store ∧
      (∀ d ∈ w.log.head?, ¬ Exchanges refreshAndLogout 10 d) ∧
      AnswersReuse plainHash ⟨10⟩ oneUserStart w 2 ∧
      RevokesNext plainHash {} ⟨10⟩ w.used w.store := by
  have hrun : (oneUserStart.run reusedToken).any (fun w =>
      w.log.length = 3 ∧ (w.log[1]?.any fun c => c.pid = 1 ∧
        ∃ r ∈ (c.after .authSessions).rows,
          (c.before .authSessions).lookup (.id (AuthSession.id r)) =
            none) = true) = true := by
    decide +kernel
  obtain ⟨w, hreach, hlength, hlog⟩ := exists_reachable hrun
  obtain ⟨hrepresents, honce, hreuse, hnext⟩ :=
    sessions_represented noSessions_oneUser hreach
  obtain ⟨d, c, b, hcase⟩ := List.length_eq_three.mp hlength
  rw [hcase] at hlog
  obtain ⟨hpid, hnew⟩ := of_decide_eq_true hlog
  have hexchanges : Exchanges refreshAndLogout 10 c :=
    ⟨⟨10⟩, by rw [hpid]; rfl, rfl, hnew⟩
  obtain ⟨hrotated, hnot⟩ := honce 10 [d] c [b] hcase hexchanges
  refine ⟨w, hreach, hlength, hrepresents, hrotated, ?_, hreuse 2 ⟨10⟩ rfl,
    hnext w.used ⟨10⟩ hrotated⟩
  intro d' hd'
  rw [hcase] at hd'
  exact hnot d' (List.mem_singleton.mpr (Option.some.inj hd').symm)

end Workstream.Auth
