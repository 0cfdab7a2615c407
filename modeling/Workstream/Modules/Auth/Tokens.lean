import Workstream.Modules.Auth.Commits
import Workstream.ReadCommitted.Solo

/-!
# One-time tokens

A token acts by marking its row, which it does once: a row that is marked is
never claimed again.
-/

namespace Workstream.Auth

open ReadCommitted Contract World

/-- The requests that present a one-time token. -/
def Request.presents : Request → Bool
  | .verifyEmail _ => true
  | .resetPassword _ => true
  | _ => false

/-- The one-time token with identifier `i`. -/
def oneTimeToken (i : Uuid) (db : Db) : Option OneTimeToken :=
  (db .oneTimeTokens).lookup (.id i)

/-- The commit marks the row of a token that is unused and in time. -/
structure Spends (H : TokenHash) (c : Commit schema) (token : Token)
    (purpose : Purpose) (row : OneTimeToken) (time : Instant) : Prop where
  claimed : Claimed H c token purpose row time
  marked : oneTimeToken row.id c.after = some { row with usedAt := some time }

/-- All that a verification changes besides the mark. -/
structure VerifiesEmail (c : Commit schema) (row : OneTimeToken)
    (time : Instant) : Prop where
  user : ∃ user : User,
    (c.before .users).lookup (.id row.userId) = some user ∧
      (c.after .users).lookup (.id row.userId) =
        some { user with emailVerifiedAt := some time }
  rest : ∀ t k, (t, k) ≠ (Table.users, Key.id row.userId) →
    (t, k) ≠ (Table.oneTimeTokens, Key.id row.id) →
      (c.after t).lookup k = (c.before t).lookup k

/-- The `UPDATE` of a reset, whose snapshot is `db`, sees the session with key
`k` as one of the user's. -/
def Visible (db : Db) (userId : Uuid) (k : Key) : Prop :=
  ∃ x, (db .authSessions).lookup k = some x ∧ AuthSession.userId x = userId

/-- All that a reset changes besides the mark: the password of the user and
the sessions of his that its `UPDATE` sees. -/
structure ResetsPassword (c : Commit schema) (password : String)
    (row : OneTimeToken) (time : Instant) : Prop where
  user : ∃ (user : User) (passwordHash : PasswordHash),
    .answered (.hashPassword password) passwordHash ∈ c.session.seen ∧
      (c.before .users).lookup (.id row.userId) = some user ∧
      (c.after .users).lookup (.id row.userId) =
        some { user with passwordHash }
  sessions : ∃ db, updatedOn c = some db ∧ ∀ k,
    (Visible db row.userId k → ∃ x : AuthSession,
      (c.before .authSessions).lookup k = some x ∧
        (c.after .authSessions).lookup k =
          some { x with revokedAt := some time }) ∧
    (¬ Visible db row.userId k → (c.after .authSessions).lookup k =
      (c.before .authSessions).lookup k)
  rest : ∀ t k, t ≠ Table.authSessions →
    (t, k) ≠ (Table.users, Key.id row.userId) →
    (t, k) ≠ (Table.oneTimeTokens, Key.id row.id) →
      (c.after t).lookup k = (c.before t).lookup k

/-- The commit is the effect of a token, whose row is `row`. -/
inductive ActsOn (H : TokenHash) (request : Request) (c : Commit schema)
    (row : OneTimeToken) : Prop where
  | verified (body : VerifyEmailRequest) (time : Instant)
      (hrequest : request = .verifyEmail body)
      (hspends : Spends H c body.token .verifyEmail row time)
      (heffect : VerifiesEmail c row time)
  | reset (body : PasswordResetConfirm) (time : Instant)
      (hrequest : request = .resetPassword body)
      (hspends : Spends H c body.token .passwordReset row time)
      (heffect : ResetsPassword c body.newPassword row time)

/-- A commit leaves the token `i` alone, issues it, or is its effect. -/
inductive TokenStep (H : TokenHash) (request : Request) (c : Commit schema)
    (i : Uuid) : Prop where
  | same (h : oneTimeToken i c.after = oneTimeToken i c.before)
  | issued (hbefore : oneTimeToken i c.before = none)
  | spent (row : OneTimeToken) (hid : row.id = i)
      (hacts : ActsOn H request c row)

/-! ## Commits -/

section Commits

variable {H : TokenHash} {request : Request} {c : Commit schema}

theorem Evicts.lookup {userId : Uuid} {time : Instant} {db : Db}
    {ws : List (Write schema)} (h : Evicts c userId time db ws)
    (vs : List (Write schema)) (hwrites : c.session.writes = vs ++ ws)
    (hvs : ∀ w ∈ vs, w.ref.1 ≠ Table.authSessions) (k : Key) :
    (Visible db userId k → ∃ x : AuthSession,
      (c.before .authSessions).lookup k = some x ∧
        (c.after .authSessions).lookup k =
          some { x with revokedAt := some time }) ∧
    (¬ Visible db userId k → (c.after .authSessions).lookup k =
      (c.before .authSessions).lookup k) := by
  have hafter : c.after .authSessions =
      Store.view ws (Store.view vs c.before) .authSessions := by
    rw [← Store.view_append, ← hwrites]
    rfl
  have hbefore : Store.view vs c.before .authSessions =
      c.before .authSessions := Store.view_of_table_ne hvs
  have hmap := Store.lookup_view_map (t := Table.authSessions)
    (g := fun x : AuthSession => { x with revokedAt := some time })
    (s := Store.view vs c.before) (fun w (hw : w ∈ ws) => ?_) k
  · rw [hafter]
    constructor
    · rintro ⟨x, hx, howns⟩
      obtain ⟨w, hw, href⟩ := h.snapshot k x hx howns
      rcases hmap with ⟨hnot, _⟩ | ⟨y, hy, hnew⟩
      · exact absurd href (hnot w hw)
      · exact ⟨y, hbefore ▸ hy, hnew⟩
    · intro hnot
      rw [Store.lookup_view_of_not_mem, hbefore]
      intro w hw href
      obtain ⟨j, x, hj, hx, howns⟩ := h.seen w hw
      have hkj : k = j := (Prod.mk.inj (href.symm.trans hj)).2
      exact hnot ⟨x, hkj ▸ hx, howns⟩
  · obtain ⟨x, hx, _, hlook⟩ := h.rows w hw
    exact ⟨x, hx, rfl, hbefore ▸ hlook⟩

/-- Every request that presents a token commits the effect of one. -/
theorem Effects.actsOn (h : Effects H request c)
    (hpresents : request.presents) : ∃ row, ActsOn H request c row := by
  cases h with
  | @verified body _ row time user hclaimed huser hwrites =>
      have hid := Key.id.inj (Relation.key_of_lookup huser)
      refine ⟨row, .verified body time rfl ⟨hclaimed, ?_⟩ ⟨?_, ?_⟩⟩
      · exact lookup_after_put [_] hwrites (by simp)
      · refine ⟨user, huser, ?_⟩
        rw [← hid]
        exact lookup_after_put [] hwrites (by simp [Write.ref])
      · intro t k huser htoken
        refine lookup_after_of_writes ?_
        simp only [hwrites, List.mem_cons, List.not_mem_nil, or_false,
          forall_eq_or_imp, forall_eq]
        rw [← hid] at huser
        exact ⟨Ne.symm huser, Ne.symm htoken⟩
  | @reset body _ row time user passwordHash db ws hclaimed huser hcall
      hupdated hevicts hwrites =>
      have hid := Key.id.inj (Relation.key_of_lookup huser)
      have hother : ∀ w ∈ ws, ∀ t k, t ≠ Table.authSessions →
          w.ref ≠ (t, k) := by
        rintro w hw t k ht href
        rw [← hevicts.ref w hw, href] at ht
        exact ht rfl
      refine ⟨row, .reset body time rfl ⟨hclaimed, ?_⟩ ⟨?_, ?_, ?_⟩⟩
      · exact lookup_after_put [_] hwrites
          fun w hw => hother w hw _ _ (by simp)
      · refine ⟨user, passwordHash, hcall, huser, ?_⟩
        rw [← hid]
        refine lookup_after_put [] hwrites fun w hw => ?_
        rcases List.mem_cons.mp hw with rfl | hw
        · simp [Write.ref]
        · exact hother w hw _ _ (by simp)
      · exact ⟨db, hupdated, hevicts.lookup [_, _] hwrites
          (by simp [Write.ref])⟩
      · intro t k ht huser htoken
        refine lookup_after_of_writes fun w hw => ?_
        rw [hwrites, List.mem_cons, List.mem_cons] at hw
        rw [← hid] at huser
        rcases hw with rfl | rfl | hw
        · exact Ne.symm huser
        · exact Ne.symm htoken
        · exact hother w hw t k ht
  | _ => cases hpresents

theorem ActsOn.spends {row : OneTimeToken} (h : ActsOn H request c row) :
    ∃ token purpose time, Spends H c token purpose row time := by
  cases h with
  | verified body time _ hspends => exact ⟨_, _, time, hspends⟩
  | reset body time _ hspends => exact ⟨_, _, time, hspends⟩

theorem ActsOn.stored {row : OneTimeToken} (h : ActsOn H request c row) :
    oneTimeToken row.id c.before = some row := by
  obtain ⟨_, _, _, hspends⟩ := h.spends
  exact hspends.claimed.stored

theorem ActsOn.unused {row : OneTimeToken} (h : ActsOn H request c row) :
    row.usedAt = none := by
  obtain ⟨_, _, _, hspends⟩ := h.spends
  exact hspends.claimed.unused

theorem ActsOn.marked {row : OneTimeToken} (h : ActsOn H request c row) :
    ∃ time, readNow c = some time ∧
      oneTimeToken row.id c.after = some { row with usedAt := some time } := by
  obtain ⟨_, _, time, hspends⟩ := h.spends
  exact ⟨time, hspends.claimed.clock, hspends.marked⟩

/-- A token that is issued is new. -/
theorem Issued.tokenStep {user : User} {purpose : Purpose} {topic : String}
    {ws : List (Write schema)} (h : Issued H c user purpose topic ws)
    (hrest : ∀ w ∈ c.session.writes, w ∉ ws →
      w.ref.1 ≠ Table.oneTimeTokens) (i : Uuid) :
    TokenStep H request c i := by
  cases h with
  | issued raw id eventId expiresAt time _ htoken _ =>
      by_cases hid : id = i
      · exact .issued (hid ▸ htoken)
      · refine .same (lookup_after_of_writes fun w hw href => ?_)
        by_cases hmem : w ∈ [.put .oneTimeTokens
            (issuedToken H user.id purpose id raw expiresAt),
          .put .outboxEvents (tokenEvent user topic raw eventId time)]
        · rcases List.mem_pair.mp hmem with rfl | rfl
          · exact hid (Key.id.inj (Prod.mk.inj href).2)
          · simp [Write.ref] at href
        · exact hrest w hw hmem (congrArg Prod.fst href)

theorem Effects.tokenStep (h : Effects H request c) (i : Uuid) :
    TokenStep H request c i := by
  have hspent : request.presents = true → TokenStep H request c i := by
    intro hpresents
    obtain ⟨row, hacts⟩ := h.actsOn hpresents
    by_cases hid : row.id = i
    · exact .spent row hid hacts
    · have hne : (Table.oneTimeTokens, Key.id i) ≠
          (Table.oneTimeTokens, Key.id row.id) := by
        simpa using fun heq => hid (Eq.symm heq)
      cases hacts with
      | verified body time _ _ heffect =>
          exact .same (heffect.rest _ _ (by simp) hne)
      | reset body time _ _ heffect =>
          exact .same (heffect.rest _ _ (by simp) (by simp) hne)
  cases h with
  | registered user ws event _ _ hissued hwrites =>
      refine hissued.tokenStep (fun w hw hnot => ?_) i
      rw [hwrites, List.cons_append, List.mem_cons, List.mem_append,
        List.mem_singleton] at hw
      rcases hw with rfl | hw | rfl
      · simp [Write.ref]
      · exact absurd hw hnot
      · simp [Write.ref]
  | loggedIn db user verified r event _ _ _ _ _ _ _ _ hwrites =>
      exact .same (lookup_after_of_writes (by simp [hwrites, Write.ref]))
  | resent user owner _ _ hissued =>
      exact hissued.tokenStep (fun w hw hnot => absurd hw hnot) i
  | requested user owner _ _ hissued =>
      exact hissued.tokenStep (fun w hw hnot => absurd hw hnot) i
  | verified => exact hspent rfl
  | reset => exact hspent rfl

/-- The row of a token stays as it is, unless the token acts. -/
theorem Effects.stays_or_acts (h : Effects H request c) {i : Uuid}
    {row : OneTimeToken} (hrow : oneTimeToken i c.before = some row) :
    oneTimeToken i c.after = some row ∨ ActsOn H request c row := by
  cases h.tokenStep i with
  | same h => exact Or.inl (h.trans hrow)
  | issued hnone =>
      rw [hnone] at hrow
      cases hrow
  | spent row' hid hacts =>
      have hstored := hacts.stored
      rw [hid, hrow] at hstored
      obtain rfl := Option.some.inj hstored
      exact Or.inr hacts

/-- A token that has been used stays as it is. -/
theorem Effects.stays_used (h : Effects H request c) {i : Uuid}
    {row : OneTimeToken} (hrow : oneTimeToken i c.before = some row)
    (hused : row.usedAt ≠ none) : oneTimeToken i c.after = some row := by
  rcases h.stays_or_acts hrow with hstays | hacts
  · exact hstays
  · exact absurd hacts.unused hused

end Commits

/-! ## Every run -/

section Runs

variable {H : TokenHash} {settings : Settings} {requests : Pid → Request}
  {s₀ db : Db} {log : List (Commit schema)}

/-- Effects have different tokens, whose rows keep their marks. -/
theorem actsOn_of_chain (h : Chain s₀ log db)
    (heffects : ∀ c ∈ log, Effects H (requests c.pid) c) :
    (log.Pairwise fun d c => ∀ r r', ActsOn H (requests c.pid) c r →
      ActsOn H (requests d.pid) d r' → r.id ≠ r'.id) ∧
    ∀ c ∈ log, ∀ r, ActsOn H (requests c.pid) c r → ∃ time,
      readNow c = some time ∧
        oneTimeToken r.id db = some { r with usedAt := some time } := by
  refine h.induction heffects (P := fun log (s : Db) =>
    (log.Pairwise fun d c => ∀ r r', ActsOn H (requests c.pid) c r →
      ActsOn H (requests d.pid) d r' → r.id ≠ r'.id) ∧
    ∀ c ∈ log, ∀ r, ActsOn H (requests c.pid) c r → ∃ time,
      readNow c = some time ∧
        oneTimeToken r.id s = some { r with usedAt := some time })
    ⟨List.Pairwise.nil, by simp⟩ ?_
  rintro d older hd ⟨hpairs, hmarked⟩
  constructor
  · refine List.pairwise_cons.mpr ⟨fun c hc r r' hr hr' hid => ?_, hpairs⟩
    obtain ⟨time, _, hused⟩ := hmarked c hc r hr
    have hstored := hr'.stored
    rw [← hid, hused] at hstored
    have hunused := hr'.unused
    rw [← Option.some.inj hstored] at hunused
    cases hunused
  · intro c hc r hr
    rcases List.mem_cons.mp hc with rfl | hc
    · exact hr.marked
    · obtain ⟨time, hclock, hused⟩ := hmarked c hc r hr
      exact ⟨time, hclock, hd.stays_used hused (by simp)⟩

/-- A token acts once, in time and on its owner; the mark of its row is all
that changes of a row, and a refused request commits nothing. -/
theorem tokens_act_once (H : TokenHash) (settings : Settings)
    (requests : Pid → Request) (hrequests : ∀ p, (requests p).account)
    {s₀ : Db} {w : World schema AppError Response}
    (hreach : Reachable (clients H settings requests s₀) w) :
    (∀ c ∈ w.log, (requests c.pid).presents →
      ∃ row, ActsOn H (requests c.pid) c row) ∧
    (w.log.Pairwise fun d c => ∀ r r', ActsOn H (requests c.pid) c r →
      ActsOn H (requests d.pid) d r' → r.id ≠ r'.id) ∧
    (∀ c ∈ w.log, ∀ row, ActsOn H (requests c.pid) c row → ∃ time,
      readNow c = some time ∧
        oneTimeToken row.id w.store = some { row with usedAt := some time }) ∧
    (∀ c ∈ w.log, ∀ i row, oneTimeToken i c.before = some row →
      oneTimeToken i c.after = some row ∨ ActsOn H (requests c.pid) c row) ∧
    ∀ p, (w.procs p).error = some invalidToken →
      ∀ c ∈ w.log, c.pid ≠ p := by
  have hsound := sound_accounts hrequests hreach
  have hwf := wellFormed_of_reachable hreach
  obtain ⟨honce, hmarked⟩ := actsOn_of_chain hwf.chain hsound.guar
  refine ⟨?_, honce, hmarked, ?_, ?_⟩
  · intro c hc hpresents
    have heffects : Effects H (requests c.pid) c := hsound.guar c hc
    exact heffects.actsOn hpresents
  · intro c hc i row hrow
    have heffects : Effects H (requests c.pid) c := hsound.guar c hc
    exact heffects.stays_or_acts hrow
  · rintro p herror c hc rfl
    obtain ⟨hraised, hguard⟩ := Proc.error_eq_some herror
    have hunwritten := hsound.raised hraised hguard
    exact hunwritten.2 (hwf.observed c hc)

end Runs

/-! ## A run with one token -/

/-- Carol asks for a reset, and two requests present her token. -/
def resetTwice : Pid → Request
  | 0 => .requestReset ⟨"carol@example.org"⟩ browser
  | _ => .resetPassword ⟨10, "renewed"⟩

def resetTwiceSteps : List (Pid × Input schema) :=
  steps 0 [.value 1, .value 60, .go, .value 10, .value 100, .value 11, .go,
      .value 12, .value 100, .go, .go] ++
    steps 1 [.order [.id 11]] ++ steps 2 [.order [.id 11]] ++
    steps 1 [.go, .go, .value 200, .go, .value 77, .order [.id 1], .go, .go,
      .order [.id 11], .go, .go, .order [], .go, .go] ++
    steps 2 [.go, .go, .value 201]

/-- One of the two is answered, and the other one is refused. -/
theorem tokens_act_once_resetTwice :
    ∃ w, Reachable (clients plainHash {} resetTwice oneUser) w ∧
      (∃ c ∈ w.log, ∃ row, ActsOn plainHash (resetTwice c.pid) c row) ∧
      (w.procs 2).error = some invalidToken ∧ ∀ c ∈ w.log, c.pid ≠ 2 := by
  have hrun : ((clients plainHash {} resetTwice oneUser).run
      resetTwiceSteps).any (fun w => (∃ c ∈ w.log, c.pid = 1) ∧
        (w.procs 2).error = some invalidToken) = true := by
    decide +kernel
  obtain ⟨w, hreach, ⟨c, hc, hpid⟩, herror⟩ := exists_reachable hrun
  have hrequests : ∀ p, (resetTwice p).account := by
    rintro (_ | p) <;> rfl
  obtain ⟨hacts, _, _, _, hrefused⟩ :=
    tokens_act_once plainHash {} resetTwice hrequests hreach
  refine ⟨w, hreach, ⟨c, hc, hacts c hc ?_⟩, herror, hrefused 2 herror⟩
  rw [hpid]
  rfl

end Workstream.Auth
