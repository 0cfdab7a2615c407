import Workstream.Modules.Application.Sessions

/-!
# Answers and commits

A request that has answered has committed as often as its endpoint commits, and
one that has raised an error has not committed at all.  The exception is a
refresh that has found its token rotated, or its user inactive: it revokes the
family of the token, commits, and then raises.
-/

namespace Workstream.Application

open ReadCommitted Contract Discipline

/-! ## The commit before an error -/

section Closing

/-- A commit that has closed the family of the token of a refresh.  Its
`UPDATE` has found the family in `db`; all that it has found there is revoked
now, and it has done nothing else. -/
def Closes (H : TokenHash) (body : Auth.RefreshRequest)
    (c : Commit schema) : Prop :=
  ∃ (h : AuthSession) (db : Db) (time : Instant),
    h.refreshTokenHash = H.hash body.refreshToken ∧
    h ∈ (db .authSessions).rows ∧ Auth.updatedOn c = some db ∧
    (∀ x ∈ (db .authSessions).rows, AuthSession.familyId x = h.familyId →
      Auth.RevokedAt (.id (AuthSession.id x)) c.after) ∧
    ∀ x ∈ c.session.writes, ∃ r : AuthSession, r.familyId = h.familyId ∧
      (c.before .authSessions).lookup (.id r.id) = some r ∧
      x = .put .authSessions { r with revokedAt := some time }

/-- Rows of sessions stay. -/
def Lasting (c : Commit schema) : Prop :=
  ∀ (k : Key) (x : AuthSession), (c.before .authSessions).lookup k = some x →
    ∃ y, (c.after .authSessions).lookup k = some y ∧
      Persists .authSessions x y

/-- How often a client has looked at the clock. -/
def clocks (os : List (Obs schema)) : ℕ :=
  os.countP fun o =>
    match o with
    | .answered .now _ => true
    | _ => false

/-- A refresh that commits after its second look at the clock has exchanged its
token; otherwise it has closed the family. -/
def closing (E : Environment) (requests : Pid → Request) :
    Contract schema where
  inv := fun _ => True
  assume := Lasting
  guar := fun c => Lasting c ∧
    ∀ body, requests c.pid = .account (.refresh body) →
      2 ≤ clocks c.session.seen ∨ Closes E.tokens body c
  inv_draw := fun _ _ _ _ => trivial

variable {E : Environment} {requests : Pid → Request} {p : Pid}
  {l : Local schema} {s s' : Shared schema} {α : Type}

theorem persists_closing {k : Key} {x : AuthSession}
    (h : (closing E requests).Rely p l s s')
    (hx : (s.store .authSessions).lookup k = some x) :
    ∃ y, (s'.store .authSessions).lookup k = some y ∧
      Persists .authSessions x y := by
  refine h.induct (P := fun u : Shared schema => ∃ y,
    (u.store .authSessions).lookup k = some y ∧ Persists .authSessions x y)
    ⟨x, hx, Persists.refl .authSessions x⟩ ?_
  rintro u v henv ⟨y, hy, hxy⟩
  cases henv with
  | commit c _ _ _ _ _ hguar =>
      obtain ⟨z, hz, hyz⟩ := hguar.1 k y hy
      exact ⟨z, hz, hxy.trans hyz⟩
  | draw n hn => exact ⟨y, hy, hxy⟩

theorem Persists.family {x y : AuthSession} (h : Persists .authSessions x y) :
    y.familyId = x.familyId := by
  have hfamily := congrArg AuthSession.familyId h.fixed
  exact hfamily

theorem clocks_observe (o : Obs schema) :
    clocks (o :: l.session.seen) =
      clocks l.session.seen + clocks [o] := by
  rw [clocks, List.countP_cons, clocks, clocks, List.countP_singleton]

theorem clocks_kept {t : Table} (rows : List (Row t)) (db : Db)
    (os : List (Obs schema)) :
    clocks ((rows.map (Obs.kept (σ := schema) t)).reverse ++
      .scanning db :: os) = clocks os := by
  have hkept : ((rows.map (Obs.kept (σ := schema) t)).reverse).countP
      (fun o => match o with
        | .answered .now _ => true
        | _ => false) = 0 := by
    rw [List.countP_eq_zero]
    intro o ho
    obtain ⟨r, _, rfl⟩ := List.mem_map.mp (List.mem_reverse.mp ho)
    simp
  rw [clocks, List.countP_append, hkept, Nat.zero_add]
  rfl

/-- An `UPDATE` of a whole family, its commit and the error after it. -/
theorem wp_revokeFamily {body : Auth.RefreshRequest} {h : AuthSession}
    {time : Instant} {e : AppError}
    {Q : Auth.TokenPair → Local schema → Shared schema → Prop}
    (hrequest : requests p = .account (.refresh body))
    (hwrites : l.session.writes = []) (hclocks : clocks l.session.seen ≤ 1)
    (hlock : l.locks (.authSessions, .id h.id))
    (hlook : (s.store .authSessions).lookup (.id h.id) = some h)
    (hdigest : h.refreshTokenHash = E.tokens.hash body.refreshToken) :
    (closing E requests).wp p Q (fun _ l _ => clocks l.session.seen ≤ 1)
      (do
        Auth.revokeWhere (fun s => s.familyId = h.familyId) time
        Prog.commitNow
        .raise e) none l s := by
  have hview : ∀ s' : Shared schema, l.view s' = s'.store := by
    intro s'
    simp [Local.view, Session.view, hwrites]
  simp only [Auth.revokeWhere, bind_assoc, pure_bind]
  refine wp_updateRows_bind ⟨rfl, rfl⟩ (fun _ => rfl) (fun _ _ => False)
    (fun _ _ _ _ _ hk => hk) ?_ ?_
  · intro k s₁ s₂ r hrely _ hr hpred hmiss
    rw [hview] at hr
    obtain ⟨r', hr', hpersists⟩ := persists_closing hrely hr
    have hmissed := hmiss r' ((hview s₂).symm ▸ hr')
    simp [hpersists.family, of_decide_eq_true hpred] at hmissed
  · intro rows l₂ s₁ s₂ ws h₁ _ h₂ _ hup hseen _ hdone
    refine wp_commitNow_bind fun s₃ c h₃ _ hc hassume => ?_
    have hup₃ := hup.rely h₃
    have hclosed : Closes E.tokens body c := by
      refine ⟨h, s₁.store, time, hdigest, ?_, ?_, ?_, ?_⟩
      · exact Relation.mem_of_lookup ((h₁.lookup_eq hlock).trans hlook)
      · rw [Auth.updatedOn, hc.session, hseen, Auth.findSome_scanned, hview]
      · intro x hx hfamily
        have hlookx : (l.view s₁ .authSessions).lookup (.id x.id) = some x := by
          rw [hview]
          exact Relation.lookup_key hx
        obtain ⟨w, hw, href⟩ :=
          (hdone _ x hlookx (by simpa using hfamily)).resolve_left id
        rw [hc.after_eq]
        rcases hup₃.lookup (.id x.id) with ⟨hnot, _⟩ | ⟨r, _, hnew⟩
        · exact absurd href (hnot w hw)
        · exact ⟨_, hnew, by simp⟩
      · intro x hx
        rw [hc.session, hup.grows.writes, hwrites, List.nil_append] at hx
        obtain ⟨r, rfl, _, hr, hpred, _⟩ := hup₃.writes x hx
        rw [hview, ← hc.before] at hr
        exact ⟨r, of_decide_eq_true hpred, hr, rfl⟩
    refine ⟨⟨hassume, fun body' hbody => .inr ?_⟩, trivial,
      wp_raise fun _ _ _ => ?_⟩
    · rw [hc.pid, hrequest] at hbody
      cases hbody
      exact hclosed
    · change clocks (.committed :: l₂.session.seen) ≤ 1
      rw [clocks_observe, hseen, clocks_kept]
      exact hclocks

theorem clocks_suffix {os os' : List (Obs schema)} (h : os <:+ os') :
    clocks os ≤ clocks os' :=
  h.sublist.countP_le

/-- A refresh looks at the clock once more before it exchanges its token. -/
theorem wp_exchange_closing {h : AuthSession} {user : User} {time : Instant}
    {F : AppError → Local schema → Shared schema → Prop}
    (hclocks : 1 ≤ clocks l.session.seen) :
    (closing E requests).wp p (fun _ _ _ => True) F
      (Auth.exchange E.tokens E.settings h user time) none l s := by
  simp only [Auth.exchange]
  refine wp_freshId_bind fun raw s₁ _ _ _ => ?_
  refine wp_updateKey_bind fun l₂ s₂ s₃ h' _ _ _ _ _ _ hg₂ _ => ?_
  refine wp_freshId_bind fun id s₄ _ _ _ => ?_
  refine wp_now_bind fun createdAt s₅ _ _ => ?_
  refine wp_insertOrHalt_bind fun l₆ s₆ _ _ _ hg₆ _ => ?_
  refine wp_commitNow_bind fun s₇ c _ _ hc hassume => ?_
  have htwice : 2 ≤ clocks c.session.seen := by
    have hbefore : 1 ≤ clocks (l₂.draw id).session.seen :=
      hclocks.trans (clocks_suffix hg₂.seen)
    rw [hc.session]
    refine le_trans ?_ (clocks_suffix hg₆.seen)
    change 2 ≤ clocks (.answered .now createdAt :: (l₂.draw id).session.seen)
    rw [clocks_observe]
    exact Nat.succ_le_succ hbefore
  refine ⟨⟨hassume, fun _ _ => .inl htwice⟩, trivial, ?_⟩
  simp only [Auth.pair, Auth.accessToken, bind_assoc, pure_bind]
  refine wp_now_bind fun _ s₈ _ _ => ?_
  exact wp_freshId_bind fun _ s₉ _ _ _ => wp_ret fun _ _ _ => trivial

theorem wp_refresh_closing {body : Auth.RefreshRequest}
    (hrequest : requests p = .account (.refresh body)) :
    (closing E requests).wp p (fun _ _ _ => True)
      (fun _ l _ => clocks l.session.seen ≤ 1)
      (Auth.refresh E.tokens E.settings body) none {} s := by
  simp only [Auth.refresh]
  refine wp_lockSnapshot_bind ⟨rfl, rfl⟩ (fun _ => rfl) (fun _ _ => True)
    (fun _ _ _ _ _ h => h) (fun _ _ _ _ _ _ _ _ _ => trivial) ?_
  intro rows l₁ s₁ s₂ _ _ _ _ hg₁ hseen hrows _
  refine wp_scalarOneOrNone_bind fun o ho => ?_
  refine wp_now_bind fun time s₃ h₃ _ => ?_
  set l₃ := l₁.observe (.answered Call.now time)
  have hg₃ : Grows {} l₃ [] := hg₁.trans (Grows.observe l₁ _)
  have honce : clocks l₃.session.seen = 1 := by
    change clocks (.answered .now time :: l₁.session.seen) = 1
    rw [clocks_observe, hseen, clocks_kept]
    rfl
  refine wp_require_bind (fun h hh => ?_) (fun _ _ => honce.le)
  obtain ⟨hlook, hpred, hlock⟩ := hrows.rely h₃ h (by simp [ho, hh])
  rw [hg₁.view] at hlook
  have hdigest : h.refreshTokenHash = E.tokens.hash body.refreshToken :=
    of_decide_eq_true hpred
  split
  · exact wp_revokeFamily hrequest hg₃.writes honce.le hlock hlook hdigest
  · refine wp_ensure_bind (fun _ => ?_) (fun _ _ => honce.le)
    refine wp_get_bind fun s₄ h₄ _ => ?_
    have honce₄ : clocks (l₃.observe (.saw (l₃.view s₄))).session.seen = 1 := by
      change clocks (.saw _ :: l₃.session.seen) = 1
      rw [clocks_observe, honce]
      rfl
    split
    · exact wp_revokeFamily hrequest hg₃.writes honce₄.le hlock
        ((h₄.lookup_eq hlock).trans hlook) hdigest
    · exact wp_exchange_closing honce₄.ge

/-- A client that is not about to refresh keeps the contract with any commit
that keeps rows. -/
theorem frames_closing
    (hp : ∀ body, requests p ≠ .account (.refresh body)) :
    (closing E requests).Frames p (fun _ => False) := by
  intro l s c _ hc hassume _
  refine ⟨⟨hassume, fun body hbody => ?_⟩, trivial⟩
  rw [hc.pid] at hbody
  exact absurd hbody (hp body)

theorem keeps_closing :
    (closing E requests).wp p (fun _ _ _ => True)
      (fun _ l _ => (∃ body, requests p = .account (.refresh body)) →
        clocks l.session.seen ≤ 1)
      (serve E (requests p)) none {} s := by
  by_cases hp : ∃ body, requests p = .account (.refresh body)
  · obtain ⟨body, hrequest⟩ := hp
    have hprog : serve E (requests p) = Response.account <$>
        Auth.Response.tokens <$> Auth.refresh E.tokens E.settings body := by
      rw [hrequest]
      rfl
    rw [hprog]
    refine wp_mono (Q := fun _ _ _ => True)
      (E := fun _ l _ => clocks l.session.seen ≤ 1) ?_ .none
      (fun _ _ _ _ _ => trivial) (fun _ _ _ _ he _ => he) trivial
    have hwp := wp_refresh_closing (E := E) (s := s) hrequest
    have htokens := wp_map (Q := fun _ _ _ => True)
      (g := Auth.Response.tokens) hwp (fun _ _ _ _ _ _ _ _ => trivial) trivial
    exact wp_map htokens (fun _ _ _ _ _ _ _ _ => trivial) trivial
  · push Not at hp
    have hspares : (duty E (requests p)).Spares fun _ => False :=
      ⟨fun _ h => h, fun _ h => h, fun _ h => h⟩
    refine wp_mono (Q := fun _ _ _ => True) (E := fun _ _ _ => True) ?_ .none
      (fun _ _ _ _ _ => trivial) ?_ trivial
    · exact wp_of_spared hspares (frames_closing hp)
        (follows_serve E (requests p)) (bracketed_serve E (requests p)) rfl
        fun x hx => absurd hx List.not_mem_nil
    · rintro _ _ _ _ _ ⟨body, hbody⟩
      exact absurd hbody (hp body)

end Closing

/-! ## Every run -/

section Runs

variable {E : Environment} {requests : Pid → Request} {s₀ : Db}
  {w : World schema AppError Response}

theorem lasting_of_log (hreach : Reachable (clients E requests s₀) w)
    {c : Commit schema} (hc : c ∈ w.log) : Lasting c := by
  intro k x hx
  have hedits := ((disciplined hreach).log c hc).edits .authSessions k
  rw [hx] at hedits
  have herases : ∀ r : AuthSession, ¬(duty E (requests c.pid)).erases
      (t := .authSessions) r :=
    fun r hr => absurd (mem_erasable hr) (by decide)
  obtain ⟨y, hy, hchain⟩ := hedits.kept herases
  exact ⟨y, hy, .of_eq_or (Persists.of_chain hchain)⟩

theorem sound_closing (hreach : Reachable (clients E requests s₀) w) :
    Sound (closing E requests) (fun _ _ _ _ => True)
      (fun p _ l _ => (∃ body, requests p = .account (.refresh body)) →
        clocks l.session.seen ≤ 1) w :=
  sound trivial (fun _ => keeps_closing) hreach
    fun _ hc => lasting_of_log hreach hc

/-- What has been committed for a request, from what it has answered. -/
structure Atomic (E : Environment) (request : Request)
    (w : World schema AppError Response) (p : Pid) : Prop where
  returned : ∀ a, (w.procs p).prog = .ret a →
    request.commits.Reached (w.commits p)
  raised : ∀ e, (w.procs p).error = some e → w.commits p = 0 ∨
    e.code ∈ request.late ∧ ∃ body, request = .account (.refresh body) ∧
      ∃ c ∈ w.log, c.pid = p ∧ Closes E.tokens body c
  bound : request.commits ≠ .often → w.commits p ≤ 1

theorem exists_refresh {request : Request} {code : String}
    (h : code ∈ request.late) :
    ∃ body, request = .account (.refresh body) := by
  unfold Request.late at h
  split at h
  · exact ⟨_, rfl⟩
  · cases h

/-- Requests are atomic: an answer comes after exactly the commits of its
endpoint, and an error after none, but for a refresh, which may have closed the
family of its token. -/
theorem requests_atomic (hreach : Reachable (clients E requests s₀) w)
    (p : Pid) : Atomic E (requests p) w p where
  returned := by
    intro a ha
    rw [commits_eq_phase hreach]
    exact (disciplined hreach).returned ha
  raised := by
    intro e he
    by_cases hnone : w.commits p = 0
    · exact .inl hnone
    right
    have hlate : e.code ∈ (requests p).late := by
      have hraises := ((disciplined hreach).raised he).2.2
      rw [← commits_eq_phase hreach] at hraises
      exact hraises.resolve_left hnone
    obtain ⟨body, hrequest⟩ := exists_refresh hlate
    obtain ⟨c, hc, hpid⟩ :=
      List.countP_pos_iff.mp (Nat.pos_of_ne_zero hnone)
    obtain rfl : c.pid = p := by simpa using hpid
    have hsound := sound_closing hreach
    refine ⟨hlate, body, hrequest, c, hc, rfl, ?_⟩
    apply ((hsound.guar c hc).2 body hrequest).resolve_left
    obtain ⟨hprog, hguard⟩ := Proc.error_eq_some he
    have honce : clocks (w.session c.pid).seen ≤ 1 :=
      hsound.raised hprog hguard ⟨body, hrequest⟩
    have hseen := clocks_suffix (World.seen_of_log hreach c hc)
    omega
  bound := commits_le_one hreach

end Runs

/-- Carol logs in, and one token of hers is presented twice. -/
def reusedRequests : Pid → Request
  | 0 => .account (.login ⟨"carol@example.org", "secret"⟩ Auth.browser)
  | 1 => .account (.refresh ⟨10⟩)
  | 2 => .account (.refresh ⟨10⟩)
  | _ => .seed

abbrev reusedClients : World schema AppError Response :=
  clients testing reusedRequests Auth.oneUser

/-- The first refresh has answered after its commit, and the second has closed
the family before its error. -/
theorem requests_atomic_reused :
    ∃ w, Reachable reusedClients w ∧ Atomic testing (reusedRequests 1) w 1 ∧
      w.commits 1 = 1 ∧ (w.procs 2).error.isSome = true ∧
      ∃ c ∈ w.log, c.pid = 2 ∧ Closes testing.tokens ⟨10⟩ c := by
  have hrun : (reusedClients.run Auth.reusedToken).any (fun w =>
      (w.procs 2).error.isSome = true ∧ w.commits 1 = 1 ∧
        w.commits 2 ≠ 0) = true := by
    decide +kernel
  obtain ⟨w, hreach, hraised, honce, hcommitted⟩ := exists_reachable hrun
  obtain ⟨e, he⟩ := Option.isSome_iff_exists.mp hraised
  obtain ⟨_, body, hbody, c, hc, hpid, hcloses⟩ :=
    ((requests_atomic hreach 2).raised e he).resolve_left hcommitted
  cases hbody
  exact ⟨w, hreach, requests_atomic hreach 1, honce, hraised, c, hc, hpid,
    hcloses⟩

end Workstream.Application
