import Workstream.Modules.Auth.Families

/-!
# Revoking session families

Every commit of an authentication endpoint changes the session rows as
`SessionChange` says, and a commit that revokes leaves every row revoked that
its `UPDATE` had in its snapshot.
-/

namespace Workstream.Auth

open ReadCommitted Contract

/-- The rows that a revoking request means, in the store on which it commits.
A refresh means a family if its token has been rotated. -/
def Targets (H : TokenHash) (request : Request) (db : Db)
    (x : AuthSession) : Prop :=
  match request with
  | .logout (.claims userId sessionId) =>
      x.userId = userId ∧ x.familyId = sessionId
  | .revokeSession sessionId (.claims userId _) =>
      x.familyId = sessionId ∧ x.userId = userId
  | .revokeAll (.claims userId _) => x.userId = userId
  | .resetPassword body => ∃ t ∈ (db .oneTimeTokens).rows,
      OneTimeToken.tokenHash t = H.hash body.token ∧
        t.purpose = .passwordReset ∧ x.userId = t.userId
  | .refresh body => ∃ y ∈ (db .authSessions).rows,
      AuthSession.refreshTokenHash y = H.hash body.refreshToken ∧
        y.rotatedAt ≠ none ∧ x.familyId = y.familyId
  | _ => False

/-- The snapshot from which a locking statement has picked its rows. -/
def scanned : Obs schema → Option Db
  | .scanning db => some db
  | _ => none

/-- The snapshot of the last locking statement of a transaction. -/
def updatedOn (c : Commit schema) : Option Db :=
  c.session.seen.findSome? scanned

theorem findSome_scanned {t : Table} (rows : List (schema.Row t)) (db : Db)
    (seen : List (Obs schema)) :
    ((rows.map (Obs.kept (σ := schema) t)).reverse ++
      .scanning db :: seen).findSome? scanned = some db := by
  have hnone : (rows.map (Obs.kept (σ := schema) t)).reverse.findSome?
      scanned = none := by
    rw [List.findSome?_eq_none_iff]
    intro o ho
    obtain ⟨r, _, rfl⟩ := List.mem_map.mp (List.mem_reverse.mp ho)
    rfl
  rw [List.findSome?_append, hnone]
  rfl

/-! ## The contract -/

structure SessionGuarantee (H : TokenHash) (request : Request)
    (c : Commit schema) : Prop where
  families : Families (c.before .authSessions)
  change : SessionChange H request (c.before .authSessions)
    (c.after .authSessions)
  opened : ∀ y ∈ (c.after .authSessions).rows,
    (∃ x ∈ (c.before .authSessions).rows,
      AuthSession.familyId x = AuthSession.familyId y) ∨
    AuthSession.familyId y ∈ c.session.ids
  revokes : ∀ x ∈ (c.before .authSessions).rows,
    Targets H request c.before x → ∃ db, updatedOn c = some db ∧
      ((db .authSessions).lookup (.id (AuthSession.id x)) ≠ none →
        ∃ y, (c.after .authSessions).lookup (.id (AuthSession.id x)) =
          some y ∧ AuthSession.revokedAt y ≠ none)

structure SessionsOk (s : Shared schema) : Prop where
  families : Families (s.store .authSessions)
  used : ∀ x ∈ (s.store .authSessions).rows,
    AuthSession.familyId x ∈ s.used

def sessionContract (H : TokenHash) (requests : Pid → Request) :
    Contract schema where
  inv := SessionsOk
  assume := fun c => c.before.Unique ∧ c.after.Unique
  guar := fun c => SessionGuarantee H (requests c.pid) c
  inv_draw := fun _ n _ h =>
    ⟨h.families, fun x hx => List.mem_cons_of_mem n (h.used x hx)⟩

section Stability

variable {H : TokenHash} {requests : Pid → Request} {p : Pid}
  {l : Local schema} {s s' : Shared schema}

/-- Rows stay, whoever commits. -/
theorem persists_rely (h : (sessionContract H requests).Rely p l s s')
    {x : AuthSession} (hx : x ∈ (s.store .authSessions).rows) :
    ∃ y, (s'.store .authSessions).lookup (.id x.id) = some y ∧
      Persists x y := by
  refine h.induct (P := fun u : Shared schema =>
    ∃ y, (u.store .authSessions).lookup (.id x.id) = some y ∧ Persists x y)
    ⟨x, mem_sessions_iff.mp hx, .refl x⟩ ?_
  rintro u v henv ⟨y, hy, hxy⟩
  cases henv with
  | commit c _ _ _ _ _ hguar =>
      have hmem := Relation.mem_of_lookup hy
      obtain ⟨z, hz, hyz⟩ := hguar.change.persists hmem
      exact ⟨z, hxy.id ▸ hz, hxy.trans hyz⟩
  | draw => exact ⟨y, hy, hxy⟩

/-- Nobody else opens the family that we have drawn. -/
theorem family_rely (h : (sessionContract H requests).Rely p l s s')
    {F : Uuid} (hF : F ∈ l.session.ids)
    (hnone : ∀ x ∈ (s.store .authSessions).rows,
      AuthSession.familyId x ≠ F) :
    ∀ x ∈ (s'.store .authSessions).rows, AuthSession.familyId x ≠ F := by
  refine h.induct (P := fun u : Shared schema =>
    ∀ x ∈ (u.store .authSessions).rows,
    AuthSession.familyId x ≠ F) hnone ?_
  intro u v henv hu
  cases henv with
  | commit c _ _ _ hids _ hguar =>
      intro y hy hyF
      rcases hguar.opened y hy with ⟨x, hx, hxy⟩ | hmem
      · exact hu x hx (hxy.trans hyF)
      · exact hids F (hyF ▸ hmem) hF
  | draw => exact hu

end Stability

/-! ## Commits that keep the contract -/

section Commits

variable {H : TokenHash} {requests : Pid → Request} {p : Pid}
  {l : Local schema} {s : Shared schema} {c : Commit schema}

/-- The invariant after a commit follows from its guarantee. -/
theorem sessionsOk_after (hinv : SessionsOk s) (hc : Makes p l s c)
    (hguar : SessionGuarantee H (requests c.pid) c) :
    SessionsOk ⟨c.after, s.used⟩ where
  families := hguar.families.change hguar.change
  used := by
    intro y hy
    rcases hguar.opened y hy with ⟨x, hx, hxy⟩ | hmem
    · rw [← hxy]
      rw [hc.before] at hx
      exact hinv.used x hx
    · exact hc.ids _ hmem

/-- The writes leave the session rows alone. -/
def Quiet (ws : List (Write schema)) : Prop :=
  ∀ x ∈ ws, x.ref.1 ≠ .authSessions

theorem Quiet.lookup {ws : List (Write schema)} (h : Quiet ws) (db : Db)
    (k : Key) : (Store.view ws db .authSessions).lookup k =
      (db .authSessions).lookup k :=
  Store.lookup_view_of_not_mem fun x hx href =>
    h x hx (congrArg Prod.fst href)

/-- Revoked rows are all that changes. -/
theorem guarantee_of_revoked (time : Instant) (hinv : SessionsOk s)
    (hc : Makes p l s c)
    (hafter : ∀ k, (c.after .authSessions).lookup k =
        (c.before .authSessions).lookup k ∨
      ∃ r : AuthSession, (c.before .authSessions).lookup k = some r ∧
        (c.after .authSessions).lookup k =
          some { r with revokedAt := some time })
    (hrevokes : ∀ x ∈ (c.before .authSessions).rows,
      Targets H (requests c.pid) c.before x → ∃ db, updatedOn c = some db ∧
        ((db .authSessions).lookup (.id (AuthSession.id x)) ≠ none →
          ∃ y, (c.after .authSessions).lookup (.id (AuthSession.id x)) =
            some y ∧ AuthSession.revokedAt y ≠ none)) :
    SessionGuarantee H (requests c.pid) c where
  families := by
    rw [hc.before]
    exact hinv.families
  change := .revoked time hafter
  opened := by
    intro y hy
    left
    have hlook := mem_sessions_iff.mp hy
    rcases hafter (.id y.id) with hsame | ⟨r, hr, hry⟩
    · rw [hsame] at hlook
      exact ⟨y, mem_sessions_iff.mpr hlook, rfl⟩
    · rw [hry] at hlook
      obtain rfl := Option.some.inj hlook
      exact ⟨r, mem_sessions_iff.mpr hr, rfl⟩
  revokes := hrevokes

theorem guarantee_of_quiet (hinv : SessionsOk s) (hc : Makes p l s c)
    (hquiet : Quiet l.session.writes)
    (htargets : ∀ db x, ¬ Targets H (requests p) db x) :
    SessionGuarantee H (requests c.pid) c := by
  refine guarantee_of_revoked 0 hinv hc (fun k => Or.inl ?_) ?_
  · rw [hc.after_eq, hc.before]
    exact hquiet.lookup s.store k
  · intro x _ htarget
    rw [hc.pid] at htarget
    exact absurd htarget (htargets _ x)

/-- A row that has been inserted and kept locked is new when it commits. -/
theorem newRow_of_after {r : AuthSession}
    (hassume : c.before.Unique ∧ c.after.Unique)
    (hkey : (c.before .authSessions).lookup (.id r.id) = none)
    (hr : (c.after .authSessions).lookup (.id r.id) = some r)
    (hrot : r.rotatedAt = none)
    (hpersist : ∀ x ∈ (c.before .authSessions).rows, ∃ y,
      (c.after .authSessions).lookup (.id (AuthSession.id x)) = some y ∧
        AuthSession.refreshTokenHash y = AuthSession.refreshTokenHash x) :
    NewRow (c.before .authSessions) r where
  key := hkey
  unrotated := hrot
  digest := by
    intro x hx hdigest
    obtain ⟨y, hy, hyx⟩ := hpersist x hx
    have hsame := hassume.2 .authSessions y (Relation.mem_of_lookup hy) r
      (Relation.mem_of_lookup hr) (.tokenHash r.refreshTokenHash)
      (by simp [uniqueEntries, hyx, hdigest]) (by simp [uniqueEntries])
    have hid : Key.id x.id = .id r.id :=
      (Relation.key_of_lookup hy).symm.trans hsame
    have hlook := mem_sessions_iff.mp hx
    rw [hid, hkey] at hlook
    cases hlook

end Commits

theorem lookup_put_sessions (R : SessionTable) (r : AuthSession) (k : Key) :
    (R.put r).lookup k = if k = .id r.id then some r else R.lookup k :=
  R.lookup_put r k

/-! ## The revoking `UPDATE` -/

section Revoking

variable {H : TokenHash} {requests : Pid → Request} {p : Pid} {α : Type}
  {Q : α → Local schema → Shared schema → Prop}
  {E : AppError → Local schema → Shared schema → Prop}
  {l : Local schema} {s : Shared schema}

theorem Quiet.view {s' : Shared schema} (h : Quiet l.session.writes)
    (k : Key) : (l.view s' .authSessions).lookup k =
      (s'.store .authSessions).lookup k :=
  h.lookup s'.store k

/-- The row with key `k` is revoked. -/
def RevokedAt (k : Key) (db : Db) : Prop :=
  ∃ y : AuthSession, (db .authSessions).lookup k = some y ∧
    y.revokedAt ≠ none

theorem RevokedAt.rely {s' : Shared schema} {k : Key}
    (h : RevokedAt k s.store)
    (hrely : (sessionContract H requests).Rely p l s s') :
    RevokedAt k s'.store := by
  obtain ⟨y, hy, hrev⟩ := h
  obtain ⟨z, hz, hyz⟩ := persists_rely hrely (Relation.mem_of_lookup hy)
  have hkey : Key.id y.id = k := Relation.key_of_lookup hy
  exact ⟨z, hkey ▸ hz, hyz.revoked hrev⟩

/-- `l` has committed after an `UPDATE` that picked its rows from `db`. -/
structure UpdatedOn (db : Db) (l l' : Local schema) : Prop where
  committed : l'.session.seen.head? = some .committed
  scanned : l'.session.seen.findSome? scanned = some db
  seen : l.session.seen <:+ l'.session.seen

/-- A revoking statement and its commit, for a predicate that means the rows
`base` and may leave out revoked ones. -/
theorem wp_revoke_commit_bind (base : AuthSession → Prop)
    {pred : AuthSession → Bool} {time : Instant} {f : Unit → Tx α}
    (hquiet : Quiet l.session.writes)
    (hbase : ∀ x y, Persists x y → (base x ↔ base y))
    (hpred : ∀ x, pred x = true → base x)
    (hskip : ∀ x, base x → pred x = false → x.revokedAt ≠ none)
    (htargets : ∀ s', (sessionContract H requests).Rely p l s s' →
      s'.store.Unique → SessionsOk s' →
      ∀ x ∈ (s'.store .authSessions).rows,
        Targets H (requests p) s'.store x → base x)
    (h : ∀ l' s₁ s', (sessionContract H requests).Rely p l s s₁ →
      SessionsOk s₁ → UpdatedOn (l.view s₁) l l' →
      (∀ x ∈ (l.view s₁ .authSessions).rows, base x →
        RevokedAt (.id (AuthSession.id x)) s'.store) →
      (sessionContract H requests).wp p Q E (f ()) none l' s') :
    (sessionContract H requests).wp p Q E
      (revokeWhere pred time >>= fun _ => Prog.commitNow >>= f) none l s := by
  simp only [revokeWhere, bind_assoc, pure_bind]
  refine wp_updateRows_bind ⟨rfl, rfl⟩ (fun _ => rfl)
    (fun k s' => RevokedAt k s'.store) ?_ ?_ ?_
  · intro k s₁ s₂ hrely _ hk
    exact RevokedAt.rely hk hrely
  · intro k s₁ s₂ x hrely _ hx hpredx hmiss
    rw [hquiet.view] at hx
    obtain ⟨y, hy, hxy⟩ := persists_rely hrely (Relation.mem_of_lookup hx)
    have hkey : Key.id x.id = k := Relation.key_of_lookup hx
    rw [hkey] at hy
    refine ⟨y, hy, hskip y ((hbase x y hxy).mp (hpred x hpredx)) ?_⟩
    exact hmiss y ((hquiet.view k).trans hy)
  · intro rows l₂ s₁ s₂ ws h₁ hinv₁ h₂ hinv₂ hup hseen _ hdone
    refine wp_commitNow_bind fun s₃ c h₃ hinv₃ hc hassume => ?_
    have hup₃ := hup.rely h₃
    have hrely₃ := h₃.of_grows hup.grows
    have hstore : c.before = s₃.store := hc.before
    have hafter : ∀ k, (∀ w ∈ ws, w.ref ≠ (Table.authSessions, k)) ∧
        (c.after .authSessions).lookup k =
          (c.before .authSessions).lookup k ∨
        ∃ r : AuthSession, (c.before .authSessions).lookup k = some r ∧
          (c.after .authSessions).lookup k =
            some { r with revokedAt := some time } := by
      intro k
      rw [hc.after_eq, hstore]
      rcases hup₃.lookup k with ⟨hnot, hsame⟩ | ⟨r, hr, hnew⟩
      · exact Or.inl ⟨hnot, hsame.trans (hquiet.view k)⟩
      · exact Or.inr ⟨r, (hquiet.view k).symm.trans hr, hnew⟩
    have hrevoked : ∀ x ∈ (l.view s₁ .authSessions).rows, base x →
        RevokedAt (.id (AuthSession.id x)) c.after := by
      intro x hx hbasex
      have hlook := mem_sessions_iff.mp hx
      have hlast : RevokedAt (.id x.id) s₂.store ∨
          ∃ w ∈ ws, w.ref = (Table.authSessions, Key.id x.id) := by
        by_cases hp : pred x = true
        · exact hdone _ x hlook hp
        · left
          have hrev : RevokedAt (.id x.id) s₁.store :=
            ⟨x, (hquiet.view _).symm.trans hlook,
              hskip x hbasex (by simpa using hp)⟩
          exact hrev.rely h₂
      rcases hafter (.id x.id) with ⟨hnot, hsame⟩ | ⟨r, _, hnew⟩
      · rcases hlast with hrev | ⟨w, hw, href⟩
        · obtain ⟨y, hy, hyrev⟩ := hrev.rely hrely₃
          exact ⟨y, hsame.trans (hstore ▸ hy), hyrev⟩
        · exact absurd href (hnot w hw)
      · exact ⟨_, hnew, by simp⟩
    have hguar : SessionGuarantee H (requests c.pid) c := by
      refine guarantee_of_revoked time hinv₃ hc
        (fun k => (hafter k).imp And.right id) ?_
      intro x hx htarget
      refine ⟨l.view s₁, ?_, fun hknown => ?_⟩
      · rw [updatedOn, hc.session, hseen, findSome_scanned]
      · obtain ⟨x', hx'⟩ := Option.ne_none_iff_exists'.mp hknown
        have hid : x'.id = x.id := Key.id.inj (Relation.key_of_lookup hx')
        have hx₁ := hx'
        rw [hquiet.view] at hx₁
        obtain ⟨y, hy, hxy⟩ := persists_rely (h₂.trans hrely₃)
          (Relation.mem_of_lookup hx₁)
        rw [hstore] at hx
        obtain rfl : y = x := by
          rw [hid, mem_sessions_iff.mp hx] at hy
          exact (Option.some.inj hy).symm
        rw [hc.pid, hstore] at htarget
        have hbasex := htargets s₃ (h₁.trans (h₂.trans hrely₃))
          (hstore ▸ hassume.1) hinv₃ y hx htarget
        have hgoal := hrevoked x' (Relation.mem_of_lookup hx')
          ((hbase x' y hxy).mpr hbasex)
        rw [hid] at hgoal
        exact hgoal
    refine ⟨hguar, sessionsOk_after hinv₃ hc hguar, ?_⟩
    refine h _ s₁ _ h₁ hinv₁ ⟨rfl, ?_, ?_⟩ hrevoked
    · simp only [Local.committed, Session.observe, Session.discard, hseen]
      exact findSome_scanned rows (l.view s₁) l.session.seen
    · simp only [Local.committed, Session.observe, Session.discard, hseen]
      exact ((List.suffix_cons _ _).trans (List.suffix_append _ _)).trans
        (List.suffix_cons _ _)

end Revoking

/-! ## The endpoints -/

section Endpoints

variable {H : TokenHash} {settings : Settings} {requests : Pid → Request}
  {p : Pid} {α : Type} {l : Local schema} {s : Shared schema}

/-- Weakest preconditions for the contract, without a claim on results. -/
abbrev Keeping (H : TokenHash) (requests : Pid → Request) (p : Pid)
    (prog : Tx α) (l : Local schema) (s : Shared schema) : Prop :=
  (sessionContract H requests).wp p (fun _ _ _ => True) (fun _ _ _ => True)
    prog none l s

theorem keeping_ret {a : α} : Keeping H requests p (pure a) l s :=
  wp_ret fun _ _ _ => trivial

/-- The rows of a one-time token and of its event are all that is written. -/
theorem keeping_issueToken_bind {user : User} {purpose : Purpose}
    {topic : String} {lifetime : Instant} {f : Unit → Tx α}
    (h : ∀ l' s' (token : OneTimeToken) (event : OutboxEvent),
      Grows l l' [.put .oneTimeTokens token, .put .outboxEvents event] →
      Keeping H requests p (f ()) l' s') :
    Keeping H requests p
      (issueToken H user purpose topic lifetime >>= f) l s := by
  simp only [issueToken, bind_assoc]
  refine wp_freshId_bind fun raw s₁ _ _ _ => ?_
  refine wp_now_bind fun τ s₂ _ _ => ?_
  refine wp_freshId_bind fun id s₃ _ _ _ => ?_
  refine wp_insertOrHalt_bind fun l₄ s₄ _ _ _ hg₄ _ => ?_
  refine wp_freshId_bind fun eventId s₅ _ _ _ => ?_
  refine wp_now_bind fun occurredAt s₆ _ _ => ?_
  refine wp_insertOrHalt_bind fun l₇ s₇ _ _ _ hg₇ _ => ?_
  have hbefore := ((Grows.draw l raw).trans
    (Grows.observe _ (.answered Call.now τ))).trans (Grows.draw _ id)
  have hbetween := (Grows.draw l₄ eventId).trans
    (Grows.observe _ (.answered Call.now occurredAt))
  exact h l₇ s₇ _ _ ((hbefore.trans hg₄).trans (hbetween.trans hg₇))

theorem keeping_commit_quiet_bind {f : Unit → Tx α}
    (hquiet : Quiet l.session.writes)
    (htargets : ∀ db x, ¬ Targets H (requests p) db x)
    (h : ∀ l s, Keeping H requests p (f ()) l s) :
    Keeping H requests p (Prog.commitNow >>= f) l s := by
  refine wp_commitNow_bind fun s' c _ hinv hc _ => ?_
  have hguar := guarantee_of_quiet hinv hc hquiet htargets
  exact ⟨hguar, sessionsOk_after hinv hc hguar, h _ _⟩

theorem keeping_commit_quiet (hquiet : Quiet l.session.writes)
    (htargets : ∀ db x, ¬ Targets H (requests p) db x) :
    Keeping H requests p Prog.commitNow l s := by
  rw [← bind_pure Prog.commitNow]
  exact keeping_commit_quiet_bind hquiet htargets fun _ _ => keeping_ret

/-- A one-time token stays locked, so that it is still the row of its hash
when the request commits. -/
theorem keeping_claimToken_bind {token : Token} {purpose : Purpose}
    {f : OneTimeToken × Instant → Tx α}
    (h : ∀ row time l' s', Grows l l' [] →
      (l'.view s' .oneTimeTokens).lookup (.id row.id) = some row →
      row.tokenHash = H.hash token → row.purpose = purpose →
      l'.locks (.oneTimeTokens, .id row.id) →
      Keeping H requests p (f (row, time)) l' s') :
    Keeping H requests p (claimToken H token purpose >>= f) l s := by
  simp only [claimToken, bind_assoc, pure_bind]
  refine wp_lockRows_bind ⟨rfl, rfl⟩ (fun _ => rfl)
    fun rows l₁ s₁ _ _ hg₁ hrows => ?_
  refine wp_scalarOneOrNone_bind fun o ho => ?_
  refine wp_now_bind fun τ s₂ h₂ _ => ?_
  refine wp_require_bind (fun row hrow => ?_) fun _ _ => trivial
  refine wp_ensure_bind (fun _ => ?_) fun _ _ => trivial
  obtain ⟨hlook, hpred, hlock⟩ :=
    hrows.rely h₂ row (by rw [ho, hrow]; exact List.mem_cons_self)
  rw [decide_eq_true_eq] at hpred
  exact h row τ _ s₂ (hg₁.trans (Grows.observe l₁ _)) hlook hpred.1 hpred.2
    hlock

theorem keeping_register {body : RegisterRequest} {client : Client}
    (hrequest : requests p = .register body client) :
    Keeping H requests p (register H body client) {} s := by
  simp only [register]
  refine wp_callOut_bind fun hash s₁ _ _ => ?_
  refine wp_freshId_bind fun id s₂ _ _ _ => ?_
  refine wp_insertRow_bind (fun s₃ _ _ _ => ?_) (fun e s₃ _ _ _ => ?_)
  · refine keeping_issueToken_bind fun l₄ s₄ token event hg₄ => ?_
    refine wp_audit_bind fun l₅ s₅ record _ _ _ _ _ _ _ _ _ hg₅ _ => ?_
    refine keeping_commit_quiet_bind ?_ ?_ fun _ _ => keeping_ret
    · have hwrites := ((Grows.lockAdd _ _ _).trans (hg₄.trans hg₅)).writes
      intro x hx
      rw [hwrites] at hx
      rcases List.mem_append.mp hx with hx | hx
      · cases hx
      · simp only [List.cons_append, List.nil_append, List.mem_cons,
          List.not_mem_nil, or_false] at hx
        rcases hx with rfl | rfl | rfl | rfl <;> simp [Write.ref]
    · simp [hrequest, Targets]
  · exact fun _ _ _ => ⟨trivial, fun _ _ _ => trivial⟩

theorem keeping_sessions {authorization : Authorization} :
    Keeping H requests p (sessions authorization) {} s := by
  simp only [sessions, currentUser, bind_assoc, pure_bind]
  refine wp_currentPrincipal_bind (fun principal s₁ _ _ _ _ => ?_)
    fun _ _ _ _ => trivial
  exact wp_select_bind fun _ _ _ => keeping_ret

theorem keeping_verifyEmail {body : VerifyEmailRequest}
    (hrequest : requests p = .verifyEmail body) :
    Keeping H requests p (verifyEmail H body) {} s := by
  simp only [verifyEmail]
  refine keeping_claimToken_bind fun row τ l₁ s₁ hg₁ _ _ _ _ => ?_
  refine wp_get_bind fun s₂ _ _ => ?_
  simp only [assertUser]
  split
  · rw [pure_bind]
    refine wp_updateKey_bind fun l₃ _ s₃ user _ _ _ _ _ _ hg₃ _ => ?_
    refine wp_updateKey_bind fun l₄ _ s₄ token _ _ _ _ _ _ hg₄ _ => ?_
    refine keeping_commit_quiet ?_ (by simp [hrequest, Targets])
    have hwrites := ((hg₁.trans (Grows.observe _ (.saw (l₁.view s₂)))).trans
      (hg₃.trans hg₄)).writes
    intro x hx
    rw [hwrites] at hx
    rcases List.mem_pair.mp hx with rfl | rfl <;> simp [Write.ref]
  · exact wp_halt

theorem keeping_resendVerification {authorization : Authorization}
    {client : Client}
    (hrequest : requests p = .resendVerification authorization client) :
    Keeping H requests p (resendVerification H settings authorization client)
      {} s := by
  simp only [resendVerification, currentUser, bind_assoc, pure_bind]
  refine wp_currentPrincipal_bind (fun principal s₁ _ _ _ _ => ?_)
    fun _ _ _ _ => trivial
  refine wp_enforceRateLimit_bind (fun l₂ s₂ _ _ hg₂ => ?_)
    fun _ _ _ _ => trivial
  split
  · refine keeping_issueToken_bind fun l₃ s₃ token event hg₃ => ?_
    refine keeping_commit_quiet_bind ?_ (by simp [hrequest, Targets])
      fun _ _ => keeping_ret
    intro x hx
    rw [(hg₂.trans hg₃).writes] at hx
    rcases List.mem_pair.mp hx with rfl | rfl <;> simp [Write.ref]
  · exact keeping_ret

theorem keeping_userByEmail_bind {email : String} {f : Option User → Tx α}
    (h : ∀ o l' s', Grows l l' [] → Keeping H requests p (f o) l' s') :
    Keeping H requests p (userByEmail email >>= f) l s := by
  simp only [userByEmail, bind_assoc]
  refine wp_select_bind fun s₁ _ _ => ?_
  refine wp_scalarOneOrNone_bind fun o _ => ?_
  exact h o _ s₁ (Grows.observe l _)

theorem keeping_requestReset {body : PasswordResetRequest} {client : Client}
    (hrequest : requests p = .requestReset body client) :
    Keeping H requests p (requestReset H settings body client) {} s := by
  simp only [requestReset]
  refine wp_enforceRateLimit_bind (fun l₁ s₁ _ _ hg₁ => ?_)
    fun _ _ _ _ => trivial
  refine keeping_userByEmail_bind fun o l₂ s₂ hg₂ => ?_
  cases o with
  | none => exact keeping_ret
  | some user =>
      simp only
      refine keeping_issueToken_bind fun l₃ s₃ token event hg₃ => ?_
      refine keeping_commit_quiet_bind ?_ (by simp [hrequest, Targets])
        fun _ _ => keeping_ret
      intro x hx
      rw [((hg₁.trans hg₂).trans hg₃).writes] at hx
      rcases List.mem_pair.mp hx with rfl | rfl <;> simp [Write.ref]

theorem keeping_revoke_commit (base : AuthSession → Prop)
    {pred : AuthSession → Bool} {time : Instant}
    (hquiet : Quiet l.session.writes)
    (hbase : ∀ x y, Persists x y → (base x ↔ base y))
    (hpred : ∀ x, pred x = true → base x)
    (hskip : ∀ x, base x → pred x = false → x.revokedAt ≠ none)
    (htargets : ∀ s', (sessionContract H requests).Rely p l s s' →
      s'.store.Unique → SessionsOk s' →
      ∀ x ∈ (s'.store .authSessions).rows,
        Targets H (requests p) s'.store x → base x) :
    Keeping H requests p (revokeWhere pred time >>= fun _ => Prog.commitNow)
      l s := by
  rw [← bind_pure_unit (x := Prog.commitNow)]
  exact wp_revoke_commit_bind base hquiet hbase hpred hskip htargets
    fun _ _ _ _ _ _ _ => keeping_ret

theorem keeping_logout {authorization : Authorization}
    (hrequest : requests p = .logout authorization) :
    Keeping H requests p (logout authorization) {} s := by
  simp only [logout]
  refine wp_currentPrincipal_bind (fun principal s₁ _ _ hclaims _ => ?_)
    fun _ _ _ _ => trivial
  refine wp_now_bind fun τ s₂ _ _ => ?_
  refine keeping_revoke_commit (fun x =>
    x.userId = principal.user.id ∧ x.familyId = principal.sessionId)
    (by intro x hx; cases hx) ?_ ?_ ?_ ?_
  · intro x y hxy
    rw [hxy.user, hxy.family]
  · intro x hx
    rw [decide_eq_true_eq] at hx
    exact ⟨hx.1, hx.2.1⟩
  · rintro x ⟨huser, hfamily⟩ hx
    simpa [huser, hfamily] using hx
  · intro s' _ _ _ x _ htarget
    simpa only [hrequest, hclaims, Targets] using htarget

theorem keeping_revokeSession {sessionId : Uuid}
    {authorization : Authorization}
    (hrequest : requests p = .revokeSession sessionId authorization) :
    Keeping H requests p (revokeSession sessionId authorization) {} s := by
  simp only [revokeSession, currentUser, bind_assoc, pure_bind]
  refine wp_currentPrincipal_bind (fun principal s₁ _ _ hclaims _ => ?_)
    fun _ _ _ _ => trivial
  refine wp_now_bind fun τ s₂ _ _ => ?_
  refine keeping_revoke_commit (fun x =>
    x.familyId = sessionId ∧ x.userId = principal.user.id)
    (by intro x hx; cases hx) ?_ ?_ ?_ ?_
  · intro x y hxy
    rw [hxy.user, hxy.family]
  · intro x hx
    simpa using hx
  · intro x hx hpred
    exact absurd hx (by simpa using hpred)
  · intro s' _ _ _ x _ htarget
    simpa only [hrequest, hclaims, Targets] using htarget

theorem keeping_revokeAll {authorization : Authorization}
    (hrequest : requests p = .revokeAll authorization) :
    Keeping H requests p (revokeAll authorization) {} s := by
  simp only [revokeAll, currentUser, bind_assoc, pure_bind]
  refine wp_currentPrincipal_bind (fun principal s₁ _ _ hclaims _ => ?_)
    fun _ _ _ _ => trivial
  refine wp_now_bind fun τ s₂ _ _ => ?_
  refine keeping_revoke_commit
    (fun x => x.userId = principal.user.id)
    (by intro x hx; cases hx) ?_ ?_ ?_ ?_
  · intro x y hxy
    rw [hxy.user]
  · intro x hx
    rw [decide_eq_true_eq] at hx
    exact hx.1
  · intro x huser hx
    simpa [huser] using hx
  · intro s' _ _ _ x _ htarget
    simpa only [hrequest, hclaims, Targets] using htarget

theorem keeping_resetPassword {body : PasswordResetConfirm}
    (hrequest : requests p = .resetPassword body) :
    Keeping H requests p (resetPassword H body) {} s := by
  simp only [resetPassword]
  refine keeping_claimToken_bind
    fun row τ l₁ s₁ hg₁ hlook hhash hpurpose hlock => ?_
  refine wp_get_bind fun s₂ h₂ _ => ?_
  rcases huser : (l₁.view s₂ .users).lookup (.id row.userId) with _ | user
  · exact wp_halt
  · have hid : user.id = row.userId :=
      Key.id.inj (Relation.key_of_lookup huser)
    simp only [assertUser, pure_bind]
    refine wp_callOut_bind fun passwordHash s₃ h₃ _ => ?_
    refine wp_updateKey_bind fun l₄ s₄ s₅ owner h₄ _ h₅ _ _ _ hg₄ _ => ?_
    refine wp_updateKey_bind fun l₆ s₆ s₇ used h₆ _ h₇ _ hused _ hg₆ _ => ?_
    have hread := (Grows.observe l₁ (.saw (l₁.view s₂))).trans
      (Grows.observe _
        (.answered (Call.hashPassword body.newPassword) passwordHash))
    have hg := (hread.trans hg₄).trans hg₆
    have hrely : (sessionContract H requests).Rely p l₁ s₁ s₇ :=
      ((h₂.trans h₃.of_observe).trans ((h₄.trans h₅).of_grows hread)).trans
        ((h₆.trans h₇).of_grows (hread.trans hg₄))
    refine keeping_revoke_commit (fun x => x.userId = user.id)
      ?_ ?_ ?_ ?_ ?_
    · intro x hx
      rw [(hg₁.trans hg).writes] at hx
      rcases List.mem_pair.mp hx with rfl | rfl <;> simp [Write.ref]
    · intro x y hxy
      rw [hxy.user]
    · intro x hx
      simpa using hx
    · intro x hx hpred
      exact absurd hx (by simpa using hpred)
    · intro s' hs' hunique _ x _ htarget
      rw [hrequest] at htarget
      obtain ⟨t, ht, hthash, _, hxuser⟩ := htarget
      have hstable := (hrely.trans (hs'.of_grows hg)).lookup_eq hlock
      rw [hg₁.view] at hlook
      have hmine : row ∈ (s'.store .oneTimeTokens).rows :=
        Relation.mem_of_lookup (hstable.trans hlook)
      have hkey := hunique .oneTimeTokens t ht row hmine
        (.tokenHash row.tokenHash)
        (by simp [uniqueEntries, hthash, hhash]) (by simp [uniqueEntries])
      obtain rfl := (s'.store .oneTimeTokens).eq_of_key_eq ht hmine hkey
      rw [hxuser, hid]

theorem keeping_pair {user : User} {session : AuthSession} {raw : Token} :
    Keeping H requests p (pair user session raw settings) l s := by
  simp only [pair, accessToken, bind_assoc, pure_bind]
  refine wp_now_bind fun τ s₁ _ _ => ?_
  exact wp_freshId_bind fun jti s₂ _ _ _ => keeping_ret

theorem keeping_login {body : LoginRequest} {client : Client}
    (hrequest : requests p = .login body client) :
    Keeping H requests p (login H settings body client) {} s := by
  simp only [login]
  refine wp_enforceRateLimit_bind (fun l₁ s₁ _ _ hg₁ => ?_)
    fun _ _ _ _ => trivial
  refine keeping_userByEmail_bind fun o l₂ s₂ hg₂ => ?_
  refine wp_require_bind (fun user _ => ?_) fun _ _ => trivial
  refine wp_ensure_bind (fun _ => ?_) fun _ _ => trivial
  refine wp_callOut_bind fun verified s₃ _ _ => ?_
  refine wp_ensure_bind (fun _ => ?_) fun _ _ => trivial
  refine wp_freshId_bind fun raw s₄ _ _ _ => ?_
  refine wp_freshId_bind fun familyId s₅ _ hinv₅ hfresh => ?_
  refine wp_now_bind fun τ s₆ h₆ _ => ?_
  refine wp_freshId_bind fun id s₇ h₇ _ _ => ?_
  refine wp_now_bind fun createdAt s₈ h₈ _ => ?_
  refine wp_insertOrHalt_bind fun l₉ s₉ h₉ _ hconflict hg₉ hlocks₉ => ?_
  refine wp_audit_bind fun l₁₀ s₁₀ event h₁₀ _ _ _ _ _ _ _ _ hg₁₀ _ => ?_
  refine wp_commitNow_bind fun s' c h₁₁ hinv' hc hassume => ?_
  set call := Call.verifyPassword body.password user.passwordHash
  have hg₅ := ((hg₁.trans hg₂).trans
    (Grows.observe l₂ (.answered call verified))).trans
      (Grows.draw _ raw)
  have hg₅' := Grows.draw ((l₂.observe (.answered call verified)).draw raw)
    familyId
  have hg₆ := Grows.observe
    (((l₂.observe (.answered call verified)).draw raw).draw familyId)
    (.answered Call.now τ)
  have hg₇ := hg₆.trans (Grows.draw _ id)
  have hg₈ := hg₇.trans (Grows.observe _ (.answered Call.now createdAt))
  set r : AuthSession :=
    { id, userId := user.id, familyId, refreshTokenHash := H.hash raw
      createdAt, expiresAt := τ + days settings.refreshTokenDays
      userAgent := client.userAgent, ipAddress := client.host } with hr
  have hwrites : c.session.writes =
      [.put .authSessions r, .put .auditEvents event] := by
    rw [hc.session, ((hg₅.trans hg₅').trans (hg₈.trans (hg₉.trans hg₁₀))).writes]
    rfl
  have hafter : ∀ k, (c.after .authSessions).lookup k =
      if k = .id r.id then some r
      else (c.before .authSessions).lookup k := by
    intro k
    rw [Commit.after, Session.view, hwrites, Store.view_cons,
      Store.lookup_view_of_not_mem (by simp [Write.ref]),
      Store.write_put_self]
    exact lookup_put_sessions _ r k
  have hkey : (c.before .authSessions).lookup (.id r.id) = none := by
    have hnone := Store.lookup_of_conflict_none hconflict
    rw [((hg₅.trans hg₅').trans hg₈).view] at hnone
    have hlock := hlocks₉ _ List.mem_cons_self
    rw [hc.before]
    exact ((h₁₀.trans (h₁₁.of_grows hg₁₀)).lookup_eq hlock).trans hnone
  have hfamily : ∀ x ∈ (c.before .authSessions).rows,
      AuthSession.familyId x ≠ r.familyId := by
    have hrely : (sessionContract H requests).Rely p
        (((l₂.observe (.answered call verified)).draw raw).draw familyId)
        { s₅ with used := familyId :: s₅.used } s' :=
      (((h₆.trans (h₇.of_grows hg₆)).trans (h₈.of_grows hg₇)).trans
        (h₉.of_grows hg₈)).trans
        ((h₁₀.of_grows (hg₈.trans hg₉)).trans
          (h₁₁.of_grows ((hg₈.trans hg₉).trans hg₁₀)))
    rw [hc.before]
    refine family_rely hrely List.mem_cons_self fun x hx hxF => ?_
    have hF : x.familyId = familyId := hxF
    exact hfresh (hF ▸ hinv₅.used x hx)
  have hnew : NewRow (c.before .authSessions) r := by
    refine newRow_of_after hassume hkey ?_ rfl fun x hx => ⟨x, ?_, rfl⟩
    · rw [hafter, if_pos rfl]
    · have hlook := mem_sessions_iff.mp hx
      rw [hafter, if_neg, hlook]
      intro heq
      rw [heq, hkey] at hlook
      cases hlook
  have hguar : SessionGuarantee H (requests c.pid) c := by
    refine ⟨?_, .opened body client r ?_ hnew hfamily hafter, ?_, ?_⟩
    · rw [hc.before]
      exact hinv'.families
    · rw [hc.pid, hrequest]
    · intro y hy
      have hlook := mem_sessions_iff.mp hy
      rw [hafter] at hlook
      split at hlook
      · right
        rw [← Option.some.inj hlook, hc.session]
        exact (hg₈.trans (hg₉.trans hg₁₀)).ids _ List.mem_cons_self
      · exact Or.inl ⟨y, mem_sessions_iff.mpr hlook, rfl⟩
    · intro x _ htarget
      rw [hc.pid, hrequest] at htarget
      exact htarget.elim
  exact ⟨hguar, sessionsOk_after hinv' hc hguar, keeping_pair⟩

/-! ## Refreshing -/

/-- The token of a refresh was rotated when its `SELECT` started, or in the
row on which the `SELECT` has ended. -/
def PresentsRotated (H : TokenHash) (body : RefreshRequest)
    (l : Local schema) : Prop :=
  ∃ (db : Db) (x : AuthSession), x.refreshTokenHash = H.hash body.refreshToken ∧
    x.rotatedAt ≠ none ∧
    ([.scanning db] <:+ l.session.seen ∧ x ∈ (db .authSessions).rows ∨
      [.kept .authSessions x, .scanning db] <:+ l.session.seen)

/-- The reuse of a token has been answered: the family is revoked, as far as
the snapshot of the revoking `UPDATE` knew it. -/
def ReuseAnswered (H : TokenHash) (body : RefreshRequest) (e : AppError)
    (l : Local schema) (s : Shared schema) : Prop :=
  e = refreshTokenReuse ∧ l.session.seen.head? = some .committed ∧
    ∃ db, l.session.seen.findSome? scanned = some db ∧
      ∃ y ∈ (db .authSessions).rows,
        AuthSession.refreshTokenHash y = H.hash body.refreshToken ∧
        ∀ x ∈ (db .authSessions).rows,
          AuthSession.familyId x = AuthSession.familyId y →
          RevokedAt (.id (AuthSession.id x)) s.store

/-- What a refresh may answer. -/
def refreshReturns (H : TokenHash) (body : RefreshRequest) {α : Type} :
    α → Local schema → Shared schema → Prop :=
  fun _ l _ => ¬ PresentsRotated H body l

def refreshRaises (H : TokenHash) (body : RefreshRequest) :
    AppError → Local schema → Shared schema → Prop :=
  fun e l s => PresentsRotated H body l → ReuseAnswered H body e l s

/-- What a client has observed first does not change. -/
theorem eq_of_suffix (os os' : List (Obs schema))
    {seen : List (Obs schema)} {o o' : Obs schema}
    (h : os ++ [o] <:+ seen) (h' : os' ++ [o'] <:+ seen) : o = o' := by
  obtain ⟨pre, hpre⟩ := h
  obtain ⟨pre', hpre'⟩ := h'
  have hlast := congrArg List.getLast? (hpre.trans hpre'.symm)
  simpa using hlast

theorem PresentsRotated.found {body : RefreshRequest} {db : Db}
    {h : AuthSession} (hp : PresentsRotated H body l)
    (hseen : [.kept .authSessions h, .scanning db] <:+ l.session.seen) :
    (∃ x ∈ (db .authSessions).rows,
        AuthSession.refreshTokenHash x = H.hash body.refreshToken ∧
          x.rotatedAt ≠ none) ∨ h.rotatedAt ≠ none := by
  obtain ⟨db', x, hhash, hrot, ⟨hscan, hx⟩ | hkept⟩ := hp
  · left
    have hdb := eq_of_suffix [] [_] hscan hseen
    cases hdb
    exact ⟨x, hx, hhash, hrot⟩
  · right
    have hboth := (List.suffix_of_suffix_length_le hkept hseen
      le_rfl).eq_of_length rfl
    cases hboth
    exact hrot

theorem wp_exchange {body : RefreshRequest} {h : AuthSession} {user : User}
    {time : Instant} {Q : TokenPair → Local schema → Shared schema → Prop}
    {E : AppError → Local schema → Shared schema → Prop}
    (hrequest : requests p = .refresh body)
    (hempty : l.session.writes = [])
    (hlock : l.locks (.authSessions, .id h.id))
    (hlook : (s.store .authSessions).lookup (.id h.id) = some h)
    (hdigest : h.refreshTokenHash = H.hash body.refreshToken)
    (hlive : Live h)
    (hQ : ∀ a l' s', l.session.seen <:+ l'.session.seen → Q a l' s') :
    (sessionContract H requests).wp p Q E
      (exchange H settings h user time) none l s := by
  have hview : ∀ s' : Shared schema, l.view s' = s'.store := by
    intro s'
    simp [Local.view, Session.view, hempty]
  simp only [exchange]
  refine wp_freshId_bind fun raw s₁ h₁ _ _ => ?_
  refine wp_updateKey_bind fun l₂ s₂ s₃ h' h₂ _ h₃ _ hh' _ hg₂ _ => ?_
  refine wp_freshId_bind fun id s₄ h₄ _ _ => ?_
  refine wp_now_bind fun createdAt s₅ h₅ _ => ?_
  refine wp_insertOrHalt_bind fun l₆ s₆ h₆ _ hconflict hg₆ hlocks₆ => ?_
  refine wp_commitNow_bind fun s' c h₇ hinv' hc hassume => ?_
  have hg₁ := Grows.draw l raw
  have hg₅ := (Grows.draw l₂ id).trans
    (Grows.observe _ (.answered Call.now createdAt))
  have hg₂₆ := hg₂.trans (hg₅.trans hg₆)
  have hrely₃ : (sessionContract H requests).Rely p l s s₃ :=
    h₁.trans ((h₂.trans h₃).of_grows hg₁)
  have hrely₆ : (sessionContract H requests).Rely p l₂ s₃ s₆ :=
    (h₄.trans (h₅.of_grows (Grows.draw l₂ id))).trans (h₆.of_grows hg₅)
  have hhead₃ := (hrely₃.lookup_eq hlock).trans hlook
  obtain rfl : h = h' := by
    rw [hg₁.view, hview, Store.view_nil, hhead₃] at hh'
    exact Option.some.inj hh'
  have hhead : (c.before .authSessions).lookup (.id h.id) = some h := by
    have hrely₂ := (hrely₆.trans (h₇.of_grows (hg₅.trans hg₆))).of_grows
      (hg₁.trans hg₂)
    rw [hc.before]
    exact (hrely₂.lookup_eq hlock).trans hhead₃
  set r : AuthSession :=
    { id, userId := h.userId, familyId := h.familyId
      refreshTokenHash := H.hash raw, createdAt, expiresAt := h.expiresAt
      userAgent := h.userAgent, ipAddress := h.ipAddress } with hr
  have hwrites : c.session.writes = [.put .authSessions
      { h with rotatedAt := some time }, .put .authSessions r] := by
    rw [hc.session, (hg₁.trans hg₂₆).writes, hempty]
    rfl
  have hafter : ∀ k, (c.after .authSessions).lookup k =
      if k = .id r.id then some r
      else if k = .id h.id then some { h with rotatedAt := some time }
      else (c.before .authSessions).lookup k := by
    intro k
    rw [Commit.after, Session.view, hwrites, Store.view_cons, Store.view_cons,
      Store.view_nil, Store.write_put_self, Store.write_put_self,
      lookup_put_sessions, lookup_put_sessions]
  have hkey : (c.before .authSessions).lookup (.id r.id) = none := by
    have hnone := Store.lookup_of_conflict_none hconflict
    rw [((hg₁.trans hg₂).trans hg₅).view, hview] at hnone
    simp only [List.nil_append, List.append_nil, Store.view_cons,
      Store.view_nil, Store.write_put_self] at hnone
    rw [lookup_put_sessions] at hnone
    split at hnone
    · cases hnone
    · rw [hc.before]
      exact (h₇.lookup_eq (hlocks₆ _ List.mem_cons_self)).trans hnone
  have hmem : h ∈ (c.before .authSessions).rows := mem_sessions_iff.mpr hhead
  have hnew : NewRow (c.before .authSessions) r := by
    refine newRow_of_after hassume hkey ?_ rfl fun x hx => ?_
    · rw [hafter, if_pos rfl]
    · have hlookx := mem_sessions_iff.mp hx
      have hne : Key.id x.id ≠ .id r.id := by
        intro heq
        rw [heq, hkey] at hlookx
        cases hlookx
      by_cases hxh : x.id = h.id
      · obtain rfl := eq_of_id_eq hx hmem hxh
        exact ⟨{ x with rotatedAt := some time },
          by rw [hafter, if_neg hne, if_pos rfl], rfl⟩
      · refine ⟨x, ?_, rfl⟩
        rw [hafter, if_neg hne, if_neg (by simpa using hxh), hlookx]
  have hguar : SessionGuarantee H (requests c.pid) c := by
    have hbefore : Families (c.before .authSessions) := by
      rw [hc.before]
      exact hinv'.families
    refine ⟨hbefore, .exchanged body h r time ?_ hdigest hmem hlive hnew
      ⟨rfl, rfl, rfl⟩ hafter, ?_, ?_⟩
    · rw [hc.pid, hrequest]
    · intro y hy
      left
      have hlooky := mem_sessions_iff.mp hy
      rw [hafter] at hlooky
      split at hlooky
      · exact ⟨h, hmem, by rw [← Option.some.inj hlooky]⟩
      · split at hlooky
        · exact ⟨h, hmem, by rw [← Option.some.inj hlooky]⟩
        · exact ⟨y, mem_sessions_iff.mpr hlooky, rfl⟩
    · intro x hx htarget
      rw [hc.pid, hrequest] at htarget
      obtain ⟨y, hy, hyhash, hyrot, _⟩ := htarget
      obtain rfl := hbefore.digest y hy h hmem (hyhash.trans hdigest.symm)
      exact absurd hlive.2 hyrot
  refine ⟨hguar, sessionsOk_after hinv' hc hguar, ?_⟩
  simp only [pair, accessToken, bind_assoc, pure_bind]
  refine wp_now_bind fun τ s₈ _ _ => ?_
  refine wp_freshId_bind fun jti s₉ _ _ _ => wp_ret fun s₁₀ _ _ => ?_
  refine hQ _ _ s₁₀ ?_
  have hsuffix := (hg₁.trans hg₂₆).seen
  exact (hsuffix.trans (List.suffix_cons _ _)).trans (List.suffix_cons _ _)

theorem wp_refresh {body : RefreshRequest}
    (hrequest : requests p = .refresh body) :
    (sessionContract H requests).wp p (refreshReturns H body)
      (refreshRaises H body) (refresh H settings body) none {} s := by
  simp only [refresh]
  refine wp_lockSnapshot_bind ⟨rfl, rfl⟩ (fun _ => rfl) (fun _ _ => False)
    (fun _ _ _ _ _ h => h) ?_ ?_
  · intro k s₁ s₂ x hrely _ hx hpred hout
    obtain ⟨y, hy, hxy⟩ := persists_rely hrely (Relation.mem_of_lookup hx)
    have hkey : Key.id x.id = k := Relation.key_of_lookup hx
    have hlook : (({} : Local schema).view s₂ .authSessions).lookup k =
        some y := hkey ▸ hy
    have hpredy : y.refreshTokenHash = H.hash body.refreshToken := by
      rw [decide_eq_true_eq] at hpred
      rw [hxy.digest, hpred]
    simp [Scan.visit, hlook, hpredy] at hout
  · intro rows l₁ s₁ s₂ h₁ _ h₂ _ hg₁ hseen hrows hall
    refine wp_scalarOneOrNone_bind fun o ho => ?_
    refine wp_now_bind fun time s₃ h₃ hinv₃ => ?_
    have hg₃ := hg₁.trans (Grows.observe l₁ (.answered Call.now time))
    refine wp_require_bind (fun h hh => ?_) (fun hnone s' hpresents => ?_)
    · obtain ⟨hlook, hpred, hlock⟩ := hrows.rely h₃ h (by simp [ho, hh])
      rw [hg₁.view] at hlook
      rw [decide_eq_true_eq] at hpred
      set l₃ := l₁.observe (.answered Call.now time)
      have hkept : [.kept .authSessions h, .scanning s₁.store] <:+
          l₃.session.seen := by
        refine ⟨[.answered Call.now time], ?_⟩
        simp only [l₃, Local.observe, Session.observe, hseen, ho, hh]
        rfl
      have hquiet : ∀ o, Quiet (l₃.observe o).session.writes := by
        intro o x hx
        change x ∈ l₃.session.writes at hx
        rw [hg₃.writes] at hx
        cases hx
      have hrow : ∀ s' y, (sessionContract H requests).Rely p l₃ s₃ s' →
          Families (s'.store .authSessions) →
          y ∈ (s'.store .authSessions).rows →
          AuthSession.refreshTokenHash y = H.hash body.refreshToken →
          y = h := by
        intro s' y hs' hfam hy hyhash
        have hmem := Relation.mem_of_lookup ((hs'.lookup_eq hlock).trans hlook)
        exact hfam.digest y hy h hmem (hyhash.trans hpred.symm)
      split
      · refine wp_revoke_commit_bind
          (fun x => x.familyId = h.familyId) ?_ ?_ ?_ ?_ ?_ ?_
        · intro x hx
          rw [hg₃.writes] at hx
          cases hx
        · intro x y hxy
          rw [hxy.family]
        · intro x hx
          simpa using hx
        · intro x hx hpredx
          exact absurd hx (by simpa using hpredx)
        · intro s' hs' _ hinv' x _ htarget
          rw [hrequest] at htarget
          obtain ⟨y, hy, hyhash, _, hxy⟩ := htarget
          rw [hxy, hrow s' y hs' hinv'.families hy hyhash]
        · intro l' s₄ s' h₄ _ hseen' hrev
          refine wp_raise fun s'' hs'' _ _ => ⟨rfl, hseen'.committed, _,
            hseen'.scanned, h, ?_, hpred,
            fun x hx hxh => (hrev x hx hxh).rely hs''⟩
          have hhead : (l₃.view s₄ .authSessions).lookup (.id h.id) =
              some h := by
            rw [hg₃.view]
            exact (h₄.lookup_eq hlock).trans hlook
          exact mem_sessions_iff.mpr hhead
      · next hfresh =>
          have hrot : h.rotatedAt = none := by simpa using hfresh
          have hno : ∀ l', l₃.session.seen <:+ l'.session.seen →
              ¬ PresentsRotated H body l' := by
            intro l' hl' hpresents
            rcases hpresents.found (hkept.trans hl') with
              ⟨x, hx, hhash, hxrot⟩ | hhrot
            swap
            · exact hhrot hrot
            obtain ⟨y, hy, hxy⟩ :=
              persists_rely (h₂.trans (h₃.of_grows hg₁)) hx
            have hyh := hrow s₃ y .refl hinv₃.families
              (Relation.mem_of_lookup hy) (hxy.digest.trans hhash)
            exact hxy.rotated hxrot (hyh ▸ hrot)
          refine wp_ensure_bind (fun hok => ?_)
            fun _ _ hp => absurd hp (hno _ List.suffix_rfl)
          have hrev : h.revokedAt = none := by
            simp only [Bool.and_eq_true, Option.isNone_iff_eq_none] at hok
            exact hok.1
          refine wp_get_bind fun s₄ h₄ hinv₄ => ?_
          have hlook₄ := (h₄.lookup_eq hlock).trans hlook
          split
          · refine wp_revoke_commit_bind
              (fun x => x.familyId = h.familyId) (hquiet _)
              ?_ ?_ ?_ ?_ ?_
            · intro x y hxy
              rw [hxy.family]
            · intro x hx
              simpa using hx
            · intro x hx hpredx
              exact absurd hx (by simpa using hpredx)
            · intro s' hs' _ hinv' x _ htarget
              rw [hrequest] at htarget
              obtain ⟨y, hy, hyhash, hyrot, _⟩ := htarget
              rw [hrow s' y (h₄.trans hs'.of_observe) hinv'.families hy
                hyhash] at hyrot
              exact absurd hrot hyrot
            · intro l' s₅ s' _ _ hseen' _
              refine wp_raise fun s'' _ _ hp => absurd hp (hno l' ?_)
              exact (List.suffix_cons _ _).trans hseen'.seen
          · refine wp_exchange hrequest ?_ hlock hlook₄ hpred ⟨hrev, hrot⟩ ?_
            · exact (hg₃.trans (Grows.observe l₃ _)).writes
            · intro a l' s' hl'
              exact hno l' ((List.suffix_cons _ _).trans hl')
    · have hseen₃ : (l₁.observe (.answered Call.now time)).session.seen =
          [.answered Call.now time, .scanning s₁.store] := by
        simp only [Local.observe, Session.observe, hseen, ho, hnone]
        rfl
      obtain ⟨db, x, hhash, _, ⟨hscan, hx⟩ | hkept⟩ := hpresents
      · rw [hseen₃] at hscan
        have hdb := eq_of_suffix [] [_] hscan List.suffix_rfl
        cases hdb
        rcases hall _ x (mem_sessions_iff.mp hx) (by simpa using hhash) with
          hfalse | ⟨y, hy, _⟩
        · exact hfalse.elim
        · rw [ho, hnone] at hy
          cases hy
      · rw [hseen₃] at hkept
        have hboth := hkept.eq_of_length rfl
        cases hboth

end Endpoints

end Workstream.Auth
