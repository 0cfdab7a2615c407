import Workstream.Modules.Auth.Effects
import Workstream.Modules.Auth.SessionRuns

/-!
# The commits of the account endpoints

Every account endpoint commits what `Effects` says, under any interference
that loses neither users nor sessions, and an endpoint that raises an error
has written nothing.
-/

namespace Workstream.Auth

open ReadCommitted Contract

/-- Interference under the contract keeps users and sessions. -/
def Keeps (C : Contract schema) : Prop :=
  ∀ c, C.guar c → KeepsRows c

section Stability

variable {C : Contract schema} {p : Pid} {l : Local schema}
  {s s' : Shared schema}

theorem user_rely (hkeeps : Keeps C) (h : C.Rely p l s s') {k : Key}
    {u : User} (hu : (s.store .users).lookup k = some u) :
    ∃ v : User, (s'.store .users).lookup k = some v ∧ v.email = u.email := by
  refine h.induct (P := fun x : Shared schema => ∃ v : User,
    (x.store .users).lookup k = some v ∧ v.email = u.email) ⟨u, hu, rfl⟩ ?_
  rintro x y henv ⟨v, hv, hemail⟩
  cases henv with
  | commit c _ _ _ _ _ hguar =>
      obtain ⟨v', hv', hsame⟩ := (hkeeps c hguar).users k v hv
      exact ⟨v', hv', hsame.trans hemail⟩
  | draw => exact ⟨v, hv, hemail⟩

theorem session_rely (hkeeps : Keeps C) (h : C.Rely p l s s') {k : Key}
    {x : AuthSession} (hx : (s.store .authSessions).lookup k = some x) :
    ∃ y : AuthSession, (s'.store .authSessions).lookup k = some y ∧
      y.userId = x.userId := by
  refine h.induct (P := fun u : Shared schema => ∃ y : AuthSession,
    (u.store .authSessions).lookup k = some y ∧ y.userId = x.userId)
    ⟨x, hx, rfl⟩ ?_
  rintro u v henv ⟨y, hy, huser⟩
  cases henv with
  | commit c _ _ _ _ _ hguar =>
      obtain ⟨z, hz, hsame⟩ := (hkeeps c hguar).sessions k y hy
      exact ⟨z, hz, hsame.trans huser⟩
  | draw => exact ⟨y, hy, huser⟩

theorem selectedOn_eq {c : Commit schema} {l' : Local schema} {db : Db}
    {ws : List (Write schema)} (hc : c.session = l'.session)
    (hg : Grows (l.observe (.saw db)) l' ws)
    (hnone : ∀ o ∈ l.session.seen, selected o = none) :
    selectedOn c = some db := by
  obtain ⟨pre, hpre⟩ := hg.seen
  have hfirst : l.session.seen.reverse.findSome? selected = none := by
    rw [List.findSome?_eq_none_iff]
    exact fun o ho => hnone o (List.mem_reverse.mp ho)
  rw [selectedOn, hc, ← hpre]
  simp only [Local.observe, Session.observe, List.reverse_append,
    List.reverse_cons, List.append_assoc, List.findSome?_append, hfirst]
  rfl

end Stability

/-! ## Rules -/

section Rules

variable {H : TokenHash} {α : Type} {C : Contract schema} {p : Pid}
  {Q : α → Local schema → Shared schema → Prop}
  {E : AppError → Local schema → Shared schema → Prop}
  {l : Local schema} {s : Shared schema}

theorem wp_userByEmail_bind {email : String} {f : Option User → Tx α}
    (hempty : l.session.writes = [])
    (h : ∀ o s', C.Rely p l s s' → C.inv s' →
      (∀ user, o = some user →
        (s'.store .users).lookup (.id user.id) = some user ∧
          user.email = lower email) →
      C.wp p Q E (f o) none (l.observe (.saw s'.store)) s') :
    C.wp p Q E (userByEmail email >>= f) none l s := by
  simp only [userByEmail, bind_assoc]
  refine wp_select_bind fun s' h' hinv' => ?_
  rw [view_of_writes_nil hempty]
  refine wp_scalarOneOrNone_bind fun o ho => h o s' h' hinv' fun user huser => ?_
  have hmem : user ∈ (s'.store .users).rows.filter
      fun u : User => u.email = lower email := by
    rw [ho, huser]
    exact List.mem_cons_self
  simp only [List.mem_filter, decide_eq_true_eq] at hmem
  exact ⟨Relation.lookup_key hmem.1, hmem.2⟩

/-- A token and its event, which are new when they are committed. -/
theorem wp_issueToken_bind {user : User} {purpose : Purpose} {topic : String}
    {lifetime : Instant} {f : Unit → Tx α} {l₀ : Local schema}
    {ws : List (Write schema)} (hg : Grows l₀ l ws)
    (hempty : l₀.session.writes = [])
    (hws : ∀ x ∈ ws, x.ref.1 ≠ Table.oneTimeTokens ∧
      x.ref.1 ≠ Table.outboxEvents)
    (h : ∀ l' s' vs, C.Along p l s vs l' s' → C.inv s' →
      (∀ {us l'' s'' c}, C.Along p l' s' us l'' s'' → Makes p l'' s'' c →
        Issued H c user purpose topic vs) →
      C.wp p Q E (f ()) none l' s') :
    C.wp p Q E (issueToken H user purpose topic lifetime >>= f) none l s := by
  simp only [issueToken, bind_assoc]
  refine wp_freshId_bind fun raw s₁ h₁ _ _ => ?_
  refine wp_now_bind fun τ s₂ h₂ _ => ?_
  refine wp_freshId_bind fun id s₃ h₃ _ _ => ?_
  have ha₃ : C.Along p l s [] _ { s₃ with used := id :: s₃.used } :=
    ((Along.draw h₁ raw).trans
      (Along.observe h₂ (.answered Call.now τ))).trans (Along.draw h₃ id)
  refine wp_insertOrHalt_bind fun l₄ s₄ h₄ _ hnone₄ hg₄ hlocks₄ => ?_
  have ha₄ : C.Along p _ _ _ l₄ s₄ := ⟨hg₄, h₄⟩
  refine wp_freshId_bind fun eventId s₅ h₅ _ _ => ?_
  refine wp_now_bind fun time s₆ h₆ _ => ?_
  have ha₆ : C.Along p l₄ s₄ [] _ s₆ :=
    (Along.draw h₅ eventId).trans
      (Along.observe h₆ (.answered Call.now time))
  refine wp_insertOrHalt_bind fun l₇ s₇ h₇ hinv₇ hnone₇ hg₇ hlocks₇ => ?_
  have ha₇ : C.Along p _ s₆ _ l₇ s₇ := ⟨hg₇, h₇⟩
  refine h l₇ s₇ _ ((ha₃.trans ha₄).trans (ha₆.trans ha₇)) hinv₇ ?_
  intro us l'' s'' c ha hc
  have htoken : (s₄.store .oneTimeTokens).lookup (.id id) = none := by
    have hnone := Store.lookup_of_conflict_none hnone₄
    rwa [(hg.trans ha₃.grows).view, view_of_writes_nil hempty,
      List.append_nil,
      Store.view_of_table_ne fun x hx => (hws x hx).1] at hnone
  have hevent : (s₇.store .outboxEvents).lookup (.id eventId) = none := by
    have hnone := Store.lookup_of_conflict_none hnone₇
    rw [((hg.trans (ha₃.trans ha₄).grows).trans ha₆.grows).view,
      view_of_writes_nil hempty, Store.view_of_table_ne] at hnone
    · exact hnone
    · intro x hx
      simp only [List.nil_append, List.append_nil, List.mem_append,
        List.mem_singleton] at hx
      rcases hx with hx | rfl
      · exact (hws x hx).2
      · simp [Write.ref]
  refine .issued raw id eventId _ time ?_ ?_ ?_
  · rw [hc.session]
    exact ((ha₄.trans (ha₆.trans ha₇)).trans ha).grows.ids _
      (List.mem_cons_of_mem id List.mem_cons_self)
  · exact (((ha₆.trans ha₇).trans ha).committed hc
      (hlocks₄ _ List.mem_cons_self)).trans htoken
  · exact (ha.committed hc (hlocks₇ _ List.mem_cons_self)).trans hevent

/-- A one-time token that is presented stays locked, and so is committed as it
was found. -/
theorem wp_claimToken_bind {token : Token} {purpose : Purpose}
    {f : OneTimeToken × Instant → Tx α}
    (h : ∀ (row : OneTimeToken) time l' s', C.Along p {} s [] l' s' →
      C.inv s' → l'.locks (.oneTimeTokens, .id row.id) →
      (s'.store .oneTimeTokens).lookup (.id row.id) = some row →
      (∀ {ws l'' s'' c}, C.Along p l' s' ws l'' s'' → Makes p l'' s'' c →
        Claimed H c token purpose row time) →
      C.wp p Q E (f (row, time)) none l' s')
    (hE : ∀ e l' s', Grows {} l' [] → E e l' s') :
    C.wp p Q E (claimToken H token purpose >>= f) none {} s := by
  simp only [claimToken, bind_assoc, pure_bind]
  refine wp_lockSome_bind (fun _ => rfl)
    fun rows l₁ s₁ h₁ _ hg₁ hcalls hrows _ => ?_
  have ha₁ : C.Along p {} s [] l₁ s₁ := ⟨hg₁, h₁⟩
  refine wp_scalarOneOrNone_bind fun o ho => ?_
  refine wp_now_bind fun time s₂ h₂ hinv₂ => ?_
  have ha₂ : C.Along p l₁ s₁ [] _ s₂ :=
    Along.observe h₂ (.answered Call.now time)
  have ha₁₂ := ha₁.trans ha₂
  refine wp_require_bind (fun row hrow => ?_) fun _ s' => hE _ _ s' ha₁₂.grows
  refine wp_ensure_bind (fun hok => ?_) fun _ s' => hE _ _ s' ha₁₂.grows
  obtain ⟨hlook, hpred, hlock⟩ :=
    hrows.rely h₂ row (by rw [ho, hrow]; exact List.mem_cons_self)
  rw [view_of_writes_nil ha₁.writes] at hlook
  rw [decide_eq_true_eq] at hpred
  rw [Bool.and_eq_true, Option.isNone_iff_eq_none, decide_eq_true_iff] at hok
  refine h row time _ s₂ ha₁₂ hinv₂ hlock hlook fun ha hc => ?_
  exact ⟨(ha.committed hc hlock).trans hlook, hpred.1, hpred.2, hok.1,
    readNow_eq hc.session ha.grows hcalls, hok.2⟩

end Rules

/-! ## The endpoints -/

section Endpoints

variable {H : TokenHash} {settings : Settings} {C : Contract schema}
  {requests : Pid → Request} {p : Pid} {l : Local schema} {s : Shared schema}

/-- The contract accepts what `request` commits on behalf of `p`. -/
abbrev Allows (H : TokenHash) (C : Contract schema) (request : Request)
    (p : Pid) : Prop :=
  C.Accepts p fun _ c => Effects H request c

theorem requests_register {body : RegisterRequest} {client : Client}
    (hallows : Allows H C (.register body client) p) :
    Requests C p (register H body client) {} s := by
  simp only [register]
  refine wp_callOut_bind fun hash s₁ h₁ _ => ?_
  refine wp_freshId_bind fun id s₂ h₂ _ _ => ?_
  have ha₂ : C.Along p {} s [] _ { s₂ with used := id :: s₂.used } :=
    (Along.observe h₁ (.answered (Call.hashPassword body.password) hash)).trans
      (Along.draw h₂ id)
  refine wp_insertRow_bind (fun s₃ h₃ _ hnone => ?_) fun e s₃ _ _ _ => ?_
  · have ha₃ := Along.insert h₃ .users
      { id, email := lower body.email, passwordHash := hash
        displayName := body.displayName }
    refine wp_issueToken_bind (ha₂.trans ha₃).grows rfl (by simp [Write.ref])
      fun l₄ s₄ vs ha₄ _ hissued => ?_
    refine wp_audit_bind fun l₅ s₅ event h₅ _ _ _ _ _ _ _ _ hg₅ _ => ?_
    have ha₅ : C.Along p l₄ s₄ _ l₅ s₅ := ⟨hg₅, h₅⟩
    refine requests_commit_bind hallows
      (((ha₂.trans ha₃).trans ha₄).trans ha₅)
      (fun s' c h' _ hc hwrites => ?_) fun _ _ => requests_ret _
    have ha' := (Along.refl l₅ s₅).wait h'
    have hnew := Store.lookup_of_conflict_none hnone
    rw [view_of_writes_nil ha₂.writes] at hnew
    refine .registered _ vs event rfl ?_ (hissued (ha₅.trans ha') hc) hwrites
    exact ((ha₄.trans (ha₅.trans ha')).committed hc
      (Or.inl List.mem_cons_self)).trans hnew
  · exact wp_rollbackNow_bind fun s' _ _ =>
      wp_raise fun _ _ _ => unwritten_rolledBack ha₂.grows

theorem requests_pair {user : User} {session : AuthSession} {raw : Token} :
    Requests C p (pair user session raw settings) l s := by
  simp only [pair, accessToken, bind_assoc, pure_bind]
  refine wp_now_bind fun τ s₁ _ _ => ?_
  exact wp_freshId_bind fun jti s₂ _ _ _ => requests_ret _

theorem requests_login {body : LoginRequest} {client : Client}
    (hallows : Allows H C (.login body client) p) :
    Requests C p (login H settings body client) {} s := by
  simp only [login, enforceRateLimit, bind_assoc]
  refine wp_callOut_bind fun count s₁ h₁ _ => ?_
  refine wp_ensure_bind (fun _ => ?_)
    fun _ _ => unwritten_of_grows (Along.observe h₁ _).grows
  refine wp_callOut_bind fun ttl s₂ h₂ _ => ?_
  have ha₂ := (Along.observe h₁ (.answered (Call.rateLimitHit "login"
    client.address (accountKey body.email)) count)).trans
      (Along.observe h₂ (.answered (Call.rateLimitTtl "login" client.address
        (accountKey body.email)) ttl))
  refine wp_ensure_bind (fun _ => ?_) fun _ _ => unwritten_of_grows ha₂.grows
  refine wp_userByEmail_bind rfl fun o s₃ h₃ _ huser => ?_
  have ha₃ := ha₂.trans (Along.observe h₃ (.saw s₃.store))
  refine wp_require_bind (fun user ho => ?_)
    fun _ _ => unwritten_of_grows ha₃.grows
  obtain ⟨hstored, hemail⟩ := huser user ho
  refine wp_ensure_bind (fun hactive => ?_)
    fun _ _ => unwritten_of_grows ha₃.grows
  refine wp_callOut_bind fun verified s₄ h₄ _ => ?_
  set call := Call.verifyPassword body.password user.passwordHash
  have hobs := Along.observe h₄ (.answered call verified)
  have ha₄ := ha₃.trans hobs
  refine wp_ensure_bind (fun hverified => ?_)
    fun _ _ => unwritten_of_grows ha₄.grows
  refine wp_freshId_bind fun raw s₅ h₅ _ _ => ?_
  refine wp_freshId_bind fun familyId s₆ h₆ _ _ => ?_
  refine wp_now_bind fun τ s₇ h₇ _ => ?_
  refine wp_freshId_bind fun id s₈ h₈ _ _ => ?_
  refine wp_now_bind fun createdAt s₉ h₉ _ => ?_
  have ha₉ := ((((Along.draw h₅ raw).trans (Along.draw h₆ familyId)).trans
    (Along.observe h₇ (.answered Call.now τ))).trans
      (Along.draw h₈ id)).trans
        (Along.observe h₉ (.answered Call.now createdAt))
  refine wp_insertOrHalt_bind fun l₁₀ s₁₀ h₁₀ _ hnone hg₁₀ hlocks => ?_
  have ha₁₀ : C.Along p _ s₉ _ l₁₀ s₁₀ := ⟨hg₁₀, h₁₀⟩
  refine wp_audit_bind fun l₁₁ s₁₁ event h₁₁ _ _ _ _ _ _ _ _ hg₁₁ _ => ?_
  have ha₁₁ : C.Along p l₁₀ s₁₀ _ l₁₁ s₁₁ := ⟨hg₁₁, h₁₁⟩
  refine requests_commit_bind hallows
    ((ha₄.trans ha₉).trans (ha₁₀.trans ha₁₁))
    (fun s' c h' _ hc hwrites => ?_) fun _ _ => requests_pair
  have ha' := (Along.refl l₁₁ s₁₁).wait h'
  have hlast := (ha₉.trans ha₁₀).trans (ha₁₁.trans ha')
  have hnew := Store.lookup_of_conflict_none hnone
  rw [view_of_writes_nil (ha₄.trans ha₉).writes] at hnew
  refine .loggedIn s₃.store user verified _ event ?_ hstored hemail hactive
    ?_ (of_decide_eq_true hverified) ?_ rfl hwrites
  · refine selectedOn_eq hc.session (hobs.trans hlast).grows ?_
    simp [Local.observe, Session.observe, selected]
  · rw [hc.session]
    exact hlast.grows.seen.subset List.mem_cons_self
  · exact ((ha₁₁.trans ha').committed hc
      (hlocks _ List.mem_cons_self)).trans hnew

theorem requests_verifyEmail {body : VerifyEmailRequest}
    (hallows : Allows H C (.verifyEmail body) p) :
    Requests C p (verifyEmail H body) {} s := by
  simp only [verifyEmail]
  refine wp_claimToken_bind
    (fun row time l₁ s₁ ha₁ _ hlock hrow hclaimed => ?_)
    fun _ _ _ hg => unwritten_of_grows hg
  refine wp_get_bind fun s₂ h₂ _ => ?_
  have ha₂ : C.Along p l₁ s₁ [] _ s₂ :=
    Along.observe h₂ (.saw (l₁.view s₂))
  rcases huser : (l₁.view s₂ .users).lookup (.id row.userId) with _ | user
  · exact wp_halt
  · have hid : user.id = row.userId :=
      Key.id.inj (Relation.key_of_lookup huser)
    simp only [assertUser, pure_bind]
    refine wp_updateKey_bind
      fun l₃ s₃ s₃' owner h₃ _ h₃' _ howner hkey hg₃ hlock₃ => ?_
    have ha₃ : C.Along p _ s₂ _ l₃ s₃' := ⟨hg₃, h₃.trans h₃'⟩
    have ha₁₃ := (ha₁.trans ha₂).trans ha₃
    have hnow : (l₃.view s₃' .oneTimeTokens).lookup (.id row.id) =
        some row := by
      rw [ha₁₃.grows.view, view_of_writes_nil rfl,
        Store.lookup_view_of_not_mem (by simp [Write.ref])]
      exact ((ha₂.trans ha₃).lookup hlock).trans hrow
    refine wp_updateHeld_bind hnow ((ha₂.trans ha₃).grows.locks _ hlock)
      fun l₄ s₄ h₄ _ _ hg₄ _ => ?_
    have ha₄ : C.Along p l₃ s₃' _ l₄ s₄ := ⟨hg₄, h₄⟩
    refine requests_commit hallows (ha₁₃.trans ha₄)
      fun s' c h' _ hc hwrites => ?_
    have ha' := (Along.refl l₄ s₄).wait h'
    rw [view_of_writes_nil (ha₁.trans ha₂).writes] at howner
    refine .verified row time owner
      (hclaimed (ha₂.trans (ha₃.trans (ha₄.trans ha'))) hc) ?_ hwrites
    rw [← hid]
    exact ((ha₄.trans ha').committed hc hlock₃).trans howner

theorem requests_resendVerification {authorization : Authorization}
    {client : Client} (hkeeps : Keeps C)
    (hallows : Allows H C (.resendVerification authorization client) p) :
    Requests C p (resendVerification H settings authorization client)
      {} s := by
  simp only [resendVerification, currentUser, bind_assoc, pure_bind]
  refine wp_currentPrincipal_bind (fun principal s₁ h₁ _ _ hmem => ?_)
    fun _ _ _ hg => unwritten_of_grows hg
  have ha₁ : C.Along p {} s [] _ s₁ :=
    Along.observe h₁ (.saw (Local.view {} s₁))
  refine wp_enforceRateLimit_bind (fun l₂ s₂ h₂ _ hg₂ => ?_)
    fun _ _ _ hg => unwritten_of_grows (ha₁.grows.trans hg)
  have ha₂ : C.Along p _ s₁ [] l₂ s₂ := ⟨hg₂, h₂⟩
  have ha₁₂ := ha₁.trans ha₂
  split
  · refine wp_issueToken_bind ha₁₂.grows rfl (by simp)
      fun l₃ s₃ vs ha₃ _ hissued => ?_
    refine requests_commit_bind hallows (ha₁₂.trans ha₃)
      (fun s' c h' _ hc hwrites => ?_) fun _ _ => requests_ret _
    have ha' := (Along.refl l₃ s₃).wait h'
    have hstored : (s₁.store .users).lookup (.id principal.user.id) =
        some principal.user :=
      Relation.lookup_key (of_mem_principalRows hmem).1
    obtain ⟨owner, howner, hemail⟩ :=
      user_rely hkeeps (ha₂.trans (ha₃.trans ha')).rely hstored
    rw [← hc.before] at howner
    exact .resent principal.user owner howner hemail
      (hwrites ▸ hissued ha' hc)
  · exact requests_ret _

theorem requests_requestReset {body : PasswordResetRequest} {client : Client}
    (hkeeps : Keeps C) (hallows : Allows H C (.requestReset body client) p) :
    Requests C p (requestReset H settings body client) {} s := by
  simp only [requestReset]
  refine wp_enforceRateLimit_bind (fun l₁ s₁ h₁ _ hg₁ => ?_)
    fun _ _ _ hg => unwritten_of_grows hg
  have ha₁ : C.Along p {} s [] l₁ s₁ := ⟨hg₁, h₁⟩
  refine wp_userByEmail_bind ha₁.writes fun o s₂ h₂ _ huser => ?_
  have ha₂ : C.Along p l₁ s₁ [] _ s₂ := Along.observe h₂ (.saw s₂.store)
  have ha₁₂ := ha₁.trans ha₂
  cases o with
  | none => exact requests_ret _
  | some user =>
      simp only
      refine wp_issueToken_bind ha₁₂.grows rfl (by simp)
        fun l₃ s₃ vs ha₃ _ hissued => ?_
      refine requests_commit_bind hallows (ha₁₂.trans ha₃)
        (fun s' c h' _ hc hwrites => ?_) fun _ _ => requests_ret _
      have ha' := (Along.refl l₃ s₃).wait h'
      obtain ⟨owner, howner, hemail⟩ :=
        user_rely hkeeps (ha₃.trans ha').rely (huser user rfl).1
      rw [← hc.before] at howner
      exact .requested user owner howner hemail (hwrites ▸ hissued ha' hc)

theorem requests_resetPassword {body : PasswordResetConfirm}
    (hkeeps : Keeps C) (hallows : Allows H C (.resetPassword body) p) :
    Requests C p (resetPassword H body) {} s := by
  simp only [resetPassword]
  refine wp_claimToken_bind
    (fun row time l₁ s₁ ha₁ _ hlock hrow hclaimed => ?_)
    fun _ _ _ hg => unwritten_of_grows hg
  refine wp_get_bind fun s₂ h₂ _ => ?_
  rcases huser : (l₁.view s₂ .users).lookup (.id row.userId) with _ | user
  · exact wp_halt
  · have hid : user.id = row.userId :=
      Key.id.inj (Relation.key_of_lookup huser)
    simp only [assertUser, pure_bind]
    refine wp_callOut_bind fun passwordHash s₃ h₃ _ => ?_
    set call := Call.hashPassword body.newPassword
    have ha₃ := (Along.observe h₂ (.saw (l₁.view s₂))).trans
      (Along.observe h₃ (.answered call passwordHash))
    refine wp_updateKey_bind
      fun l₄ s₄ s₄' owner h₄ _ h₄' _ howner hkey hg₄ hlock₄ => ?_
    have ha₄ : C.Along p _ s₃ _ l₄ s₄' := ⟨hg₄, h₄.trans h₄'⟩
    have ha₁₄ := (ha₁.trans ha₃).trans ha₄
    have hnow : (l₄.view s₄' .oneTimeTokens).lookup (.id row.id) =
        some row := by
      rw [ha₁₄.grows.view, view_of_writes_nil rfl,
        Store.lookup_view_of_not_mem (by simp [Write.ref])]
      exact ((ha₃.trans ha₄).lookup hlock).trans hrow
    refine wp_updateHeld_bind hnow ((ha₃.trans ha₄).grows.locks _ hlock)
      fun l₅ s₅ h₅ _ _ hg₅ _ => ?_
    have ha₅ : C.Along p l₄ s₄' _ l₅ s₅ := ⟨hg₅, h₅⟩
    have ha₁₅ := ha₁₄.trans ha₅
    have hquiet : Quiet l₅.session.writes := by
      rw [ha₁₅.writes]
      simp [Quiet, Write.ref]
    simp only [revokeWhere, bind_assoc, pure_bind]
    refine wp_updateRows_bind ⟨rfl, rfl⟩ (fun _ => rfl) (fun _ _ => False)
      (fun _ _ _ _ _ h => h) ?_ ?_
    · intro k s₆ s₇ x h₆ _ hx hpred hmiss
      rw [hquiet.view] at hx
      obtain ⟨y, hy, howns⟩ := session_rely hkeeps h₆ hx
      have hskip := hmiss y ((hquiet.view k).trans hy)
      rw [decide_eq_true_eq] at hpred
      exact of_decide_eq_false hskip (howns.trans hpred)
    · intro rows l₆ s₆ s₇ ws h₆ _ h₇ _ hup hseen hmine hdone
      have ha₆ : C.Along p l₅ s₅ ws l₆ s₇ := ⟨hup.grows, h₆.trans h₇⟩
      refine requests_commit hallows (ha₁₅.trans ha₆)
        fun s' c h' _ hc hwrites => ?_
      have ha' := (Along.refl l₆ s₇).wait h'
      have hlast := ha₄.trans (ha₅.trans (ha₆.trans ha'))
      rw [view_of_writes_nil (ha₁.trans ha₃).writes] at howner
      refine .reset row time owner passwordHash (l₅.view s₆) ws
        (hclaimed (ha₃.trans hlast) hc) ?_ ?_ ?_ ⟨?_, ?_, ?_⟩ hwrites
      · rw [← hid]
        exact ((ha₅.trans (ha₆.trans ha')).committed hc hlock₄).trans howner
      · rw [hc.session]
        exact hlast.grows.seen.subset List.mem_cons_self
      · rw [updatedOn, hc.session, hseen]
        exact findSome_scanned rows _ _
      · intro w hw
        obtain ⟨x, hx, _, hlook, hpred, _⟩ := (hup.rely h').writes w hw
        rw [hquiet.view, ← hc.before] at hlook
        rw [decide_eq_true_eq, hid] at hpred
        exact ⟨x, hx, hpred, hlook⟩
      · intro w hw
        obtain ⟨k, x, href, hx, hpred⟩ := hmine w hw
        rw [decide_eq_true_eq, hid] at hpred
        exact ⟨k, x, href, hx, hpred⟩
      · intro k x hx howns
        exact (hdone k x hx (by simpa [hid] using howns)).resolve_left
          fun hfalse => hfalse

/-- All account requests, under any contract that accepts their effects. -/
theorem requests_serve {request : Request} (hrequest : request.account)
    (hkeeps : Keeps C) (hallows : Allows H C request p) (hinv : C.inv s) :
    Requests C p (serve H settings request) {} s := by
  cases request with
  | register body client => exact requests_map (requests_register hallows) hinv
  | login body client => exact requests_map (requests_login hallows) hinv
  | verifyEmail body => exact requests_map (requests_verifyEmail hallows) hinv
  | resendVerification authorization client =>
      exact requests_map (requests_resendVerification hkeeps hallows) hinv
  | requestReset body client =>
      exact requests_map (requests_requestReset hkeeps hallows) hinv
  | resetPassword body =>
      exact requests_map (requests_resetPassword hkeeps hallows) hinv
  | _ => cases hrequest

end Endpoints

/-! ## Runs -/

/-- Every commit has the effects of its request. -/
def accounts (H : TokenHash) (requests : Pid → Request) : Contract schema where
  inv := fun _ => True
  assume := fun _ => True
  guar := fun c => Effects H (requests c.pid) c
  inv_draw := fun _ _ _ h => h

theorem keeps_accounts {H : TokenHash} {requests : Pid → Request} :
    Keeps (accounts H requests) :=
  fun _ hguar => hguar.keepsRows

theorem allows_accounts {H : TokenHash} {requests : Pid → Request} {p : Pid} :
    Allows H (accounts H requests) (requests p) p := by
  intro l s c _ hc _ _ heffects
  refine ⟨?_, trivial⟩
  change Effects H (requests c.pid) c
  rw [hc.pid]
  exact heffects

theorem sound_accounts {H : TokenHash} {settings : Settings}
    {requests : Pid → Request} (hrequests : ∀ p, (requests p).account)
    {s₀ : Db} {w : World schema AppError Response}
    (hreach : Reachable (clients H settings requests s₀) w) :
    Sound (accounts H requests) (fun _ _ _ _ => True) (fun _ => Unwritten) w :=
  sound (C := accounts H requests) trivial
    (fun p => requests_serve (hrequests p) keeps_accounts allows_accounts
      trivial) hreach fun _ _ => trivial

end Workstream.Auth
