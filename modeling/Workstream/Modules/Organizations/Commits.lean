import Workstream.Modules.Organizations.Effects

/-!
# The commits of the organization service

Every endpoint commits what `Effects` says, under any interference, and an
endpoint that raises an error has written nothing.
-/

namespace Workstream.Organizations

open ReadCommitted Contract

/-! ## Rules -/

section Rules

variable {α : Type} {C : Contract schema} {p : Pid}
  {Q : α → Local schema → Shared schema → Prop}
  {E : AppError → Local schema → Shared schema → Prop}
  {l : Local schema} {s : Shared schema}

/-- The permission check as the first statement of a transaction. -/
theorem wp_checked_bind {O actorId : Uuid} {roles : List Role}
    {f : Membership → Tx α} (hroles : roles ≠ [])
    (h : ∀ m l' s', C.Along p {} s [] l' s' → C.inv s' →
      (∀ {ws l'' s'' c}, C.Along p l' s' ws l'' s'' → Makes p l'' s'' c →
        Checked (C.Past p s'') c O actorId roles m) →
      C.wp p Q E (f m) none l' s')
    (hE : ∀ e l' s', Grows {} l' [] → E e l' s') :
    C.wp p Q E (requireMembership O actorId roles >>= f) none {} s := by
  refine wp_requireMembership_bind (fun m s' h' hinv hm hrole => ?_) hE
  refine h m _ s' (Along.observe h' _) hinv fun ha hc => ?_
  exact ⟨contains_of_permitted hroles hrole, s'.store,
    checkedOn_eq hc.session ha.grows rfl, ha.past_nil hinv, hm⟩

/-- Locking a member of `O` holds its lock from before the member is read. -/
theorem wp_lockMember_bind {O k : Uuid} {held : Option Membership}
    {f : Membership → Tx α} (hempty : l.session.writes = [])
    (h : ∀ m l' s', C.Along p l s [] l' s' → C.inv s' →
      (∀ {ws l'' s'' c}, C.Along p l' s' ws l'' s'' → Makes p l'' s'' c →
        Found (C.Past p s'') c O k held m) →
      C.wp p Q E (f m) none l' s')
    (hE : ∀ e l' s', Grows l l' [] → E e l' s') :
    C.wp p Q E (lockMember O k held >>= f) none l s := by
  have hrest : ∀ x : Tx (Option Membership),
      x = held.elim (get .memberships (membershipKey O k))
        (fun m => pure (some m)) →
      ∀ l₁ s₁ refs, C.Along p l s [] l₁ s₁ → C.inv s₁ →
      (∀ r ∈ refs, l₁.locks r) →
      (∀ {ws l'' s'' c}, C.Along p l₁ s₁ ws l'' s'' → Makes p l'' s'' c →
        Locked (C.Past p s'') c O refs) →
      C.wp p Q E
        (x >>= fun x => Prog.require x (notFound "Member not found") >>= f)
        none l₁ s₁ := by
    rintro _ rfl l₁ s₁ refs ha₁ hinv₁ hrefs hlocked
    cases held with
    | some am =>
        refine h am l₁ s₁ ha₁ hinv₁ fun ha hc => ?_
        exact ⟨refs, hlocked ha hc, rfl⟩
    | none =>
        refine wp_get_bind fun s₂ h₂ hinv₂ => ?_
        have ha₂ : C.Along p l₁ s₁ [] _ s₂ :=
          Along.observe h₂ (.saw (l₁.view s₂))
        have hwrites : l₁.session.writes = [] := by
          rw [ha₁.grows.writes, hempty]
          rfl
        refine wp_require_bind (fun m hm => ?_)
          fun _ s' => hE _ _ s' (ha₁.trans ha₂).grows
        rw [view_of_writes_nil hwrites] at hm
        refine h m _ s₂ (ha₁.trans ha₂) hinv₂ fun ha hc => ?_
        exact ⟨refs, hlocked (ha₂.trans ha) hc, s₂.store,
          ha.past hinv₂ hrefs, hm⟩
  simp only [lockMember, bind_assoc]
  refine wp_lockKey_bind ?_ ?_
  · intro l₁ s₁ h₁ hinv₁ hg₁ hnone
    refine hrest _ (by cases held <;> rfl) l₁ s₁ [] ⟨hg₁, h₁⟩ hinv₁ (by simp)
      fun ha hc => ?_
    rw [view_of_writes_nil hempty] at hnone
    exact .missing s₁.store (ha.past_nil hinv₁) hnone
  · intro l₁ s₁ _ h₁ hinv₁ hg₁ _ hlock
    refine hrest _ (by cases held <;> rfl) l₁ s₁ [(.organizations, .id O)]
      ⟨hg₁, h₁⟩ hinv₁ ?_ ?_
    · intro r hr
      obtain rfl := List.mem_singleton.mp hr
      exact hlock
    · intro ws l'' s'' c ha hc
      exact .held ((hc.held _).mpr (ha.grows.locks _ hlock))

theorem wp_protectOwner_bind {O : Uuid} {m : Membership} {f : Unit → Tx α}
    (hempty : l.session.writes = []) (hinv : C.inv s)
    (h : ∀ l' s', C.Along p l s [] l' s' → C.inv s' →
      (∀ {ws l'' s''}, C.Along p l' s' ws l'' s'' →
        Spared (C.Past p s'') O m) →
      C.wp p Q E (f ()) none l' s')
    (hE : ∀ e l' s', Grows l l' [] → E e l' s') :
    C.wp p Q E (protectOwner O m >>= f) none l s := by
  simp only [protectOwner]
  split
  · rw [bind_assoc]
    refine wp_select_bind fun s₁ h₁ hinv₁ => ?_
    have ha₁ : C.Along p l s [] _ s₁ := Along.observe h₁ (.saw (l.view s₁))
    refine wp_ensure_bind (fun hok => ?_) fun _ s' => hE _ _ s' ha₁.grows
    rw [view_of_writes_nil hempty, decide_eq_true_eq] at hok
    exact h _ s₁ ha₁ hinv₁ fun ha _ => ⟨s₁.store, ha.past_nil hinv₁, hok⟩
  · next hrole =>
      exact h l s (.refl l s) hinv fun _ howner => absurd howner hrole

end Rules

/-! ## The endpoints -/

section Endpoints

variable {H : TokenHash} {C : Contract schema} {requests : Pid → Request}
  {p : Pid} {s : Shared schema}

/-- The contract accepts what the request of `p` commits. -/
abbrev Allows (H : TokenHash) (C : Contract schema)
    (requests : Pid → Request) (p : Pid) : Prop :=
  C.Accepts p fun past c => Effects H past (requests p) c

theorem requests_changeRole {O k : Uuid} {actor : User} {body : RoleChange}
    (hallows : Allows H C requests p)
    (hrequest : requests p = .changeRole O k actor body) :
    Requests C p (changeRole O k actor body) {} s := by
  simp only [changeRole]
  refine wp_checked_bind (by simp) (fun am l₁ s₁ ha₁ _ hchecked => ?_)
    fun _ _ _ hg => unwritten_of_grows hg
  refine wp_lockMember_bind ha₁.writes (fun m l₂ s₂ ha₂ hinv₂ hfound => ?_)
    fun _ _ _ hg => unwritten_of_grows (ha₁.grows.trans hg)
  have ha₁₂ := ha₁.trans ha₂
  have hrest : ∀ l₃ s₃, C.Along p l₂ s₂ [] l₃ s₃ → C.inv s₃ →
      Requests C p (do
        (if m.role = body.role then pure ()
          else Prog.updateKey (σ := schema) .memberships (membershipKey O k)
            fun m => { m with role := body.role })
        audit actor.id (some O) "membership.role_changed" "membership" k
          (.roles m.role body.role) none
        Prog.commitNow) l₃ s₃ := by
    intro l₃ s₃ ha₃ hinv₃
    have ha₁₃ := ha₁₂.trans ha₃
    by_cases hsame : m.role = body.role
    · rw [if_pos hsame, pure_bind]
      refine wp_audited_bind ha₁₃.grows rfl (by simp)
        fun l₄ s₄ event ha₄ _ haudit => ?_
      refine requests_commit hallows (ha₁₃.trans ha₄)
        fun s' c h' _ hc hwrites => ?_
      have ha' := (Along.refl l₄ s₄).wait h'
      have hlast := ha₃.trans (ha₄.trans ha')
      rw [hrequest]
      exact .roleKept am m event (hchecked (ha₂.trans hlast) hc)
        (hfound hlast hc) hsame (haudit ha' hc) hwrites
    · rw [if_neg hsame]
      refine wp_updateKey_bind
        fun l₄ s₃' s₄ r h₃ _ h₄ hinv₄ hr _ hg₄ hlock => ?_
      have ha₄ : C.Along p l₃ s₃ _ l₄ s₄ := ⟨hg₄, h₃.trans h₄⟩
      refine wp_audited_bind (ha₁₃.trans ha₄).grows rfl (by simp [Write.ref])
        fun l₅ s₅ event ha₅ _ haudit => ?_
      refine requests_commit hallows ((ha₁₃.trans ha₄).trans ha₅)
        fun s' c h' _ hc hwrites => ?_
      have ha' := (Along.refl l₅ s₅).wait h'
      have hlast := ha₃.trans (ha₄.trans (ha₅.trans ha'))
      rw [view_of_writes_nil ha₁₃.writes] at hr
      rw [hrequest]
      exact .roleChanged am m r event (hchecked (ha₂.trans hlast) hc)
        (hfound hlast hc) hsame (((ha₅.trans ha').committed hc hlock).trans hr)
        (haudit ha' hc) hwrites
  by_cases howner : body.role ≠ .owner
  · rw [if_pos howner]
    exact wp_protectOwner_bind ha₁₂.writes hinv₂
      (fun l' s' ha' hinv' _ => hrest l' s' ha' hinv')
      fun _ _ _ hg => unwritten_of_grows (ha₁₂.grows.trans hg)
  · rw [if_neg howner, pure_bind]
    exact hrest l₂ s₂ (.refl l₂ s₂) hinv₂

theorem requests_removeMember {O k : Uuid} {actor : User}
    (hallows : Allows H C requests p)
    (hrequest : requests p = .removeMember O k actor) :
    Requests C p (removeMember O k actor) {} s := by
  simp only [removeMember]
  refine wp_checked_bind (by simp) (fun am l₁ s₁ ha₁ _ hchecked => ?_)
    fun _ _ _ hg => unwritten_of_grows hg
  refine wp_lockMember_bind ha₁.writes (fun m l₂ s₂ ha₂ hinv₂ hfound => ?_)
    fun _ _ _ hg => unwritten_of_grows (ha₁.grows.trans hg)
  have ha₁₂ := ha₁.trans ha₂
  refine wp_ensure_bind (fun hok => ?_)
    fun _ _ => unwritten_of_grows ha₁₂.grows
  have hallowed : am.role = .admin → m.role ≠ .owner := by
    intro hadmin howner
    simp [hadmin, howner] at hok
  refine wp_protectOwner_bind ha₁₂.writes hinv₂
    (fun l₃ s₃ ha₃ _ hspared => ?_)
    fun _ _ _ hg => unwritten_of_grows (ha₁₂.grows.trans hg)
  have ha₁₃ := ha₁₂.trans ha₃
  refine wp_audited_bind ha₁₃.grows rfl (by simp)
    fun l₄ s₄ event ha₄ _ haudit => ?_
  refine wp_deleteKey_bind ?_ ?_
  · intro l₅ s₅ h₅ hinv₅ hgone hg₅
    have ha₅ : C.Along p l₄ s₄ [] l₅ s₅ := ⟨hg₅, h₅⟩
    have hlookup : (s₅.store .memberships).lookup (membershipKey O k) =
        none := by
      rw [(ha₁₃.trans ha₄).grows.view] at hgone
      rwa [Store.lookup_view_of_not_mem (by simp [Write.ref])] at hgone
    refine requests_commit hallows ((ha₁₃.trans ha₄).trans ha₅)
      fun s' c h' _ hc hwrites => ?_
    have ha' := (Along.refl l₅ s₅).wait h'
    have hlast := ha₃.trans (ha₄.trans (ha₅.trans ha'))
    rw [hrequest]
    exact .unremoved am m event s₅.store (hchecked (ha₂.trans hlast) hc)
      (hfound hlast hc) hallowed (ha'.past_nil hinv₅) hlookup
      (haudit (ha₅.trans ha') hc) hwrites
  · intro l₅ s₅ s₆ _ h₅ _ h₆ _ _ hg₅ _
    have ha₅ : C.Along p l₄ s₄ _ l₅ s₆ := ⟨hg₅, h₅.trans h₆⟩
    refine requests_commit hallows ((ha₁₃.trans ha₄).trans ha₅)
      fun s' c h' _ hc hwrites => ?_
    have ha' := (Along.refl l₅ s₆).wait h'
    have hlast := ha₃.trans (ha₄.trans (ha₅.trans ha'))
    rw [hrequest]
    exact .removed am m event (hchecked (ha₂.trans hlast) hc)
      (hfound hlast hc) hallowed (hspared (ha₄.trans (ha₅.trans ha')))
      (haudit (ha₅.trans ha') hc) hwrites

theorem requests_create {user : User} {body : OrganizationCreate}
    {requestId : String} (hallows : Allows H C requests p)
    (hrequest : requests p = .create user body requestId) :
    Requests C p (create user body requestId) {} s := by
  simp only [create]
  refine wp_freshId_bind fun id s₁ h₁ _ _ => ?_
  refine wp_now_bind fun τ s₂ h₂ _ => ?_
  refine wp_now_bind fun τ' s₃ h₃ _ => ?_
  have ha₃ : C.Along p {} s [] _ s₃ :=
    ((Along.draw h₁ id).trans (Along.observe h₂ (.answered Call.now τ))).trans
      (Along.observe h₃ (.answered Call.now τ'))
  set org : Organization :=
    { id, name := body.name, slug := body.slug, createdAt := τ
      updatedAt := τ' }
  refine wp_insertRow_bind (fun s₄ h₄ _ hnone => ?_) fun e s₄ _ _ _ => ?_
  · have ha₄ := Along.insert h₄ .organizations org
    refine wp_insertOrHalt_bind fun l₅ s₅ h₅ _ hnone₅ hg₅ hlocks₅ => ?_
    have ha₅ : C.Along p _ s₄ _ l₅ s₅ := ⟨hg₅, h₅⟩
    refine wp_audited_bind ((ha₃.trans ha₄).trans ha₅).grows rfl
      (by simp [Write.ref]) fun l₆ s₆ event ha₆ _ haudit => ?_
    refine requests_commit_bind hallows (((ha₃.trans ha₄).trans ha₅).trans ha₆)
      (fun s' c h' _ hc hwrites => ?_) fun _ _ => requests_ret _
    have ha' := (Along.refl l₆ s₆).wait h'
    have hnew := Store.lookup_of_conflict_none hnone
    have hmember := Store.lookup_of_conflict_none hnone₅
    rw [view_of_writes_nil ha₃.writes] at hnew
    rw [(ha₃.trans ha₄).grows.view,
      Store.lookup_view_of_not_mem (by simp [Write.ref])] at hmember
    rw [hrequest]
    refine .created org event rfl rfl ?_ ?_ (haudit ha' hc) hwrites
    · exact ((ha₅.trans (ha₆.trans ha')).committed hc
        (Or.inl List.mem_cons_self)).trans hnew
    · exact ((ha₆.trans ha').committed hc
        (hlocks₅ _ List.mem_cons_self)).trans hmember
  · split
    · exact wp_rollbackNow_bind fun s' _ _ =>
        wp_raise fun _ _ _ => unwritten_rolledBack ha₃.grows
    · exact wp_halt
    · next hnone => cases hnone

theorem requests_invite {O : Uuid} {actor : User} {body : InvitationCreate}
    (hallows : Allows H C requests p)
    (hrequest : requests p = .invite O actor body) :
    Requests C p (invite H O actor body) {} s := by
  simp only [invite]
  refine wp_checked_bind (by simp) (fun am l₁ s₁ ha₁ _ hchecked => ?_)
    fun _ _ _ hg => unwritten_of_grows hg
  refine wp_freshId_bind fun raw s₂ h₂ _ _ => ?_
  refine wp_now_bind fun time s₃ h₃ _ => ?_
  refine wp_freshId_bind fun id s₄ h₄ _ _ => ?_
  have ha₄ : C.Along p l₁ s₁ [] _ { s₄ with used := id :: s₄.used } :=
    ((Along.draw h₂ raw).trans
      (Along.observe h₃ (.answered Call.now time))).trans (Along.draw h₄ id)
  refine wp_insertOrHalt_bind fun l₅ s₅ h₅ _ hnone₅ hg₅ hlocks₅ => ?_
  have ha₅ : C.Along p _ _ _ l₅ s₅ := ⟨hg₅, h₅⟩
  have ha₁₅ := (ha₁.trans ha₄).trans ha₅
  refine wp_audited_bind ha₁₅.grows rfl (by simp [Write.ref])
    fun l₆ s₆ event ha₆ _ haudit => ?_
  refine wp_freshId_bind fun eventId s₇ h₇ _ _ => ?_
  refine wp_now_bind fun occurredAt s₈ h₈ _ => ?_
  have ha₈ : C.Along p l₆ s₆ [] _ s₈ :=
    (Along.draw h₇ eventId).trans
      (Along.observe h₈ (.answered Call.now occurredAt))
  refine wp_insertOrHalt_bind fun l₉ s₉ h₉ _ hnone₉ hg₉ hlocks₉ => ?_
  have ha₉ : C.Along p _ s₈ _ l₉ s₉ := ⟨hg₉, h₉⟩
  have ha₁₈ := ha₁₅.trans (ha₆.trans ha₈)
  refine requests_commit_bind hallows (ha₁₈.trans ha₉)
    (fun s' c h' _ hc hwrites => ?_) fun _ _ => requests_ret _
  have ha' := (Along.refl l₉ s₉).wait h'
  have hlast := ha₆.trans (ha₈.trans (ha₉.trans ha'))
  have hnew := Store.lookup_of_conflict_none hnone₅
  have hevent := Store.lookup_of_conflict_none hnone₉
  rw [view_of_writes_nil (ha₁.trans ha₄).writes] at hnew
  rw [ha₁₈.grows.view, Store.lookup_view_of_not_mem (by simp [Write.ref])]
    at hevent
  rw [hrequest]
  refine .invited am id eventId raw time occurredAt event
    (hchecked (ha₄.trans (ha₅.trans hlast)) hc) ?_ ?_ ?_
    (haudit (ha₈.trans (ha₉.trans ha')) hc) hwrites
  · rw [hc.session]
    exact (ha₅.trans hlast).grows.ids _
      (List.mem_cons_of_mem id List.mem_cons_self)
  · exact (hlast.committed hc (hlocks₅ _ List.mem_cons_self)).trans hnew
  · exact (ha'.committed hc (hlocks₉ _ List.mem_cons_self)).trans hevent

theorem requests_revokeInvitation {O i : Uuid} {actor : User}
    (hallows : Allows H C requests p)
    (hrequest : requests p = .revokeInvitation O i actor) :
    Requests C p (revokeInvitation O i actor) {} s := by
  simp only [revokeInvitation]
  refine wp_checked_bind (by simp) (fun am l₁ s₁ ha₁ _ hchecked => ?_)
    fun _ _ _ hg => unwritten_of_grows hg
  refine wp_lockRows_bind ⟨rfl, rfl⟩ (fun _ => rfl)
    fun rows l₂ s₂ h₂ _ hg₂ hrows => ?_
  have ha₂ : C.Along p l₁ s₁ [] l₂ s₂ := ⟨hg₂, h₂⟩
  refine wp_scalarOneOrNone_bind fun o ho => ?_
  refine wp_require_bind (fun r hr => ?_)
    fun _ _ => unwritten_of_grows (ha₁.trans ha₂).grows
  obtain ⟨hlook, hpred, hlock⟩ :=
    hrows r (by rw [ho, hr]; exact List.mem_cons_self)
  obtain ⟨rfl, horganization⟩ := of_decide_eq_true hpred
  refine wp_now_bind fun time s₃ h₃ _ => ?_
  have ha₃ : C.Along p l₂ s₂ [] _ s₃ :=
    Along.observe h₃ (.answered Call.now time)
  have hnow : (Local.view (l₂.observe (.answered Call.now time)) s₃
      .invitations).lookup (.id r.id) = some r :=
    (h₃.lookup_view_eq hlock).trans hlook
  refine wp_updateHeld_bind hnow hlock fun l₄ s₄ h₄ _ _ hg₄ _ => ?_
  have ha₄ : C.Along p _ s₃ _ l₄ s₄ := ⟨hg₄, h₄⟩
  have ha₁₃ := ha₁.trans (ha₂.trans ha₃)
  refine wp_audited_bind (ha₁₃.trans ha₄).grows rfl (by simp [Write.ref])
    fun l₅ s₅ event ha₅ _ haudit => ?_
  refine requests_commit hallows ((ha₁₃.trans ha₄).trans ha₅)
    fun s' c h' _ hc hwrites => ?_
  have ha' := (Along.refl l₅ s₅).wait h'
  have hlast := ha₃.trans (ha₄.trans (ha₅.trans ha'))
  rw [view_of_writes_nil (ha₁.trans ha₂).writes] at hlook
  rw [hrequest]
  exact .revoked am r time event (hchecked (ha₂.trans hlast) hc)
    ((hlast.committed hc hlock).trans hlook) horganization (haudit ha' hc)
    hwrites

/-- The end of an accepted invitation, of which `r` is locked. -/
theorem requests_join {actor : User} {body : InvitationAccept}
    {r : Invitation} {time : Instant} {l₀ l : Local schema}
    {s₀ s : Shared schema} (hallows : Allows H C requests p)
    (hrequest : requests p = .accept actor body)
    (hcalls : l₀.session.calls = [])
    (ha : C.Along p {} s₀ [] l s)
    (hgrows : Grows (l₀.observe (.answered Call.now time)) l [])
    (hlook : (s.store .invitations).lookup (.id r.id) = some r)
    (hlock : l.locks (.invitations, .id r.id))
    (hhash : r.tokenHash = H.hash body.token)
    (hemail : r.invitedEmail = actor.email) (hopen : r.acceptedAt = none)
    (hvalid : r.revokedAt = none) (hexpires : time < r.expiresAt) :
    Requests C p (join actor r time) l s := by
  have hrest : ∀ l₂ s₂ ws, C.Along p l s ws l₂ s₂ →
      (∀ x ∈ ws, x.ref.1 = Table.memberships) →
      (∀ {vs l'' s'' c}, C.Along p l₂ s₂ vs l'' s'' → Makes p l'' s'' c →
        Joins (C.Past p s'') c actor r time
          (ws ++ [.put .invitations { r with acceptedAt := some time }])) →
      Requests C p (do
        Prog.updateKey (σ := schema) .invitations (.id r.id)
          fun i => { i with acceptedAt := some (r.acceptedAt.getD time) }
        audit actor.id (some r.organizationId) "invitation.accepted"
          "invitation" r.id .empty none
        Prog.commitNow) l₂ s₂ := by
    intro l₂ s₂ ws ha₂ hws hjoins
    have hview : (l₂.view s₂ .invitations).lookup (.id r.id) = some r := by
      rw [(ha.trans ha₂).grows.view, Store.lookup_view_of_not_mem]
      · exact (ha₂.lookup hlock).trans hlook
      · intro x hx href
        have htable := hws x hx
        simp [href] at htable
    refine wp_updateHeld_bind hview (ha₂.grows.locks _ hlock)
      fun l₃ s₃ h₃ _ _ hg₃ _ => ?_
    rw [hopen, Option.getD_none] at hg₃
    have ha₃ : C.Along p l₂ s₂ _ l₃ s₃ := ⟨hg₃, h₃⟩
    refine wp_audited_bind ((ha.trans ha₂).trans ha₃).grows rfl ?_
      fun l₄ s₄ event ha₄ _ haudit => ?_
    · intro x hx
      rcases List.mem_append.mp hx with hx | hx
      · rw [hws x hx]
        decide
      · obtain rfl := List.mem_singleton.mp hx
        simp [Write.ref]
    · refine requests_commit hallows (((ha.trans ha₂).trans ha₃).trans ha₄)
        fun s' c h' _ hc hwrites => ?_
      have ha' := (Along.refl l₄ s₄).wait h'
      have hlast := ha₂.trans (ha₃.trans (ha₄.trans ha'))
      rw [hrequest]
      exact .accepted r time _ event
        (readNow_eq hc.session (hgrows.trans hlast.grows) hcalls)
        ((hlast.committed hc hlock).trans hlook) hhash hemail hopen hvalid
        hexpires (hjoins (ha₃.trans (ha₄.trans ha')) hc) (haudit ha' hc)
        hwrites
  simp only [join]
  refine wp_get_bind fun s₁ h₁ hinv₁ => ?_
  rw [view_of_writes_nil ha.writes]
  have ha₁ : C.Along p l s [] _ s₁ := Along.observe h₁ (.saw s₁.store)
  cases hmember : (s₁.store .memberships).lookup
      (membershipKey r.organizationId actor.id) with
  | none =>
      refine wp_insertOrHalt_bind fun l₂ s₂ h₂ _ hnone hg₂ hlocks₂ => ?_
      have ha₂ : C.Along p _ s₁ _ l₂ s₂ := ⟨hg₂, h₂⟩
      refine hrest l₂ s₂ _ (ha₁.trans ha₂) (by simp [Write.ref])
        fun hlast hc => .member ?_
      have hnew := Store.lookup_of_conflict_none hnone
      rw [view_of_writes_nil (ha.trans ha₁).writes] at hnew
      exact (hlast.committed hc (hlocks₂ _ List.mem_cons_self)).trans hnew
  | some m =>
      exact hrest _ s₁ [] ha₁ (by simp) fun hlast hc =>
        .already s₁.store m ((Along.refl _ s₁).trans hlast |>.past_nil hinv₁)
          hmember

theorem requests_accept {actor : User} {body : InvitationAccept}
    (hallows : Allows H C requests p)
    (hrequest : requests p = .accept actor body) :
    Requests C p (accept H actor body) {} s := by
  simp only [accept]
  refine wp_lockSome_bind (fun _ => rfl)
    fun rows l₁ s₁ h₁ _ hg₁ hcalls hrows _ => ?_
  have ha₁ : C.Along p {} s [] l₁ s₁ := ⟨hg₁, h₁⟩
  refine wp_scalarOneOrNone_bind fun o ho => ?_
  refine wp_now_bind fun time s₂ h₂ _ => ?_
  have ha₂ : C.Along p l₁ s₁ [] _ s₂ :=
    Along.observe h₂ (.answered Call.now time)
  have ha₁₂ := ha₁.trans ha₂
  refine wp_require_bind (fun r hr => ?_)
    fun _ _ => unwritten_of_grows ha₁₂.grows
  refine wp_ensure_bind (fun hvalid => ?_)
    fun _ _ => unwritten_of_grows ha₁₂.grows
  refine wp_ensure_bind (fun hemail => ?_)
    fun _ _ => unwritten_of_grows ha₁₂.grows
  obtain ⟨hlook, hpred, hlock⟩ :=
    hrows.rely h₂ r (by rw [ho, hr]; exact List.mem_cons_self)
  rw [view_of_writes_nil ha₁.writes] at hlook
  rw [Bool.and_eq_true, Option.isNone_iff_eq_none, decide_eq_true_iff]
    at hvalid
  split
  · exact requests_ret ()
  · next hopen =>
      rw [Option.isSome_iff_ne_none, ne_eq, not_not] at hopen
      exact requests_join hallows hrequest hcalls ha₁₂ (.refl _) hlook hlock
        (of_decide_eq_true hpred) (of_decide_eq_true hemail) hopen hvalid.1
        hvalid.2

theorem requests_update {O : Uuid} {user : User} {body : OrganizationUpdate}
    (hallows : C.Accepts p fun past c => Renames past c O user body) :
    Requests C p (update O user body) {} s := by
  simp only [update]
  refine wp_permitted_bind (by simp) (fun m l₁ s₁ ha₁ _ _ hpermitted => ?_)
    fun _ _ _ hg => unwritten_of_grows hg
  refine wp_get_bind fun s₂ h₂ hinv₂ => ?_
  rw [view_of_writes_nil ha₁.writes]
  have ha₂ : C.Along p l₁ s₁ [] _ s₂ := Along.observe h₂ (.saw s₂.store)
  refine wp_require_bind (fun org horganization => ?_)
    fun _ s' => unwritten_of_grows (ha₁.trans ha₂).grows
  have hid : Key.id org.id = .id O := Relation.key_of_lookup horganization
  refine wp_now_bind fun time s₃ h₃ _ => ?_
  have ha₃ : C.Along p _ s₂ [] _ s₃ :=
    Along.observe h₃ (.answered Call.now time)
  have ha₁₃ := ha₁.trans (ha₂.trans ha₃)
  rw [Key.id.inj hid]
  by_cases hsame : org.name = body.name
  · rw [if_pos hsame, pure_bind]
    refine wp_audited_bind ha₁₃.grows rfl (by simp)
      fun l₄ s₄ event ha₄ _ haudit => ?_
    refine requests_commit_bind hallows (ha₁₃.trans ha₄)
      (fun s' c h' _ hc hwrites => ?_) fun _ _ => requests_ret _
    have ha' := (Along.refl l₄ s₄).wait h'
    have hend := ha₃.trans (ha₄.trans ha')
    exact .kept m org event (hpermitted (ha₂.trans hend) rfl)
      ⟨s₂.store, hend.past_nil hinv₂, horganization⟩ hsame (haudit ha' hc)
      hwrites
  · rw [if_neg hsame]
    refine wp_updateKey_bind fun l₄ s₃' s₄ r h₄ _ h₄' _ hlook _ hg₄ hlock => ?_
    have ha₄ : C.Along p _ s₃ _ l₄ s₄ := ⟨hg₄, h₄.trans h₄'⟩
    refine wp_audited_bind (ha₁₃.trans ha₄).grows rfl (by simp [Write.ref])
      fun l₅ s₅ event ha₅ _ haudit => ?_
    refine requests_commit_bind hallows ((ha₁₃.trans ha₄).trans ha₅)
      (fun s' c h' _ hc hwrites => ?_) fun _ _ => requests_ret _
    have ha' := (Along.refl l₅ s₅).wait h'
    have hend := ha₃.trans (ha₄.trans (ha₅.trans ha'))
    rw [view_of_writes_nil ha₁₃.writes] at hlook
    exact .renamed m org r time event (hpermitted (ha₂.trans hend) rfl)
      ⟨s₂.store, hend.past_nil hinv₂, horganization⟩ hsame
      (((ha₅.trans ha').committed hc hlock).trans hlook) (haudit ha' hc)
      hwrites

/-- All requests, under any contract that accepts their effects. -/
theorem requests_serve (hallows : Allows H C requests p) (hinv : C.inv s) :
    Requests C p (serve H (requests p)) {} s := by
  cases hrequest : requests p with
  | create user body requestId =>
      have h := requests_create hallows hrequest (s := s)
      exact wp_bind (wp_mono h .none (fun _ _ _ _ _ => requests_ret ())
        (fun _ _ _ _ he => he) hinv) hinv
  | changeRole O k actor body => exact requests_changeRole hallows hrequest
  | removeMember O k actor => exact requests_removeMember hallows hrequest
  | invite O actor body =>
      have h := requests_invite hallows hrequest (s := s)
      exact wp_bind (wp_mono h .none (fun _ _ _ _ _ => requests_ret ())
        (fun _ _ _ _ he => he) hinv) hinv
  | revokeInvitation O i actor =>
      exact requests_revokeInvitation hallows hrequest
  | accept actor body => exact requests_accept hallows hrequest

end Endpoints

/-! ## Runs -/

/-- Every commit has the effects of its request. -/
def services (H : TokenHash) (requests : Pid → Request) : Contract schema where
  inv := fun _ => True
  assume := fun _ => True
  guar := fun c => ∃ past, Effects H past (requests c.pid) c
  inv_draw := fun _ _ _ h => h

theorem allows_services {H : TokenHash} {requests : Pid → Request} {p : Pid} :
    Allows H (services H requests) requests p := by
  intro l s c _ hc _ _ heffects
  refine ⟨⟨(services H requests).Past p s, ?_⟩, trivial⟩
  rw [hc.pid]
  exact heffects

/-- The world in which every client is about to send its request. -/
abbrev clients (H : TokenHash) (requests : Pid → Request) (s₀ : Db) :
    World schema AppError Unit :=
  World.start s₀ fun p => serve H (requests p)

theorem sound_services {H : TokenHash} {requests : Pid → Request} {s₀ : Db}
    {w : World schema AppError Unit}
    (hreach : Reachable (clients H requests s₀) w) :
    Sound (services H requests) (fun _ _ _ _ => True) (fun _ => Unwritten)
      w :=
  sound (C := services H requests) trivial
    (fun _ => requests_serve allows_services trivial) hreach
    fun _ _ => trivial

end Workstream.Organizations
