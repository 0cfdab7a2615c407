import Workstream.Modules.Organizations.Steps

/-!
# Invitations

An invitation is the only way into an organization that exists.  It is marked
in the commit that lets its addressee in, and a marked invitation lets nobody
in, so it makes one membership at most.
-/

namespace Workstream.Organizations

open ReadCommitted Contract World

/-- Only `create` makes an organization. -/
def Request.founds : Request → Bool
  | .create _ _ _ => true
  | _ => false

/-- The commit makes a membership out of the invitation `r`. -/
def Admits (H : TokenHash) (request : Request) (c : Commit schema)
    (r : Invitation) : Prop :=
  ∃ u, Accepts H request c u r ∧ member r.organizationId u c.before = none ∧
    (member r.organizationId u c.after).isSome

/-- The invitation `i` has been accepted. -/
def Accepted (i : Uuid) (db : Db) : Prop :=
  ∃ r, invitation i db = some r ∧ r.acceptedAt ≠ none

section Commits

variable {H : TokenHash} {past : List schema.Ref → Db → Prop}
  {request : Request} {c : Commit schema}

theorem Accepts.accepted {u : Uuid} {r : Invitation}
    (h : Accepts H request c u r) : Accepted r.id c.after := by
  obtain ⟨τ, hmarked⟩ := h.marked
  exact ⟨_, hmarked, by simp⟩

theorem Accepts.not_accepted {u : Uuid} {r : Invitation}
    (h : Accepts H request c u r) : ¬ Accepted r.id c.before := by
  rintro ⟨r', hr', haccepted⟩
  rw [h.row] at hr'
  obtain rfl := Option.some.inj hr'
  exact haccepted h.opened

/-- An accepted invitation stays accepted. -/
theorem Effects.stays_accepted (h : Effects H past request c) {i : Uuid}
    (hi : Accepted i c.before) : Accepted i c.after := by
  have hold := hi
  obtain ⟨r, hr, haccepted⟩ := hi
  cases h.invitationStep i with
  | same h => exact ⟨r, h.trans hr, haccepted⟩
  | invited O actor body raw time _ _ _ hbefore =>
      rw [hbefore] at hr
      cases hr
  | revoked r' time hbefore hafter =>
      rw [hbefore] at hr
      obtain rfl := Option.some.inj hr
      exact ⟨_, hafter, haccepted⟩
  | accepted u r' haccepts hid =>
      subst hid
      exact haccepts.accepted

/-- No invitation makes an owner. -/
def NoOwnerInvited (db : Db) : Prop :=
  ∀ i r, invitation i db = some r → r.role ≠ .owner

theorem Effects.noOwnerInvited (h : Effects H past request c)
    (hc : NoOwnerInvited c.before) : NoOwnerInvited c.after := by
  intro i r hr
  cases h.invitationStep i with
  | same h => exact hc i r (h ▸ hr)
  | invited O actor body raw time _ _ _ _ hafter =>
      rw [hafter] at hr
      obtain rfl := Option.some.inj hr
      exact body.role_ne_owner
  | revoked r' time hbefore hafter =>
      rw [hafter] at hr
      obtain rfl := Option.some.inj hr
      exact hc i r' hbefore
  | accepted u r' haccepts hid =>
      obtain ⟨τ, hmarked⟩ := haccepts.marked
      rw [← hid, hmarked] at hr
      obtain rfl := Option.some.inj hr
      exact hc r'.id r' haccepts.row

/-- Who becomes a member of an organization that nobody founds has accepted an
invitation. -/
theorem Effects.admits (h : Effects H past request c)
    (hfounds : request.founds = false) {O u : Uuid} {m : Membership}
    (hbefore : member O u c.before = none)
    (hafter : member O u c.after = some m) :
    ∃ r, Accepts H request c u r ∧ r.organizationId = O ∧
      m.role = r.role := by
  cases h.memberStep O u with
  | same h =>
      rw [h, hbefore] at hafter
      cases hafter
  | founded user body requestId hrequest =>
      rw [hrequest] at hfounds
      cases hfounds
  | roleSet actor body m' _ hsome =>
      rw [hbefore] at hsome
      cases hsome
  | removed actor _ hnone =>
      rw [hnone] at hafter
      cases hafter
  | joined r haccepts horganization _ hsome =>
      rw [hsome] at hafter
      obtain rfl := Option.some.inj hafter
      exact ⟨r, haccepts, horganization, rfl⟩

/-- `accept` never changes a membership. -/
theorem Effects.member_accept (h : Effects H past request c) {actor : User}
    {body : InvitationAccept} (hrequest : request = .accept actor body)
    {O u : Uuid} {m : Membership} (hm : member O u c.before = some m) :
    member O u c.after = some m := by
  subst hrequest
  cases h.memberStep O u with
  | same h => exact h.trans hm
  | founded _ _ _ hrequest => cases hrequest
  | roleSet _ _ _ hrequest => cases hrequest
  | removed _ hrequest => cases hrequest
  | joined r _ _ hnone =>
      rw [hm] at hnone
      cases hnone

end Commits

/-! ## Every run -/

section Runs

variable {H : TokenHash} {requests : Pid → Request} {s₀ db : Db}
  {log : List (Commit schema)}

theorem noOwnerInvited_of_chain (h : Chain s₀ log db)
    (heffects : ∀ c ∈ log, ∃ past, Effects H past (requests c.pid) c)
    (hs₀ : NoOwnerInvited s₀) :
    NoOwnerInvited db ∧ ∀ c ∈ log, NoOwnerInvited c.before := by
  refine h.induction heffects (P := fun log (s : Db) => NoOwnerInvited s ∧
    ∀ c ∈ log, NoOwnerInvited c.before) ⟨hs₀, by simp⟩ ?_
  rintro c older ⟨past, hc⟩ ⟨hbefore, holder⟩
  refine ⟨hc.noOwnerInvited hbefore, fun d hd => ?_⟩
  rcases List.mem_cons.mp hd with rfl | hd
  · exact hbefore
  · exact holder d hd

/-- Commits that make memberships use different invitations. -/
theorem admits_of_chain (h : Chain s₀ log db)
    (heffects : ∀ c ∈ log, ∃ past, Effects H past (requests c.pid) c) :
    (log.Pairwise fun d c => ∀ r r', Admits H (requests c.pid) c r →
      Admits H (requests d.pid) d r' → r.id ≠ r'.id) ∧
    ∀ c ∈ log, ∀ r, Admits H (requests c.pid) c r → Accepted r.id db := by
  refine h.induction heffects (P := fun log (s : Db) =>
    (log.Pairwise fun d c => ∀ r r', Admits H (requests c.pid) c r →
      Admits H (requests d.pid) d r' → r.id ≠ r'.id) ∧
    ∀ c ∈ log, ∀ r, Admits H (requests c.pid) c r → Accepted r.id s)
    ⟨List.Pairwise.nil, by simp⟩ ?_
  rintro d older ⟨past, hd⟩ ⟨hpairs, haccepted⟩
  constructor
  · refine List.pairwise_cons.mpr ⟨fun c hc r r' hr hr' hid => ?_, hpairs⟩
    obtain ⟨_, haccepts, _⟩ := hr'
    exact haccepts.not_accepted (hid ▸ haccepted c hc r hr)
  · intro c hc r hr
    rcases List.mem_cons.mp hc with rfl | hc
    · obtain ⟨_, haccepts, _⟩ := hr
      exact haccepts.accepted
    · exact hd.stays_accepted (haccepted c hc r hr)

/-- There is one membership at most of a user in an organization. -/
theorem nodup_members (db : Db) :
    ((db .memberships).rows.map fun m : Membership =>
      (m.organizationId, m.userId)).Nodup := by
  have hkeys := (db .memberships).nodup
  refine List.Nodup.of_map (fun x : Uuid × Uuid => Key.pair x.1 x.2) ?_
  rw [List.map_map]
  exact hkeys

/-- Acceptance is the only way in, each invitation is good for one membership,
and acceptance leaves the memberships alone that are there. -/
theorem invitations_admit_once (H : TokenHash) (requests : Pid → Request)
    (hrequests : ∀ p, (requests p).founds = false) {s₀ : Db}
    (hinvited : NoOwnerInvited s₀) {w : World schema AppError Unit}
    (hreach : Reachable (clients H requests s₀) w) :
    (∀ c ∈ w.log, ∀ O u m, member O u c.before = none →
      member O u c.after = some m →
        ∃ r, Accepts H (requests c.pid) c u r ∧ r.organizationId = O ∧
          m.role = r.role ∧ m.role ≠ .owner) ∧
    (w.log.Pairwise fun d c => ∀ r r', Admits H (requests c.pid) c r →
      Admits H (requests d.pid) d r' → r.id ≠ r'.id) ∧
    (∀ c ∈ w.log, ∀ actor body, requests c.pid = .accept actor body →
      ∀ O u m, member O u c.before = some m →
        member O u c.after = some m) ∧
    ((w.store .memberships).rows.map fun m : Membership =>
      (m.organizationId, m.userId)).Nodup := by
  have hguar := (sound_services hreach).guar
  have hchain := (wellFormed_of_reachable hreach).chain
  have hbefore := (noOwnerInvited_of_chain hchain hguar hinvited).2
  refine ⟨?_, (admits_of_chain hchain hguar).1, ?_, nodup_members w.store⟩
  · intro c hc O u m hnone hsome
    obtain ⟨past, heffects⟩ := hguar c hc
    obtain ⟨r, haccepts, horganization, hrole⟩ :=
      heffects.admits (hrequests c.pid) hnone hsome
    refine ⟨r, haccepts, horganization, hrole, ?_⟩
    rw [hrole]
    exact hbefore c hc r.id r haccepts.row
  · intro c hc actor body hrequest O u m hm
    obtain ⟨past, heffects⟩ := hguar c hc
    exact heffects.member_accept hrequest hm

end Runs

/-! ## A run with an invitation -/

/-- Bob's organization. -/
def oneOwner : Db :=
  Store.view (σ := schema)
    [.put .organizations
        { id := 10, name := "Team", slug := "team", createdAt := 0
          updatedAt := 0 },
      .put .memberships { organizationId := 10, userId := 1, role := .owner }]
    (Store.empty schema)

/-- Bob invites Alice, who accepts twice. -/
def invitedTwice : Pid → Request
  | 0 => .invite 10 bob ⟨"alice@example.org", .admin, admin_ne_owner⟩
  | _ => .accept alice ⟨20⟩

theorem noOwnerInvited_oneOwner : NoOwnerInvited oneOwner := by
  intro i r hr
  cases hr

/-- Alice is in, by one of her two requests. -/
theorem invitations_admit_once_alice :
    ∃ w, Reachable (clients plainHash invitedTwice oneOwner) w ∧
      (∃ c ∈ w.log, ∃ r, Accepts plainHash (invitedTwice c.pid) c 2 r ∧
        r.organizationId = 10) ∧
      (w.log.Pairwise fun d c => ∀ r r',
        Admits plainHash (invitedTwice c.pid) c r →
        Admits plainHash (invitedTwice d.pid) d r' → r.id ≠ r'.id) := by
  have hrun : ((clients plainHash invitedTwice oneOwner).run
      (steps 0 [.go, .value 20, .value 3, .value 21, .go, .value 22, .value 3,
          .go, .value 23, .value 3, .go, .go] ++
        steps 1 [.order [.id 21]] ++ steps 2 [.order [.id 21]] ++
        steps 1 [.go, .go, .value 4, .go, .go, .order [.id 21], .go, .go,
          .value 24, .value 5, .go, .go] ++
        steps 2 [.go, .go, .value 6, .go])).any (fun w =>
      ∃ c ∈ w.log, member 10 2 c.before = none ∧
        (member 10 2 c.after).isSome) = true := by
    decide +kernel
  obtain ⟨w, hreach, c, hc, hnone, hsome⟩ := exists_reachable hrun
  obtain ⟨m, hm⟩ := Option.isSome_iff_exists.mp hsome
  have hrequests : ∀ p, (invitedTwice p).founds = false := by
    rintro (_ | p) <;> rfl
  obtain ⟨hadmits, honce, _, _⟩ := invitations_admit_once plainHash
    invitedTwice hrequests noOwnerInvited_oneOwner hreach
  obtain ⟨r, haccepts, horganization, _⟩ := hadmits c hc 10 2 m hnone hm
  exact ⟨w, hreach, ⟨c, hc, r, haccepts, horganization⟩, honce⟩

end Workstream.Organizations
