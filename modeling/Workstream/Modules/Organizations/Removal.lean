import Workstream.Modules.Organizations.Invitations

/-!
# Members who have been removed

Requests that are completed one after the other read the store on which they
commit.  A removed member comes back with an invitation that was open when he
was removed, or that was made later, and with no other.
-/

namespace Workstream.Organizations

open ReadCommitted Contract World

/-! ## Histories -/

/-- Completed requests, newest first, lead from `s₀` to `s`. -/
abbrev History (H : TokenHash) (s₀ : Db) (turns : List (Turn schema Request))
    (s : Db) : Prop :=
  Turns (serve H) s₀ turns s

/-- The effects of a request that is alone are on the store of its commit. -/
abbrev Does (H : TokenHash) (t : Turn schema Request) : Prop :=
  t.Does fun past c => Effects H past t.request c

theorem History.induction {H : TokenHash} {s₀ s : Db}
    {turns : List (Turn schema Request)} (h : History H s₀ turns s)
    {P : List (Turn schema Request) → Db → Prop} (hnil : P [] s₀)
    (hcons : ∀ t ts, P ts t.before → Does H t → P (t :: ts) t.after) :
    P turns s := by
  refine Turns.induction (G := fun r past c => Effects H past r c) h ?_ hnil
    hcons
  intro r C p u hallows hinv
  exact @requests_serve H C (fun _ => r) p u hallows hinv

theorem does_of_completes {H : TokenHash} {t : Turn schema Request}
    (h : Completes t.before (serve H t.request) t.after) : Does H t :=
  h.cases (G := fun past c => Effects H past t.request c)
    fun C p v hallows hinv =>
      @requests_serve H C (fun _ => t.request) p v hallows hinv

/-- Members and invitations of `O` refer to an organization that exists. -/
structure References (O : Uuid) (db : Db) : Prop where
  members : ∀ u m, member O u db = some m → Registered db O
  invitations : ∀ i r, invitation i db = some r → r.organizationId = O →
    Registered db O

section Commits

variable {H : TokenHash} {request : Request} {c : Commit schema} {O : Uuid}

/-- Effects without interference: the past is the store of the commit. -/
abbrev Alone (H : TokenHash) (request : Request) (c : Commit schema) : Prop :=
  Effects H (fun _ db => db = c.before) request c

theorem Effects.references (h : Alone H request c)
    (hrefs : References O c.before) : References O c.after := by
  constructor
  · intro u m hm
    cases h.memberStep O u with
    | same h' => exact h.registered (hrefs.members u m (h' ▸ hm))
    | founded user body requestId _ _ hregistered => exact hregistered
    | roleSet actor body m' _ hbefore _ =>
        exact h.registered (hrefs.members u m' hbefore)
    | removed actor _ hnone =>
        rw [hnone] at hm
        cases hm
    | joined r haccepts horganization _ _ =>
        exact h.registered
          (hrefs.invitations r.id r haccepts.row horganization)
  · intro i r hr hO
    cases h.invitationStep i with
    | same h' => exact h.registered (hrefs.invitations i r (h' ▸ hr) hO)
    | invited o actor body raw time am _ hchecked _ hafter =>
        rw [hafter] at hr
        obtain rfl := Option.some.inj hr
        obtain rfl : o = O := hO
        obtain ⟨_, db, _, rfl, ham⟩ := hchecked
        exact h.registered (hrefs.members actor.id am ham)
    | revoked r' time hbefore hafter =>
        rw [hafter] at hr
        obtain rfl := Option.some.inj hr
        exact h.registered (hrefs.invitations i r' hbefore hO)
    | accepted u r' haccepts hid =>
        obtain ⟨τ, hmarked⟩ := haccepts.marked
        rw [← hid, hmarked] at hr
        obtain rfl := Option.some.inj hr
        exact h.registered (hrefs.invitations r'.id r' haccepts.row hO)

end Commits

theorem History.references {H : TokenHash} {s₀ s : Db} {O : Uuid}
    {turns : List (Turn schema Request)} (h : History H s₀ turns s)
    (hrefs : References O s₀) : References O s := by
  refine h.induction (P := fun _ (s : Db) => References O s) hrefs ?_
  rintro t ts ht (hidle | ⟨c, heffects, hbefore, hafter⟩)
  · rwa [hidle]
  · rw [← hbefore] at ht heffects
    exact hafter ▸ heffects.references ht

/-! ## Closed invitations -/

/-- `i` is neither accepted nor revoked. -/
def Outstanding (i : Uuid) (db : Db) : Prop :=
  ∃ r, invitation i db = some r ∧ r.acceptedAt = none ∧ r.revokedAt = none

/-- `u` has accepted the invitation `r`, which was outstanding. -/
structure TakenUp (H : TokenHash) (t : Turn schema Request) (u : Uuid)
    (r : Invitation) : Prop where
  request : ∃ actor body, t.request = .accept actor body ∧ actor.id = u ∧
    r.tokenHash = H.hash body.token ∧ r.invitedEmail = actor.email
  row : invitation r.id t.before = some r
  opened : r.acceptedAt = none
  valid : r.revokedAt = none
  marked : ∃ τ, invitation r.id t.after = some { r with acceptedAt := some τ }

theorem TakenUp.outstanding {H : TokenHash} {t : Turn schema Request}
    {u : Uuid} {r : Invitation} (h : TakenUp H t u r) :
    Outstanding r.id t.before :=
  ⟨r, h.row, h.opened, h.valid⟩

section Outstanding

variable {H : TokenHash} {past : List schema.Ref → Db → Prop}
  {request : Request} {c : Commit schema}

/-- An invitation that is outstanding has been so before, unless it is new. -/
theorem Effects.outstanding (h : Effects H past request c) {i : Uuid}
    (hi : Outstanding i c.after) :
    invitation i c.before = none ∨ Outstanding i c.before := by
  obtain ⟨r, hr, hopen, hvalid⟩ := hi
  cases h.invitationStep i with
  | same h => exact Or.inr ⟨r, h ▸ hr, hopen, hvalid⟩
  | invited o actor body raw time am _ _ hnone _ => exact Or.inl hnone
  | revoked r' time _ hafter =>
      rw [hafter] at hr
      obtain rfl := Option.some.inj hr
      cases hvalid
  | accepted u r' haccepts hid =>
      obtain ⟨τ, hmarked⟩ := haccepts.marked
      rw [← hid, hmarked] at hr
      obtain rfl := Option.some.inj hr
      cases hopen

/-- No invitation is deleted. -/
theorem Effects.invitation_none (h : Effects H past request c) {i : Uuid}
    (hi : invitation i c.after = none) : invitation i c.before = none := by
  cases h.invitationStep i with
  | same h => exact h ▸ hi
  | invited o actor body raw time am _ _ hnone _ => exact hnone
  | revoked r' time _ hafter =>
      rw [hafter] at hi
      cases hi
  | accepted u r' haccepts hid =>
      obtain ⟨τ, hmarked⟩ := haccepts.marked
      rw [← hid, hmarked] at hi
      cases hi

end Outstanding

/-! ## After a removal -/

section Removal

variable {H : TokenHash} {d s : Db} {O u : Uuid}
  {turns : List (Turn schema Request)}

/-- An invitation that is outstanding was so at any earlier time, or was not
there. -/
structure Opened (d s : Db) : Prop where
  outstanding : ∀ i, Outstanding i s → invitation i d = none ∨ Outstanding i d
  absent : ∀ i, invitation i s = none → invitation i d = none

theorem Opened.refl (d : Db) : Opened d d :=
  ⟨fun _ hi => Or.inr hi, fun _ hi => hi⟩

theorem Opened.commit {request : Request} {c : Commit schema}
    (h : Opened d c.before) (heffects : Alone H request c) :
    Opened d c.after where
  outstanding := by
    intro i hi
    rcases heffects.outstanding hi with hnone | hbefore
    · exact Or.inl (h.absent i hnone)
    · exact h.outstanding i hbefore
  absent := fun i hi => h.absent i (heffects.invitation_none hi)

/-- Who is no member at first, and is one later, has accepted an invitation in
between. -/
theorem History.taken_up (h : History H d turns s) (hO : Registered d O)
    (hnone : member O u d = none) (hmember : ∃ m, member O u s = some m) :
    ∃ t ∈ turns, ∃ r, TakenUp H t u r ∧ r.organizationId = O ∧
      (invitation r.id d = none ∨ Outstanding r.id d) := by
  have hall : Registered s O ∧ Opened d s ∧
      ((∃ m, member O u s = some m) → ∃ t ∈ turns, ∃ r, TakenUp H t u r ∧
        r.organizationId = O ∧
          (invitation r.id d = none ∨ Outstanding r.id d)) := by
    refine h.induction (P := fun ts (s : Db) => Registered s O ∧ Opened d s ∧
      ((∃ m, member O u s = some m) → ∃ t ∈ ts, ∃ r, TakenUp H t u r ∧
        r.organizationId = O ∧
          (invitation r.id d = none ∨ Outstanding r.id d))) ?_ ?_
    · refine ⟨hO, Opened.refl d, ?_⟩
      rintro ⟨m, hm⟩
      rw [hnone] at hm
      cases hm
    · rintro t ts ⟨hreg, hopened, hold⟩
        (hidle | ⟨c, heffects, hbefore, hafter⟩)
      · rw [hidle]
        refine ⟨hreg, hopened, fun hm => ?_⟩
        obtain ⟨t', ht', htaken⟩ := hold hm
        exact ⟨t', List.mem_cons_of_mem t ht', htaken⟩
      · rw [← hbefore] at hreg hopened hold heffects
        rw [← hafter]
        refine ⟨heffects.registered hreg, hopened.commit heffects, ?_⟩
        rintro ⟨m, hm⟩
        have holder : (∃ m, member O u c.before = some m) →
            ∃ t' ∈ t :: ts, ∃ r, TakenUp H t' u r ∧ r.organizationId = O ∧
              (invitation r.id d = none ∨ Outstanding r.id d) := by
          intro hm'
          obtain ⟨t', ht', htaken⟩ := hold hm'
          exact ⟨t', List.mem_cons_of_mem t ht', htaken⟩
        cases heffects.memberStep O u with
        | same hsame => exact holder ⟨m, hsame ▸ hm⟩
        | founded user body requestId _ hnew => exact absurd hreg hnew
        | roleSet actor body m' _ hm' _ => exact holder ⟨m', hm'⟩
        | removed actor _ hgone =>
            rw [hgone] at hm
            cases hm
        | joined r haccepts horganization _ _ =>
            have htaken : TakenUp H t u r := by
              refine ⟨haccepts.request, ?_, haccepts.opened, haccepts.valid,
                ?_⟩
              · rw [← hbefore]
                exact haccepts.row
              · rw [← hafter]
                exact haccepts.marked
            have hout : Outstanding r.id c.before :=
              ⟨r, haccepts.row, haccepts.opened, haccepts.valid⟩
            exact ⟨t, List.mem_cons_self, r, htaken, horganization,
              hopened.outstanding r.id hout⟩
  exact hall.2.2 hmember

/-- A removal that commits leaves no membership. -/
theorem Does.removed {t : Turn schema Request} {actor : User}
    (h : Does H t) (hrequest : t.request = .removeMember O u actor)
    (hcommitted : t.after ≠ t.before) :
    (∃ am, member O actor.id t.before = some am) ∧
      member O u t.after = none := by
  rcases h with hidle | ⟨c, heffects, hbefore, hafter⟩
  · exact absurd hidle hcommitted
  · rw [hrequest] at heffects
    rw [← hafter]
    cases heffects with
    | removed am m event hchecked _ _ _ _ hwrites =>
        obtain ⟨_, db, _, rfl, ham⟩ := hchecked
        refine ⟨⟨am, ham⟩, ?_⟩
        simp [member, Commit.after, Session.view, hwrites]
    | unremoved am m event db hchecked _ _ hpast hgone _ hwrites =>
        subst hpast
        obtain ⟨_, db', _, rfl, ham⟩ := hchecked
        refine ⟨⟨am, ham⟩, ?_⟩
        rw [member_of_writes (by simp [hwrites, Write.ref]), hbefore]
        exact hgone

/-- After a removal of `u` from `O` has committed, `u` is a member of `O` only
if he has accepted an invitation to `O` since, which was outstanding at the
removal or did not exist then. -/
theorem removed_stays_out (H : TokenHash) {s₀ s : Db} {O u : Uuid}
    (hrefs : References O s₀) {newer older : List (Turn schema Request)}
    {t : Turn schema Request} {actor : User}
    (h : History H s₀ (newer ++ t :: older) s)
    (hrequest : t.request = .removeMember O u actor)
    (hcommitted : t.after ≠ t.before)
    (hmember : ∃ m, member O u s = some m) :
    ∃ t' ∈ newer, ∃ r, TakenUp H t' u r ∧ r.organizationId = O ∧
      (invitation r.id t.after = none ∨ Outstanding r.id t.after) := by
  obtain ⟨hupto, hnewer⟩ := Turns.split h
  have hbefore : References O t.before :=
    History.references hupto.2.2 hrefs
  have hdoes : Does H t := does_of_completes hupto.2.1
  obtain ⟨⟨am, ham⟩, hgone⟩ := hdoes.removed hrequest hcommitted
  have hreg : Registered t.after O := by
    rcases hdoes with hidle | ⟨c, heffects, hc, hafter⟩
    · exact absurd hidle hcommitted
    · rw [← hafter]
      refine heffects.registered ?_
      rw [hc]
      exact hbefore.members actor.id am ham
  exact History.taken_up hnewer hreg hgone hmember

end Removal

/-! ## A member who comes back -/

theorem member_ne_owner : Role.member ≠ .owner := by decide

/-- Bob invites Alice twice.  She accepts one invitation, is removed, and
accepts the other. -/
def secondInvitation : List (Request × List (Input schema)) :=
  [(.accept alice ⟨30⟩, [.order [.id 31], .go, .go, .value 8, .go, .go,
      .order [.id 31], .go, .go, .value 35, .value 9, .go, .go]),
    (.removeMember 10 2 bob, [.go, .order [.id 10], .go, .go, .go, .value 34,
      .value 7, .go, .order [.pair 10 2], .go, .go, .go]),
    (.accept alice ⟨20⟩, [.order [.id 21], .go, .go, .value 5, .go, .go,
      .order [.id 21], .go, .go, .value 24, .value 6, .go, .go]),
    (.invite 10 bob ⟨"alice@example.org", .member, member_ne_owner⟩, [.go, .value 30,
      .value 4, .value 31, .go, .value 32, .value 4, .go, .value 33, .value 4,
      .go, .go]),
    (.invite 10 bob ⟨"alice@example.org", .admin, admin_ne_owner⟩, [.go, .value 20,
      .value 3, .value 21, .go, .value 22, .value 3, .go, .value 23, .value 3,
      .go, .go])]

/-- Requests, newest first, that are run to their ends. -/
def turnsOf (H : TokenHash) (s₀ : Db) :
    List (Request × List (Input schema)) → List (Turn schema Request) × Db
  | [] => ([], s₀)
  | (request, xs) :: older =>
      let before := (turnsOf H s₀ older).2
      let after := outcome before (serve H request) xs
      (⟨request, before, after⟩ :: (turnsOf H s₀ older).1, after)

/-- Every request of the list comes to an end. -/
def Ended (H : TokenHash) (s₀ : Db) :
    List (Request × List (Input schema)) → Bool
  | [] => true
  | (request, xs) :: older =>
      ((solo (turnsOf H s₀ older).2 (serve H request)).run
        (xs.map fun x => (0, x))).any stopped && Ended H s₀ older

theorem history_turnsOf {H : TokenHash} {s₀ : Db}
    {runs : List (Request × List (Input schema))}
    (h : Ended H s₀ runs = true) :
    History H s₀ (turnsOf H s₀ runs).1 (turnsOf H s₀ runs).2 := by
  induction runs with
  | nil => rfl
  | cons x older ih =>
      obtain ⟨request, xs⟩ := x
      obtain ⟨hrun, holder⟩ := Bool.and_eq_true_iff.mp h
      exact ⟨rfl, completes_outcome hrun, ih holder⟩

theorem ended_secondInvitation :
    Ended plainHash oneOwner secondInvitation = true := by
  decide +kernel

/-- Alice is in, out, and in again. -/
theorem member_secondInvitation :
    (member 10 2 (turnsOf plainHash oneOwner (secondInvitation.drop 2)).2).isSome
      = true ∧
    member 10 2 (turnsOf plainHash oneOwner (secondInvitation.drop 1)).2 =
      none ∧
    (member 10 2 (turnsOf plainHash oneOwner secondInvitation).2).isSome =
      true := by
  decide +kernel

/-- The removal, and the request that follows it. -/
theorem removal_secondInvitation : ∃ t t' older,
    History plainHash oneOwner ([t'] ++ t :: older)
      (turnsOf plainHash oneOwner secondInvitation).2 ∧
    t.request = .removeMember 10 2 bob ∧ t.after ≠ t.before ∧
    t'.before = t.after := by
  refine ⟨_, _, _, history_turnsOf ended_secondInvitation, rfl, ?_, rfl⟩
  intro hsame
  obtain ⟨hin, hout, _⟩ := member_secondInvitation
  have hgone := congrArg (member 10 2) hsame
  change member 10 2 (turnsOf plainHash oneOwner (secondInvitation.drop 1)).2 =
    member 10 2 (turnsOf plainHash oneOwner (secondInvitation.drop 2)).2
      at hgone
  rw [← hgone, hout] at hin
  cases hin

/-- An invitation that was made before a removal brings a member back. -/
theorem removed_member_returns :
    ¬ ∀ newer t older s actor,
      History plainHash oneOwner (newer ++ t :: older) s →
      t.request = .removeMember 10 2 actor → t.after ≠ t.before →
      (∃ m, member 10 2 s = some m) →
      ∃ t' ∈ newer, ∃ r, TakenUp plainHash t' 2 r ∧ r.organizationId = 10 ∧
        invitation r.id t.after = none := by
  intro hclaim
  obtain ⟨t, t', older, hhistory, hrequest, hcommitted, hnext⟩ :=
    removal_secondInvitation
  obtain ⟨t'', ht'', r, htaken, _, hnone⟩ := hclaim [t'] t older _ bob hhistory
    hrequest hcommitted
    (Option.isSome_iff_exists.mp member_secondInvitation.2.2)
  obtain rfl := List.mem_singleton.mp ht''
  have hrow := htaken.row
  rw [hnext, hnone] at hrow
  cases hrow

theorem references_oneOwner : References 10 oneOwner := by
  have hreg : Registered oneOwner 10 :=
    Option.isSome_iff_exists.mp (by decide +kernel)
  exact ⟨fun _ _ _ => hreg, fun _ _ _ _ => hreg⟩

/-- Alice is back by an invitation that was outstanding at her removal. -/
theorem removed_stays_out_alice : ∃ t t' : Turn schema Request,
    t.request = .removeMember 10 2 bob ∧ ∃ r, TakenUp plainHash t' 2 r ∧
      (invitation r.id t.after = none ∨ Outstanding r.id t.after) := by
  obtain ⟨t, t', older, hhistory, hrequest, hcommitted, _⟩ :=
    removal_secondInvitation
  obtain ⟨t'', _, r, htaken, _, hopen⟩ := removed_stays_out plainHash
    references_oneOwner hhistory hrequest hcommitted
    (Option.isSome_iff_exists.mp member_secondInvitation.2.2)
  exact ⟨t, t'', hrequest, r, htaken, hopen⟩

end Workstream.Organizations
