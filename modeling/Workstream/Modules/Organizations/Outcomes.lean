import Workstream.Modules.Organizations.Removal

/-!
# The outcome of an invitation

`accept` checks that the invitation is neither accepted nor revoked, whereas
`revoke_invitation` marks whatever it finds.  As long as it finds an
invitation that is outstanding, an invitation is accepted or revoked, not
both, and stays as it is from then on.
-/

namespace Workstream.Organizations

open ReadCommitted Contract World

/-- The invitation that a request revokes. -/
def Request.revokes : Request → Option Uuid
  | .revokeInvitation _ invitationId _ => some invitationId
  | _ => none

/-- The invitation has been accepted or revoked. -/
def Settled (r : Invitation) : Prop :=
  r.acceptedAt ≠ none ∨ r.revokedAt ≠ none

/-- The invitation `i` has been revoked. -/
def Revoked (i : Uuid) (db : Db) : Prop :=
  ∃ r, invitation i db = some r ∧ r.revokedAt ≠ none

/-- No invitation is both accepted and revoked. -/
def OneOutcome (db : Db) : Prop :=
  ∀ i r, invitation i db = some r → r.acceptedAt = none ∨ r.revokedAt = none

/-- Whatever the commit revokes is outstanding until then. -/
def RevokesOutstanding (request : Request) (c : Commit schema) : Prop :=
  ∀ i, request.revokes = some i → Outstanding i c.before

theorem Outstanding.not_settled {i : Uuid} {db : Db} {r : Invitation}
    (h : Outstanding i db) (hr : invitation i db = some r) : ¬ Settled r := by
  obtain ⟨r', hr', hopen, hvalid⟩ := h
  rw [hr'] at hr
  obtain rfl := Option.some.inj hr
  rintro (haccepted | hrevoked)
  · exact haccepted hopen
  · exact hrevoked hvalid

section Commits

variable {H : TokenHash} {past : List schema.Ref → Db → Prop}
  {request : Request} {c : Commit schema} {i : Uuid} {r : Invitation}

/-- Nothing but its revocation changes `revoked_at` of an invitation. -/
theorem Effects.revokedAt (h : Effects H past request c)
    (hother : request.revokes ≠ some i) (hr : invitation i c.before = some r) :
    ∃ r', invitation i c.after = some r' ∧ r'.revokedAt = r.revokedAt := by
  have hsame : (∀ x ∈ c.session.writes, x.ref ≠ (.invitations, .id i)) →
      ∃ r', invitation i c.after = some r' ∧ r'.revokedAt = r.revokedAt :=
    fun hwrites => ⟨r, (invitation_of_writes hwrites).trans hr, rfl⟩
  cases h with
  | @invited O actor body _ am id eventId raw time occurredAt event _ _ hnew _ _
      hwrites =>
      have hid : Key.id id ≠ .id i := ne_of_lookup hnew hr
      apply hsame
      simpa [hwrites, Write.ref, primaryKey, InvitationCreate.invitation]
        using hid
  | @revoked O j actor _ am r' time event _ hrow _ _ hwrites =>
      have hid : r'.id ≠ i := by
        rw [invitation_id hrow]
        exact fun hj => hother (congrArg some hj)
      apply hsame
      simpa [hwrites, Write.ref, primaryKey] using hid
  | accepted r' time ws event _ hrow _ _ _ _ _ hjoins _ hwrites =>
      by_cases hid : r'.id = i
      · rw [← hid] at hr ⊢
        have hrr : r' = r := Option.some.inj (hrow.symm.trans hr)
        have hmarked : invitation r'.id c.after =
            some { r' with acceptedAt := some time } := by
          cases hjoins with
          | already => exact invitation_of_put [] hwrites (by simp [Write.ref])
          | member => exact invitation_of_put [_] hwrites (by simp [Write.ref])
        refine ⟨_, hmarked, ?_⟩
        change r'.revokedAt = r.revokedAt
        rw [hrr]
      · apply hsame
        cases hjoins <;> simpa [hwrites, Write.ref, primaryKey] using hid
  | _ =>
      apply hsame
      simp [*, Write.ref]

/-- A revocation that commits marks the invitation. -/
theorem Effects.revoked_after (h : Effects H past request c)
    (hrevokes : request.revokes = some i) : Revoked i c.after := by
  cases h with
  | revoked am r time event _ hrow _ _ hwrites =>
      have hi : r.id = i :=
        (invitation_id hrow).trans (Option.some.inj hrevokes)
      have hmarked := invitation_of_put [] hwrites (by simp [Write.ref])
      rw [← hi]
      exact ⟨_, hmarked, by simp⟩
  | _ => simp [Request.revokes] at hrevokes

/-- A revoked invitation stays revoked. -/
theorem Effects.stays_revoked (h : Effects H past request c)
    (hi : Revoked i c.before) : Revoked i c.after := by
  obtain ⟨r, hr, hrevoked⟩ := hi
  by_cases hrevokes : request.revokes = some i
  · exact h.revoked_after hrevokes
  · obtain ⟨r', hr', hsame⟩ := h.revokedAt hrevokes hr
    rw [← hsame] at hrevoked
    exact ⟨r', hr', hrevoked⟩

/-- A commit that revokes only what is outstanding leaves the invitations
alone that are accepted or revoked. -/
theorem Effects.stays_settled (h : Effects H past request c)
    (hrevokes : RevokesOutstanding request c)
    (hr : invitation i c.before = some r) (hsettled : Settled r) :
    invitation i c.after = some r := by
  cases h.invitationStep i with
  | same hsame => exact hsame.trans hr
  | invited O actor body raw time am _ _ hnone _ =>
      rw [hnone] at hr
      cases hr
  | revoked r' time hbefore hafter =>
      rw [hbefore] at hr
      obtain rfl := Option.some.inj hr
      have hother : request.revokes ≠ some i := fun heq =>
        (hrevokes i heq).not_settled hbefore hsettled
      obtain ⟨r'', hr'', hsame⟩ := h.revokedAt hother hbefore
      rw [hafter] at hr''
      obtain rfl := Option.some.inj hr''
      change some time = r'.revokedAt at hsame
      rw [hafter, hsame]
  | accepted u r' haccepts hid =>
      have hrow := haccepts.row
      rw [hid, hr] at hrow
      obtain rfl := Option.some.inj hrow
      rcases hsettled with haccepted | hrevoked
      · exact absurd haccepts.opened haccepted
      · exact absurd haccepts.valid hrevoked

theorem Effects.oneOutcome (h : Effects H past request c)
    (hrevokes : RevokesOutstanding request c) (hone : OneOutcome c.before) :
    OneOutcome c.after := by
  intro i r hr
  cases h.invitationStep i with
  | same hsame => exact hone i r (hsame ▸ hr)
  | invited O actor body raw time am _ _ _ hafter =>
      rw [hafter] at hr
      obtain rfl := Option.some.inj hr
      exact Or.inl rfl
  | revoked r' time hbefore hafter =>
      by_cases hsettled : Settled r'
      · have hsame := h.stays_settled hrevokes hbefore hsettled
        rw [hsame] at hr
        obtain rfl := Option.some.inj hr
        exact hone i r' hbefore
      · have hopen : r'.acceptedAt = none := by
          by_contra haccepted
          exact hsettled (Or.inl haccepted)
        rw [hafter] at hr
        obtain rfl := Option.some.inj hr
        exact Or.inl hopen
  | accepted u r' haccepts hid =>
      obtain ⟨τ, hmarked⟩ := haccepts.marked
      rw [← hid, hmarked] at hr
      obtain rfl := Option.some.inj hr
      exact Or.inr haccepts.valid

end Commits

/-! ## Every run -/

section Runs

variable {H : TokenHash} {requests : Pid → Request} {s₀ db : Db}
  {log : List (Commit schema)}

/-- What has been revoked is so at the end. -/
theorem revoked_of_chain (h : Chain s₀ log db)
    (heffects : ∀ c ∈ log, ∃ past, Effects H past (requests c.pid) c) :
    ∀ c ∈ log, ∀ i, (requests c.pid).revokes = some i → Revoked i db := by
  refine h.induction heffects (P := fun log (s : Db) => ∀ c ∈ log, ∀ i,
    (requests c.pid).revokes = some i → Revoked i s) (by simp) ?_
  rintro d older ⟨past, hd⟩ holder c hc i hrevokes
  rcases List.mem_cons.mp hc with rfl | hc
  · exact hd.revoked_after hrevokes
  · exact hd.stays_revoked (holder c hc i hrevokes)

theorem oneOutcome_of_chain (h : Chain s₀ log db)
    (heffects : ∀ c ∈ log, (∃ past, Effects H past (requests c.pid) c) ∧
      RevokesOutstanding (requests c.pid) c)
    (hs₀ : OneOutcome s₀) :
    OneOutcome db ∧ ∀ c ∈ log, OneOutcome c.before := by
  refine h.induction heffects (P := fun log (s : Db) => OneOutcome s ∧
    ∀ c ∈ log, OneOutcome c.before) ⟨hs₀, by simp⟩ ?_
  rintro d older ⟨⟨past, hd⟩, hrevokes⟩ ⟨hbefore, holder⟩
  constructor
  · exact hd.oneOutcome hrevokes hbefore
  · intro c hc
    rcases List.mem_cons.mp hc with rfl | hc
    · exact hbefore
    · exact holder c hc

/-- In a run whose revocations find their invitations outstanding, no
invitation is both accepted and revoked, one that is either does not change
any more, and what is revoked makes no membership, before or after. -/
theorem one_outcome (H : TokenHash) (requests : Pid → Request) {s₀ : Db}
    (hs₀ : OneOutcome s₀) {w : World schema AppError Unit}
    (hreach : Reachable (clients H requests s₀) w)
    (hrevokes : ∀ c ∈ w.log, RevokesOutstanding (requests c.pid) c) :
    (OneOutcome w.store ∧ ∀ c ∈ w.log, OneOutcome c.before) ∧
    (∀ c ∈ w.log, ∀ i r, invitation i c.before = some r → Settled r →
      invitation i c.after = some r) ∧
    ∀ c ∈ w.log, ∀ i, (requests c.pid).revokes = some i →
      ∀ d ∈ w.log, ∀ r, Admits H (requests d.pid) d r → r.id ≠ i := by
  have hguar := (sound_services hreach).guar
  have hchain := (wellFormed_of_reachable hreach).chain
  have hone := oneOutcome_of_chain hchain
    (fun c hc => ⟨hguar c hc, hrevokes c hc⟩) hs₀
  refine ⟨hone, ?_, ?_⟩
  · intro c hc i r hr hsettled
    obtain ⟨past, heffects⟩ := hguar c hc
    exact heffects.stays_settled (hrevokes c hc) hr hsettled
  · rintro c hc i hi d hd r hadmits rfl
    obtain ⟨r₁, hr₁, hrevoked⟩ := revoked_of_chain hchain hguar c hc r.id hi
    obtain ⟨r₂, hr₂, haccepted⟩ :=
      (admits_of_chain hchain hguar).2 d hd r hadmits
    rw [hr₁] at hr₂
    obtain rfl := Option.some.inj hr₂
    rcases hone.1 r.id r₁ hr₁ with hnone | hnone
    · exact haccepted hnone
    · exact hrevoked hnone

end Runs

/-! ## Runs with revocations -/

/-- The statements of an invitation, of its acceptance and of its
revocation. -/
def inviteSteps (p : Pid) (raw : Token) (id : Uuid) :
    List (Pid × Input schema) :=
  steps p [.go, .value raw, .value 3, .value id, .go, .value (id + 1),
    .value 3, .go, .value (id + 2), .value 3, .go, .go]

def acceptSteps (p : Pid) (id : Uuid) : List (Pid × Input schema) :=
  steps p [.order [.id id], .go, .go, .value 4, .go, .go, .order [.id id],
    .go, .go, .value (id + 3), .value 4, .go, .go]

def revokeSteps (p : Pid) (id : Uuid) : List (Pid × Input schema) :=
  steps p [.go, .order [.id id], .go, .go, .value 6, .order [.id id], .go,
    .go, .value (id + 4), .value 6, .go, .go]

/-- Bob revokes the invitation that Alice has accepted. -/
def revokedLate : Pid → Request
  | 0 => .invite 10 bob ⟨"alice@example.org", .admin, admin_ne_owner⟩
  | 1 => .accept alice ⟨20⟩
  | _ => .revokeInvitation 10 21 bob

/-- A revocation succeeds although the invitation has made a membership. -/
theorem accepted_and_revoked :
    ∃ w, Reachable (clients plainHash revokedLate oneOwner) w ∧
      (∃ c ∈ w.log, (revokedLate c.pid).revokes = some 21) ∧
      (∃ m, member 10 2 w.store = some m) ∧ ¬ OneOutcome w.store := by
  have hrun : ((clients plainHash revokedLate oneOwner).run
      (inviteSteps 0 20 21 ++ acceptSteps 1 21 ++ revokeSteps 2 21)).any
      (fun w => (∃ c ∈ w.log, c.pid = 2) ∧ (member 10 2 w.store).isSome ∧
        (invitation 21 w.store).any fun r =>
          r.acceptedAt.isSome && r.revokedAt.isSome) = true := by
    decide +kernel
  obtain ⟨w, hreach, ⟨c, hc, hpid⟩, hmember, hboth⟩ := exists_reachable hrun
  obtain ⟨r, hr, hsettled⟩ := (Option.any_eq_true _ _).mp hboth
  obtain ⟨haccepted, hrevoked⟩ := Bool.and_eq_true_iff.mp hsettled
  refine ⟨w, hreach, ⟨c, hc, ?_⟩, Option.isSome_iff_exists.mp hmember, ?_⟩
  · rw [hpid]
    rfl
  · intro hone
    rcases hone 21 r hr with hnone | hnone
    · rw [hnone] at haccepted
      cases haccepted
    · rw [hnone] at hrevoked
      cases hrevoked

/-- Bob invites Alice, who accepts, and Carol, whose invitation he revokes. -/
def revokedInTime : Pid → Request
  | 0 => .invite 10 bob ⟨"alice@example.org", .admin, admin_ne_owner⟩
  | 1 => .accept alice ⟨20⟩
  | 2 => .invite 10 bob ⟨"carol@example.org", .member, member_ne_owner⟩
  | _ => .revokeInvitation 10 31 bob

theorem oneOutcome_oneOwner : OneOutcome oneOwner := by
  intro i r hr
  cases hr

/-- Alice is in, and the invitation of Carol will never make a membership. -/
theorem one_outcome_revokedInTime :
    ∃ w, Reachable (clients plainHash revokedInTime oneOwner) w ∧
      (∃ m, member 10 2 w.store = some m) ∧ OneOutcome w.store ∧
      (∃ c ∈ w.log, (revokedInTime c.pid).revokes = some 31) ∧
      ∀ d ∈ w.log, ∀ r, Admits plainHash (revokedInTime d.pid) d r →
        r.id ≠ 31 := by
  have hrun : ((clients plainHash revokedInTime oneOwner).run
      (inviteSteps 0 20 21 ++ inviteSteps 2 30 31 ++ acceptSteps 1 21 ++
        revokeSteps 3 31)).any
      (fun w => (member 10 2 w.store).isSome ∧ (∃ c ∈ w.log, c.pid = 3) ∧
        ∀ c ∈ w.log, 3 ≤ c.pid → (invitation 31 c.before).any fun r =>
          r.acceptedAt.isNone && r.revokedAt.isNone) = true := by
    decide +kernel
  obtain ⟨w, hreach, hmember, ⟨c, hc, hpid⟩, hopen⟩ := exists_reachable hrun
  have hrevokes : ∀ c ∈ w.log,
      RevokesOutstanding (revokedInTime c.pid) c := by
    intro c hc i hi
    rcases hcpid : c.pid with _ | _ | _ | p <;> rw [hcpid] at hi
    · cases hi
    · cases hi
    · cases hi
    · obtain rfl : 31 = i := Option.some.inj hi
      have hlast : 3 ≤ c.pid := hcpid ▸ Nat.le_add_left 3 p
      obtain ⟨r, hr, hnone⟩ :=
        (Option.any_eq_true _ _).mp (hopen c hc hlast)
      obtain ⟨haccepted, hrevoked⟩ := Bool.and_eq_true_iff.mp hnone
      exact ⟨r, hr, Option.isNone_iff_eq_none.mp haccepted,
        Option.isNone_iff_eq_none.mp hrevoked⟩
  obtain ⟨⟨hone, _⟩, _, hnever⟩ := one_outcome plainHash revokedInTime
    oneOutcome_oneOwner hreach hrevokes
  have hrequest : (revokedInTime c.pid).revokes = some 31 := by
    rw [hpid]
    rfl
  exact ⟨w, hreach, Option.isSome_iff_exists.mp hmember, hone,
    ⟨c, hc, hrequest⟩, hnever c hc 31 hrequest⟩

end Workstream.Organizations
