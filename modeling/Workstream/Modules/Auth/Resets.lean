import Workstream.Modules.Auth.Passwords

/-!
# Reset links

A reset marks the token that it was made with.  The other tokens of its user
stay as they are, and each of them is good for a reset of its own until it
expires.
-/

namespace Workstream.Auth

open ReadCommitted Contract World

/-- The commit is a reset, made with the token whose row is `row`. -/
def Resets (H : TokenHash) (request : Request) (c : Commit schema)
    (row : OneTimeToken) : Prop :=
  ∃ body time, request = .resetPassword body ∧
    Spends H c body.token .passwordReset row time ∧
    ResetsPassword c body.newPassword row time

/-- Who has no token at `s` has none at `d`, and what is unused at `s` is so
at `d`, if it is there. -/
structure Precedes (d s : Db) : Prop where
  absent : ∀ i, oneTimeToken i s = none → oneTimeToken i d = none
  unused : ∀ i row, oneTimeToken i s = some row → row.usedAt = none →
    oneTimeToken i d = none ∨ oneTimeToken i d = some row

theorem Precedes.refl (d : Db) : Precedes d d where
  absent := fun _ hi => hi
  unused := fun _ _ hrow _ => Or.inr hrow

section Commits

variable {H : TokenHash} {request : Request} {c : Commit schema}
  {row : OneTimeToken}

theorem Resets.actsOn (h : Resets H request c row) :
    ActsOn H request c row := by
  obtain ⟨body, time, hrequest, hspends, heffect⟩ := h
  exact .reset body time hrequest hspends heffect

theorem Resets.stored (h : Resets H request c row) :
    oneTimeToken row.id c.before = some row :=
  h.actsOn.stored

theorem Resets.unused (h : Resets H request c row) : row.usedAt = none :=
  h.actsOn.unused

/-- No commit deletes a token, or makes a used one unused. -/
theorem Effects.precedes (h : Effects H request c) :
    Precedes c.before c.after := by
  constructor
  · intro i hnone
    cases h.tokenStep i with
    | same h => exact h.symm.trans hnone
    | issued hbefore => exact hbefore
    | spent row hid hacts =>
        obtain ⟨time, _, hmarked⟩ := hacts.marked
        rw [hid, hnone] at hmarked
        cases hmarked
  · intro i row hrow hunused
    cases h.tokenStep i with
    | same h => exact Or.inr (h.symm.trans hrow)
    | issued hbefore => exact Or.inl hbefore
    | spent row' hid hacts =>
        obtain ⟨time, _, hmarked⟩ := hacts.marked
        rw [hid, hrow] at hmarked
        rw [Option.some.inj hmarked] at hunused
        cases hunused

/-- The password of a user changes by a reset with a token of his. -/
theorem Effects.resets (h : Effects H request c) {u : Uuid}
    {passwordHash : PasswordHash}
    (hhash : hashOf c.before u = some passwordHash)
    (hchanged : hashOf c.after u ≠ some passwordHash) :
    ∃ row, Resets H request c row ∧ row.userId = u := by
  obtain ⟨body, row, time, hrequest, hspends, heffect, howner⟩ :=
    (h.hashOf_cases hhash).resolve_left hchanged
  exact ⟨row, ⟨body, time, hrequest, hspends, heffect⟩, howner⟩

theorem Precedes.trans {d s t : Db} (h : Precedes d s) (h' : Precedes s t) :
    Precedes d t where
  absent := fun i hi => h.absent i (h'.absent i hi)
  unused := by
    intro i row hrow hunused
    rcases h'.unused i row hrow hunused with hnone | hsome
    · exact Or.inl (h.absent i hnone)
    · exact h.unused i row hsome hunused

end Commits

/-! ## Every run -/

section Runs

variable {H : TokenHash} {settings : Settings} {requests : Pid → Request}
  {s₀ db : Db} {log : List (Commit schema)}

theorem precedes_of_chain (h : Chain s₀ log db)
    (heffects : ∀ c ∈ log, Effects H (requests c.pid) c) :
    (log.Pairwise fun d c => Precedes c.before d.before) ∧
      ∀ c ∈ log, Precedes c.before db := by
  refine h.induction heffects (P := fun log (s : Db) =>
    (log.Pairwise fun d c => Precedes c.before d.before) ∧
      ∀ c ∈ log, Precedes c.before s) ⟨List.Pairwise.nil, by simp⟩ ?_
  rintro d older hd ⟨hpairs, holder⟩
  constructor
  · exact List.pairwise_cons.mpr ⟨holder, hpairs⟩
  · intro c hc
    rcases List.mem_cons.mp hc with rfl | hc
    · exact hd.precedes
    · exact (holder c hc).trans hd.precedes

/-- The password of a user changes by a reset with a token of his, which is
unused and in time.  After an earlier reset it is another token, which has
been issued since or was unused already when that reset has committed. -/
theorem resets_by_unused_tokens (H : TokenHash) (settings : Settings)
    (requests : Pid → Request) (hrequests : ∀ p, (requests p).account)
    {s₀ : Db} {w : World schema AppError Response}
    (hreach : Reachable (clients H settings requests s₀) w) :
    (∀ c ∈ w.log, ∀ u passwordHash, hashOf c.before u = some passwordHash →
      hashOf c.after u ≠ some passwordHash →
        ∃ row, Resets H (requests c.pid) c row ∧ row.userId = u) ∧
    w.log.Pairwise fun d c => ∀ row row', Resets H (requests c.pid) c row →
      Resets H (requests d.pid) d row' → row'.id ≠ row.id ∧
        (oneTimeToken row'.id c.before = none ∨
          oneTimeToken row'.id c.before = some row') := by
  have hsound := sound_accounts hrequests hreach
  have hchain := (wellFormed_of_reachable hreach).chain
  have hdifferent := (actsOn_of_chain hchain hsound.guar).1
  have hprecedes := (precedes_of_chain hchain hsound.guar).1
  constructor
  · intro c hc u passwordHash hhash hchanged
    have heffects : Effects H (requests c.pid) c := hsound.guar c hc
    exact heffects.resets hhash hchanged
  · refine (hdifferent.and hprecedes).imp ?_
    rintro d c ⟨hdc, hbefore⟩ row row' hrow hrow'
    constructor
    · exact Ne.symm (hdc row row' hrow.actsOn hrow'.actsOn)
    · exact hbefore.unused row'.id row' hrow'.stored hrow'.unused

end Runs

/-! ## A run with two links -/

/-- Carol asks for two links, and resets her password with one after the
other. -/
def requestedTwice : Pid → Request
  | 0 => .requestReset ⟨"carol@example.org"⟩ browser
  | 1 => .requestReset ⟨"carol@example.org"⟩ browser
  | 2 => .resetPassword ⟨10, "renewed"⟩
  | _ => .resetPassword ⟨20, "stolen"⟩

theorem account_requestedTwice : ∀ p, (requestedTwice p).account := by
  rintro (_ | _ | _ | p) <;> rfl

def issueSteps (p : Pid) (raw : Token) (id : Uuid) :
    List (Pid × Input schema) :=
  steps p [.value 1, .value 60, .go, .value raw, .value 100, .value id, .go,
    .value (id + 1), .value 100, .go, .go]

def presentSteps (p : Pid) (id : Uuid) (passwordHash : PasswordHash) :
    List (Pid × Input schema) :=
  steps p [.order [.id id], .go, .go, .value 200, .go, .value passwordHash,
    .order [.id 1], .go, .go, .order [.id id], .go, .go, .order [], .go, .go]

/-- Two resets of Carol's commit one after the other.  All tokens that are
unused at the second one are there at the first one. -/
theorem exists_second_reset :
    ∃ w d c older, Reachable (clients plainHash {} requestedTwice oneUser) w ∧
      w.log = d :: c :: older ∧
      (∃ row, Resets plainHash (requestedTwice c.pid) c row ∧
        row.userId = 1) ∧
      (∃ row, Resets plainHash (requestedTwice d.pid) d row ∧
        row.userId = 1) ∧
      hashOf d.after 1 ≠ hashOf d.before 1 ∧
      ∀ x ∈ (d.before .oneTimeTokens).rows, OneTimeToken.usedAt x = none →
        oneTimeToken x.id c.before ≠ none := by
  have hrun : ((clients plainHash {} requestedTwice oneUser).run
      (issueSteps 0 10 11 ++ issueSteps 1 20 21 ++ presentSteps 2 11 77 ++
        presentSteps 3 21 78)).any (fun w =>
      (w.log.head?.any fun d => w.log.tail.head?.any fun c =>
        hashOf c.before 1 = some 0 ∧ hashOf c.after 1 = some 77 ∧
        hashOf d.before 1 = some 77 ∧ hashOf d.after 1 = some 78 ∧
        ∀ x ∈ (d.before .oneTimeTokens).rows, OneTimeToken.usedAt x = none →
          (oneTimeToken x.id c.before).isSome) = true) = true := by
    decide +kernel
  obtain ⟨w, hreach, hlog⟩ := exists_reachable hrun
  obtain ⟨d, hd, hlog⟩ := (Option.any_eq_true _ _).mp hlog
  obtain ⟨newer, hnewer⟩ := List.head?_eq_some_iff.mp hd
  rw [hnewer, List.tail_cons] at hlog
  obtain ⟨c, hc, hlog⟩ := (Option.any_eq_true _ _).mp hlog
  obtain ⟨older, rfl⟩ := List.head?_eq_some_iff.mp hc
  obtain ⟨hfirst, hrenewed, hbefore, hstolen, hunused⟩ :=
    of_decide_eq_true hlog
  have hguar := (sound_accounts account_requestedTwice hreach).guar
  have hceffects : Effects plainHash (requestedTwice c.pid) c :=
    hguar c (by simp [hnewer])
  have hdeffects : Effects plainHash (requestedTwice d.pid) d :=
    hguar d (by simp [hnewer])
  refine ⟨w, d, c, older, hreach, hnewer, ?_, ?_, ?_, ?_⟩
  · exact hceffects.resets hfirst (by simp [hrenewed])
  · exact hdeffects.resets hbefore (by simp [hstolen])
  · simp [hbefore, hstolen]
  · intro x hx hnone
    exact Option.isSome_iff_ne_none.mp (hunused x hx hnone)

/-- A link that is older than a reset resets the password once more. -/
theorem older_link_resets :
    ¬ ∀ w, Reachable (clients plainHash {} requestedTwice oneUser) w →
      w.log.Pairwise fun d c => ∀ row row',
        Resets plainHash (requestedTwice c.pid) c row →
        Resets plainHash (requestedTwice d.pid) d row' →
        row'.userId = row.userId →
        hashOf d.after row.userId ≠ hashOf d.before row.userId →
        oneTimeToken row'.id c.before = none := by
  intro hclaim
  obtain ⟨w, d, c, older, hreach, hlog, ⟨row, hrow, howner⟩,
    ⟨row', hrow', howner'⟩, hchanged, hthere⟩ := exists_second_reset
  have hpairs := hclaim w hreach
  rw [hlog, List.pairwise_cons] at hpairs
  have hnone := hpairs.1 c List.mem_cons_self row row' hrow hrow'
    (howner'.trans howner.symm) (by rwa [howner])
  exact hthere row' (Relation.mem_of_lookup hrow'.stored) hrow'.unused hnone

/-- Carol's second link was unused when she reset her password with the first
one. -/
theorem resets_by_unused_tokens_requestedTwice :
    ∃ w d c row row', Reachable
        (clients plainHash {} requestedTwice oneUser) w ∧
      d ∈ w.log ∧ c ∈ w.log ∧
      Resets plainHash (requestedTwice c.pid) c row ∧
      Resets plainHash (requestedTwice d.pid) d row' ∧ row'.id ≠ row.id ∧
      (oneTimeToken row'.id c.before = none ∨
        oneTimeToken row'.id c.before = some row') := by
  obtain ⟨w, d, c, older, hreach, hlog, ⟨row, hrow, _⟩, ⟨row', hrow', _⟩, _⟩ :=
    exists_second_reset
  have hpairs := (resets_by_unused_tokens plainHash {} requestedTwice
    account_requestedTwice hreach).2
  rw [hlog, List.pairwise_cons] at hpairs
  have hlinks := hpairs.1 c List.mem_cons_self row row' hrow hrow'
  exact ⟨w, d, c, row, row', hreach, by simp [hlog], by simp [hlog], hrow,
    hrow', hlinks⟩

end Workstream.Auth
