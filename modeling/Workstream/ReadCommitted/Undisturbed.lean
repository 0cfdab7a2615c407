import Workstream.ReadCommitted.Requests

/-!
# A request that nobody disturbs

A request that has the database for itself, and whose connection does not
fail, has one run up to the answers of its calls, the identifiers that it
draws and the order of its locking statements.  `Ends Q w` says that all of
them come to an answer, with `Q`.  `Prog.Yields` is the weakest precondition
for it, by recursion on the program, and `ends_iff_yields` says that it is
exact.
-/

namespace ReadCommitted

variable {σ : Schema} {ε α β : Type}

/-- An input that is no failure. -/
def Input.regular : Input σ → Bool
  | .go => true
  | .order _ => true
  | .value _ => true
  | _ => false

/-- What the client has answered to its caller. -/
def Proc.answer (P : Proc σ ε α) : Option (Except ε α) :=
  match P.prog, P.guard with
  | .ret a, _ => some (.ok a)
  | .raise e, none => some (.error e)
  | _, _ => none

/-! ## Runs -/

namespace World

/-- Client `0` runs `prog` on its own, and the identifiers in `used` have been
handed out. -/
def alone (used : List ℕ) (s : Store σ) (prog : Prog σ ε α) :
    World σ ε α :=
  { solo s prog with used := used }

/-- Client `0` moves, undisturbed, and has not answered before. -/
structure Step (w w' : World σ ε α) : Prop where
  going : (w.procs 0).answer = none
  advance : ∃ x, Input.regular x = true ∧ w.advance 0 x = some w'

/-- Every undisturbed run from here comes to an answer, with `Q`. -/
inductive Ends (Q : Except ε α → Store σ → Prop) : World σ ε α → Prop where
  | answered {w : World σ ε α} (a : Except ε α)
      (ha : (w.procs 0).answer = some a) (hQ : Q a w.store) : Ends Q w
  | steps {w : World σ ε α} (hmoves : ∃ w', Step w w')
      (h : ∀ w', Step w w' → Ends Q w') : Ends Q w

/-- Nobody else holds a lock. -/
def Unlocked (w : World σ ε α) : Prop :=
  ∀ r, w.locks r = none ∨ w.locks r = some 0

variable {Q : Except ε α → Store σ → Prop} {w w' : World σ ε α}

theorem Unlocked.free (h : w.Unlocked) (refs : List σ.Ref) :
    Free w.locks 0 refs :=
  fun r _ => h r

theorem Unlocked.acquire (h : w.Unlocked) (refs : List σ.Ref) (r : σ.Ref) :
    acquire w.locks 0 refs r = none ∨ acquire w.locks 0 refs r = some 0 := by
  unfold ReadCommitted.acquire
  split
  · exact Or.inr rfl
  · exact h r

theorem Unlocked.release (h : w.Unlocked) (r : σ.Ref) :
    release w.locks 0 r = none ∨ release w.locks 0 r = some 0 := by
  unfold ReadCommitted.release
  split
  · exact Or.inl rfl
  · exact h r

theorem ends_iff_answer {a : Except ε α} (ha : (w.procs 0).answer = some a) :
    Ends Q w ↔ Q a w.store := by
  constructor
  · intro h
    cases h with
    | answered b hb hQ =>
        rw [ha] at hb
        exact Option.some.inj hb ▸ hQ
    | steps hmoves _ =>
        obtain ⟨w', hstep⟩ := hmoves
        have hgoing := hstep.going
        rw [ha] at hgoing
        cases hgoing
  · exact .answered a ha

theorem ends_iff_steps (hgoing : (w.procs 0).answer = none) :
    Ends Q w ↔ (∃ w', Step w w') ∧ ∀ w', Step w w' → Ends Q w' := by
  constructor
  · intro h
    cases h with
    | answered a ha _ =>
        rw [hgoing] at ha
        cases ha
    | steps hmoves h => exact ⟨hmoves, h⟩
  · rintro ⟨hmoves, h⟩
    exact .steps hmoves h

/-- A client with one way to go on. -/
theorem ends_iff_next (hgoing : (w.procs 0).answer = none)
    {v : World σ ε α}
    (hv : ∀ w', (∃ x, Input.regular x = true ∧ w.advance 0 x = some w') ↔
      w' = v) : Ends Q w ↔ Ends Q v := by
  rw [ends_iff_steps hgoing]
  constructor
  · rintro ⟨-, h⟩
    exact h v ⟨hgoing, (hv v).mpr rfl⟩
  · intro h
    refine ⟨⟨v, hgoing, (hv v).mpr rfl⟩, fun w' hstep => ?_⟩
    rw [(hv w').mp hstep.advance]
    exact h

/-- A client that has failed and has no handler does not answer any more. -/
theorem not_ends_halt (hprog : (w.procs 0).prog = .halt)
    (hguard : (w.procs 0).guard = none) : ¬ Ends Q w := by
  intro h
  induction h with
  | answered a ha _ => simp [Proc.answer, hprog] at ha
  | @steps w _ _ ih =>
      have hstep : Step w (w.failed 0) := by
        refine ⟨by simp [Proc.answer, hprog], .go, rfl, ?_⟩
        simp [advance, hprog, perform]
      refine ih _ hstep ?_ ?_
      · simp [failed, rolledBack, setProc, hguard]
      · simp [failed, rolledBack, setProc]

end World

/-! ## Weakest preconditions -/

/-- What a failure leads to: without a handler nobody answers. -/
abbrev Handler (σ : Schema) : Type := Option (Store σ → List ℕ → Prop)

def Falls (G : Handler σ) (s : Store σ) (used : List ℕ) : Prop :=
  match G with
  | none => False
  | some g => g s used

/-- Visiting the remaining candidates, where nobody else holds a lock. -/
def yieldsVisit {t : σ.Table} (q : Scan σ t) (G : Handler σ) (s : Store σ)
    (used : List ℕ) (post : List (σ.Row t) → List (Write σ) → Prop) :
    List σ.Key → List (σ.Row t) → List (Write σ) → Prop
  | [], acc, ws => post acc ws
  | key :: todo, acc, ws =>
      if q.full acc then post acc ws
      else
        match q.visit (Store.view ws s) key with
        | .skip => yieldsVisit q G s used post todo acc ws
        | .failed => Falls G s used
        | .keep r ws' _ =>
            yieldsVisit q G s used post todo (acc ++ [r]) (ws ++ ws')

/-- Undisturbed, `prog` comes to an answer with `Q`: from the committed store
`s`, the writes `ws` and the identifiers `used`. -/
def Prog.Yields (Q : Except ε α → Store σ → Prop) :
    Prog σ ε α → Handler σ → Store σ → List (Write σ) → List ℕ → Prop
  | .ret a, _, s, _, _ => Q (.ok a) s
  | .raise e, G, s, _, used =>
      match G with
      | none => Q (.error e) s
      | some g => g s used
  | .halt, G, s, _, used => Falls G s used
  | .query k, G, s, ws, used => (k (Store.view ws s)).Yields Q G s ws used
  | .scan _ q k, G, s, ws, used =>
      (∃ keys, q.Visits (Store.view ws s) keys) ∧
        ∀ keys, q.Visits (Store.view ws s) keys →
          yieldsVisit q G s used (fun rows ws => (k rows).Yields Q G s ws used)
            keys [] ws
  | .visit _ q todo acc k, G, s, ws, used =>
      yieldsVisit q G s used (fun rows ws => (k rows).Yields Q G s ws used)
        todo acc ws
  | .insert t r k, G, s, ws, used =>
      match (Store.view ws s).conflict t r with
      | some e => (k (some e)).Yields Q G s ws used
      | none => (k none).Yields Q G s (ws ++ [.put t r]) used
  | .fresh k, G, s, ws, used =>
      ∀ n, n ∉ used → (k n).Yields Q G s ws (n :: used)
  | .call _ k, G, s, ws, used => ∀ n, (k n).Yields Q G s ws used
  | .commit k, G, s, ws, used => k.Yields Q G (Store.view ws s) [] used
  | .rollback k, G, s, _, used => k.Yields Q G s [] used
  | .guarded h k, _, s, ws, used =>
      k.Yields Q (some fun s used => h.Yields Q none s [] used) s ws used
  | .unguard k, _, s, ws, used => k.Yields Q none s ws used

namespace World

variable {Q : Except ε α → Store σ → Prop} {w w' : World σ ε α}
  {prog k : Prog σ ε α} {guard : Option (Prog σ ε α)} {s : Store σ}
  {ws : List (Write σ)} {used : List ℕ}

/-- Where client `0` is. -/
structure At (w : World σ ε α) (prog : Prog σ ε α)
    (guard : Option (Prog σ ε α)) (s : Store σ) (ws : List (Write σ))
    (used : List ℕ) : Prop where
  prog : (w.procs 0).prog = prog
  guard : (w.procs 0).guard = guard
  store : w.store = s
  writes : (w.session 0).writes = ws
  used : w.used = used
  unlocked : w.Unlocked

theorem at_alone : At (alone used s prog) prog none s [] used where
  prog := rfl
  guard := rfl
  store := rfl
  writes := rfl
  used := rfl
  unlocked := fun _ => Or.inl rfl

namespace At

theorem view (h : At w prog guard s ws used) : w.view 0 = Store.view ws s := by
  rw [World.view, Session.view, h.writes, h.store]

theorem setProc (h : At w prog guard s ws used) (P : Proc σ ε α) :
    At (w.setProc 0 P) P.prog P.guard s P.session.writes used where
  prog := by simp [World.setProc]
  guard := by simp [World.setProc]
  store := h.store
  writes := by rw [session_setProc_self]
  used := h.used
  unlocked := h.unlocked

theorem resume (h : At w prog guard s ws used) (k : Prog σ ε α)
    (d : Session σ) : At (w.resume 0 k d) k guard s d.writes used := by
  have hset := h.setProc { prog := k, guard := (w.procs 0).guard, session := d }
  rw [← h.guard]
  exact hset

theorem lockAndResume (h : At w prog guard s ws used) (refs : List σ.Ref)
    (k : Prog σ ε α) (d : Session σ) :
    At (w.lockAndResume 0 refs k d) k guard s d.writes used :=
  { h.resume k d with unlocked := h.unlocked.acquire refs }

theorem rolledBack (h : At w prog guard s ws used) (k : Prog σ ε α)
    (guard' : Option (Prog σ ε α)) :
    At (w.rolledBack 0 k guard') k guard' s [] used :=
  { h.setProc { prog := k, guard := guard', session := (w.session 0).discard }
    with unlocked := h.unlocked.release }

theorem failed (h : At w prog guard s ws used) :
    At (w.failed 0) (guard.getD .halt) none s [] used := by
  have hback := h.rolledBack ((w.procs 0).guard.getD .halt) none
  rw [← h.guard]
  exact hback

theorem committed (h : At w prog guard s ws used) (k : Prog σ ε α) :
    At (w.committed 0 k) k guard (Store.view ws s) [] used :=
  { h.resume k ((w.session 0).discard.observe .committed) with
    store := h.view, unlocked := h.unlocked.release }

theorem drawn (h : At w prog guard s ws used) (k : Prog σ ε α) (n : ℕ) :
    At { w.resume 0 k ((w.session 0).draw n) with used := n :: w.used } k guard
      s ws (n :: used) := by
  have hresume := h.resume k ((w.session 0).draw n)
  rw [show ((w.session 0).draw n).writes = ws from h.writes] at hresume
  exact { hresume with used := congrArg (n :: ·) h.used }

end At

/-! ## Exactness -/

def handlerOf (Q : Except ε α → Store σ → Prop) :
    Option (Prog σ ε α) → Handler σ :=
  Option.map fun h s used => h.Yields Q none s [] used

/-- The weakest precondition of `prog` is exact, wherever it runs. -/
def Exact (Q : Except ε α → Store σ → Prop) (prog : Prog σ ε α)
    (guard : Option (Prog σ ε α)) : Prop :=
  ∀ w s ws used, At w prog guard s ws used →
    (Ends Q w ↔ prog.Yields Q (handlerOf Q guard) s ws used)

/-- The only way on from `w`, for a program that takes `.go`. -/
theorem ends_iff_go (hgoing : (w.procs 0).answer = none)
    {v : World σ ε α} (hgo : w.advance 0 .go = some v)
    (horder : ∀ keys, w.advance 0 (.order keys) = none)
    (hvalue : ∀ n, w.advance 0 (.value n) = none) : Ends Q w ↔ Ends Q v := by
  refine ends_iff_next hgoing fun w' => ⟨?_, ?_⟩
  · rintro ⟨x, hx, hstep⟩
    cases x with
    | go =>
        rw [hgo] at hstep
        exact (Option.some.inj hstep).symm
    | order keys =>
        rw [horder] at hstep
        cases hstep
    | value n =>
        rw [hvalue] at hstep
        cases hstep
    | _ => cases hx
  · rintro rfl
    exact ⟨.go, rfl, hgo⟩

section Exact

variable {G : Option (Prog σ ε α)}

theorem ends_failed (hG : ∀ h, guard = some h → Exact Q h none)
    (h : At w prog guard s ws used) :
    Ends Q (w.failed 0) ↔ Falls (handlerOf Q guard) s used := by
  have hfailed := h.failed
  cases guard with
  | none => exact iff_of_false (not_ends_halt hfailed.prog hfailed.guard) id
  | some g => exact hG g rfl _ _ _ _ hfailed

theorem exact_ret (a : α) : Exact Q (.ret a) guard := by
  intro w s ws used h
  rw [ends_iff_answer (a := .ok a) (by simp [Proc.answer, h.prog]), h.store]
  rfl

theorem exact_raise (e : ε) (hG : ∀ h, guard = some h → Exact Q h none) :
    Exact Q (.raise e) guard := by
  intro w s ws used h
  cases hguard : guard with
  | none =>
      have ha : (w.procs 0).answer = some (.error e) := by
        simp [Proc.answer, h.prog, h.guard, hguard]
      rw [ends_iff_answer ha, h.store]
      rfl
  | some g =>
      have hgoing : (w.procs 0).answer = none := by
        simp [Proc.answer, h.prog, h.guard, hguard]
      rw [ends_iff_go (v := w.failed 0) hgoing
        (by simp [advance, perform, h.prog]) (by simp [advance, perform, h.prog])
        (by simp [advance, perform, h.prog]), ends_failed hG h, hguard]
      rfl

theorem exact_halt (hG : ∀ h, guard = some h → Exact Q h none) :
    Exact Q (.halt : Prog σ ε α) guard := by
  intro w s ws used h
  rw [ends_iff_go (v := w.failed 0) (by simp [Proc.answer, h.prog])
    (by simp [advance, perform, h.prog]) (by simp [advance, perform, h.prog])
    (by simp [advance, perform, h.prog]), ends_failed hG h]
  rfl

theorem exact_query {k : Store σ → Prog σ ε α}
    (hk : ∀ s, Exact Q (k s) guard) : Exact Q (.query k) guard := by
  intro w s ws used h
  rw [ends_iff_go (by simp [Proc.answer, h.prog])
    (by simp only [advance, h.prog]; rfl) (by simp [advance, perform, h.prog])
    (by simp [advance, perform, h.prog]), h.view]
  have hresume := h.resume (k (Store.view ws s))
    ((w.session 0).observe (.saw (Store.view ws s)))
  rw [hk _ _ _ _ _ hresume]
  exact iff_of_eq (congrArg (fun ws => Prog.Yields Q _ _ s ws used) h.writes)

theorem ends_iff_visit {t : σ.Table} {q : Scan σ t} {todo : List σ.Key}
    {acc : List (σ.Row t)} {k : List (σ.Row t) → Prog σ ε α}
    (h : At w (.visit t q todo acc k) guard s ws used) {v : World σ ε α}
    (hgo : w.advance 0 .go = some v) : Ends Q w ↔ Ends Q v :=
  ends_iff_go (by simp [Proc.answer, h.prog]) hgo
    (by simp [advance, perform, h.prog]) (by simp [advance, perform, h.prog])

theorem exact_visit {t : σ.Table} {q : Scan σ t} {todo : List σ.Key}
    {acc : List (σ.Row t)} {k : List (σ.Row t) → Prog σ ε α}
    (hk : ∀ rows, Exact Q (k rows) guard)
    (hG : ∀ h, guard = some h → Exact Q h none) :
    Exact Q (.visit t q todo acc k) guard := by
  have hdone : ∀ {todo acc w s ws used},
      At w (.visit t q todo acc k) guard s ws used →
      w.advance 0 .go = some (w.resume 0 (k acc) (w.session 0)) →
      (Ends Q w ↔ (k acc).Yields Q (handlerOf Q guard) s ws used) := by
    intro todo acc w s ws used h hgo
    have hresume := h.resume (k acc) (w.session 0)
    rw [h.writes] at hresume
    rw [ends_iff_visit h hgo, hk acc _ _ _ _ hresume]
  induction todo generalizing acc with
  | nil =>
      intro w s ws used h
      exact hdone h (by simp [advance, perform, h.prog])
  | cons key todo ih =>
      intro w s ws used h
      by_cases hfull : q.full acc = true
      · rw [hdone h (by simp [advance, perform, h.prog, hfull])]
        simp [Prog.Yields, yieldsVisit, hfull]
      · have hone : w.advance 0 .go = w.visitOne 0 q key todo acc k := by
          simp [advance, perform, h.prog, hfull]
        rw [visitOne, if_pos (h.unlocked.free _), h.view] at hone
        rw [Prog.Yields, yieldsVisit, if_neg hfull]
        cases hvisit : q.visit (Store.view ws s) key with
        | skip =>
            rw [hvisit] at hone
            have hresume := h.resume (.visit t q todo acc k) (w.session 0)
            rw [h.writes] at hresume
            rw [ends_iff_visit h hone, ih _ _ _ _ hresume]
            rfl
        | failed =>
            rw [hvisit] at hone
            rw [ends_iff_visit h hone, ends_failed hG h]
        | keep r ws' refs =>
            simp only [hvisit, if_pos (h.unlocked.free refs)] at hone
            have hresume := h.lockAndResume ((t, key) :: refs)
              (.visit t q todo (acc ++ [r]) k)
              (((w.session 0).add ws').observe (.kept t r))
            rw [show (((w.session 0).add ws').observe (.kept t r)).writes =
              ws ++ ws' from congrArg (· ++ ws') h.writes] at hresume
            rw [ends_iff_visit h hone, ih _ _ _ _ hresume]
            rfl

theorem exact_scan {t : σ.Table} {q : Scan σ t}
    {k : List (σ.Row t) → Prog σ ε α} (hk : ∀ rows, Exact Q (k rows) guard)
    (hG : ∀ h, guard = some h → Exact Q h none) :
    Exact Q (.scan t q k) guard := by
  intro w s ws used h
  have hgoing : (w.procs 0).answer = none := by simp [Proc.answer, h.prog]
  have hstep : ∀ w', Step w w' ↔ ∃ keys, q.Visits (Store.view ws s) keys ∧
      w' = w.resume 0 (.visit t q keys [] k)
        ((w.session 0).observe (.scanning (Store.view ws s))) := by
    intro w'
    constructor
    · rintro ⟨-, x, hx, hadvance⟩
      simp only [advance, h.prog] at hadvance
      cases x with
      | order keys =>
          simp only [perform, h.view] at hadvance
          split at hadvance
          · next hvisits =>
              exact ⟨keys, hvisits, (Option.some.inj hadvance).symm⟩
          · cases hadvance
      | go => simp [perform] at hadvance
      | value n => simp [perform] at hadvance
      | _ => cases hx
    · rintro ⟨keys, hvisits, rfl⟩
      refine ⟨hgoing, .order keys, rfl, ?_⟩
      simp [advance, h.prog, perform, h.view, hvisits]
  have hends : ∀ keys, Ends Q (w.resume 0 (.visit t q keys [] k)
      ((w.session 0).observe (.scanning (Store.view ws s)))) ↔
      yieldsVisit q (handlerOf Q guard) s used
        (fun rows ws => (k rows).Yields Q (handlerOf Q guard) s ws used)
        keys [] ws := by
    intro keys
    have hresume := h.resume (.visit t q keys [] k)
      ((w.session 0).observe (.scanning (Store.view ws s)))
    rw [show ((w.session 0).observe (.scanning (Store.view ws s))).writes = ws
      from h.writes] at hresume
    exact exact_visit hk hG _ _ _ _ hresume
  rw [ends_iff_steps hgoing]
  constructor
  · rintro ⟨⟨w', hmove⟩, hall⟩
    obtain ⟨keys, hvisits, -⟩ := (hstep w').mp hmove
    refine ⟨⟨keys, hvisits⟩, fun keys hvisits => (hends keys).mp ?_⟩
    exact hall _ ((hstep _).mpr ⟨keys, hvisits, rfl⟩)
  · rintro ⟨⟨keys, hvisits⟩, hall⟩
    refine ⟨⟨_, (hstep _).mpr ⟨keys, hvisits, rfl⟩⟩, fun w' hmove => ?_⟩
    obtain ⟨keys, hvisits, rfl⟩ := (hstep w').mp hmove
    exact (hends keys).mpr (hall keys hvisits)

theorem exact_insert {t : σ.Table} {r : σ.Row t}
    {k : Option σ.Key → Prog σ ε α} (hk : ∀ e, Exact Q (k e) guard) :
    Exact Q (.insert t r k) guard := by
  intro w s ws used h
  have hnext : ∀ {v : World σ ε α}, w.advance 0 .go = some v →
      (Ends Q w ↔ Ends Q v) := fun hgo =>
    ends_iff_go (by simp [Proc.answer, h.prog]) hgo
      (by simp [advance, perform, h.prog]) (by simp [advance, perform, h.prog])
  have hfree := h.unlocked.free (insertRefs t r)
  rw [Prog.Yields]
  cases hconflict : (Store.view ws s).conflict t r with
  | some e =>
      have hgo : w.advance 0 .go =
          some (w.resume 0 (k (some e)) (w.session 0)) := by
        simp only [advance, h.prog, perform, if_pos hfree, h.view, hconflict]
      have hresume := h.resume (k (some e)) (w.session 0)
      rw [h.writes] at hresume
      rw [hnext hgo, hk _ _ _ _ _ hresume]
  | none =>
      have hgo : w.advance 0 .go = some (w.lockAndResume 0 (insertRefs t r)
          (k none) ((w.session 0).add [.put t r])) := by
        simp only [advance, h.prog, perform, if_pos hfree, h.view, hconflict]
      have hresume := h.lockAndResume (insertRefs t r) (k none)
        ((w.session 0).add [.put t r])
      rw [show ((w.session 0).add [.put t r]).writes = ws ++ [.put t r] from
        congrArg (· ++ _) h.writes] at hresume
      rw [hnext hgo, hk _ _ _ _ _ hresume]

/-- There is always an identifier to draw. -/
theorem exists_unused (used : List ℕ) : ∃ n, n ∉ used := by
  have hbound : ∃ n, ∀ m ∈ used, m < n := by
    induction used with
    | nil => exact ⟨0, by simp⟩
    | cons m used ih =>
        obtain ⟨n, hn⟩ := ih
        refine ⟨max n (m + 1), fun x hx => ?_⟩
        rcases List.mem_cons.mp hx with rfl | hx
        · omega
        · have hlt := hn x hx
          omega
  obtain ⟨n, hn⟩ := hbound
  exact ⟨n, fun hmem => Nat.lt_irrefl n (hn n hmem)⟩

theorem exact_fresh {k : ℕ → Prog σ ε α} (hk : ∀ n, Exact Q (k n) guard) :
    Exact Q (.fresh k) guard := by
  intro w s ws used h
  have hgoing : (w.procs 0).answer = none := by simp [Proc.answer, h.prog]
  have hstep : ∀ w', Step w w' ↔ ∃ n, n ∉ used ∧
      w' = { w.resume 0 (k n) ((w.session 0).draw n) with
        used := n :: w.used } := by
    intro w'
    constructor
    · rintro ⟨-, x, hx, hadvance⟩
      simp only [advance, h.prog] at hadvance
      cases x with
      | value n =>
          simp only [perform, h.used] at hadvance
          split at hadvance
          · cases hadvance
          · next hn =>
              refine ⟨n, hn, ?_⟩
              rw [h.used]
              exact (Option.some.inj hadvance).symm
      | go => simp [perform] at hadvance
      | order keys => simp [perform] at hadvance
      | _ => cases hx
    · rintro ⟨n, hn, rfl⟩
      refine ⟨hgoing, .value n, rfl, ?_⟩
      simp [advance, h.prog, perform, h.used, hn]
  rw [ends_iff_steps hgoing]
  constructor
  · rintro ⟨-, hall⟩ n hn
    exact (hk n _ _ _ _ (h.drawn (k n) n)).mp
      (hall _ ((hstep _).mpr ⟨n, hn, rfl⟩))
  · intro hall
    obtain ⟨n, hn⟩ := exists_unused used
    refine ⟨⟨_, (hstep _).mpr ⟨n, hn, rfl⟩⟩, fun w' hmove => ?_⟩
    obtain ⟨n, hn, rfl⟩ := (hstep w').mp hmove
    exact (hk n _ _ _ _ (h.drawn (k n) n)).mpr (hall n hn)

theorem exact_call {c : σ.Call} {k : ℕ → Prog σ ε α}
    (hk : ∀ n, Exact Q (k n) guard) : Exact Q (.call c k) guard := by
  intro w s ws used h
  have hgoing : (w.procs 0).answer = none := by simp [Proc.answer, h.prog]
  have hstep : ∀ w', Step w w' ↔ ∃ n, w' = w.resume 0 (k n)
      ((w.session 0).observe (.answered c n)) := by
    intro w'
    constructor
    · rintro ⟨-, x, hx, hadvance⟩
      simp only [advance, h.prog] at hadvance
      cases x with
      | value n => exact ⟨n, (Option.some.inj hadvance).symm⟩
      | go => simp [perform] at hadvance
      | order keys => simp [perform] at hadvance
      | _ => cases hx
    · rintro ⟨n, rfl⟩
      refine ⟨hgoing, .value n, rfl, ?_⟩
      simp only [advance, h.prog, perform]
  have hends : ∀ n, Ends Q (w.resume 0 (k n)
      ((w.session 0).observe (.answered c n))) ↔
      (k n).Yields Q (handlerOf Q guard) s ws used := by
    intro n
    have hresume := h.resume (k n) ((w.session 0).observe (.answered c n))
    rw [show ((w.session 0).observe (.answered c n)).writes = ws from
      h.writes] at hresume
    exact hk n _ _ _ _ hresume
  rw [ends_iff_steps hgoing]
  constructor
  · rintro ⟨-, hall⟩ n
    exact (hends n).mp (hall _ ((hstep _).mpr ⟨n, rfl⟩))
  · intro hall
    refine ⟨⟨_, (hstep _).mpr ⟨0, rfl⟩⟩, fun w' hmove => ?_⟩
    obtain ⟨n, rfl⟩ := (hstep w').mp hmove
    exact (hends n).mpr (hall n)

/-- The weakest precondition of every program is exact. -/
theorem exact (prog : Prog σ ε α) (guard : Option (Prog σ ε α))
    (hG : ∀ h, guard = some h → Exact Q h none) : Exact Q prog guard := by
  induction prog generalizing guard with
  | ret a => exact exact_ret a
  | raise e => exact exact_raise e hG
  | halt => exact exact_halt hG
  | query k ih => exact exact_query fun s => ih s guard hG
  | scan t q k ih => exact exact_scan (fun rows => ih rows guard hG) hG
  | visit t q todo acc k ih => exact exact_visit (fun rows => ih rows guard hG) hG
  | insert t r k ih => exact exact_insert fun e => ih e guard hG
  | fresh k ih => exact exact_fresh fun n => ih n guard hG
  | call c k ih => exact exact_call fun n => ih n guard hG
  | commit k ih =>
      intro w s ws used h
      have hgo : w.advance 0 .go = some (w.committed 0 k) := by
        simp only [advance, h.prog, perform]
      rw [ends_iff_go (by simp [Proc.answer, h.prog]) hgo
        (by simp [advance, perform, h.prog])
        (by simp [advance, perform, h.prog]),
        ih guard hG _ _ _ _ (h.committed k)]
      rfl
  | rollback k ih =>
      intro w s ws used h
      have hgo : w.advance 0 .go =
          some (w.rolledBack 0 k (w.procs 0).guard) := by
        simp only [advance, h.prog, perform]
      rw [ends_iff_go (by simp [Proc.answer, h.prog]) hgo
        (by simp [advance, perform, h.prog])
        (by simp [advance, perform, h.prog])]
      have hback := h.rolledBack k (w.procs 0).guard
      rw [h.guard] at hback
      rw [h.guard, ih guard hG _ _ _ _ hback]
      rfl
  | guarded g k ihg ihk =>
      intro w s ws used h
      have hgo : w.advance 0 .go = some (w.setProc 0
          { w.procs 0 with prog := k, guard := some g }) := by
        simp only [advance, h.prog, perform]
      rw [ends_iff_go (by simp [Proc.answer, h.prog]) hgo
        (by simp [advance, perform, h.prog])
        (by simp [advance, perform, h.prog])]
      have hset := h.setProc { w.procs 0 with prog := k, guard := some g }
      rw [show ((w.procs 0).session).writes = ws from h.writes] at hset
      have hg : ∀ h', some g = some h' → Exact Q h' none := by
        rintro _ ⟨⟩
        exact ihg none fun _ hnone => by cases hnone
      rw [ihk (some g) hg _ _ _ _ hset]
      rfl
  | unguard k ih =>
      intro w s ws used h
      have hgo : w.advance 0 .go = some (w.setProc 0
          { w.procs 0 with prog := k, guard := none }) := by
        simp only [advance, h.prog, perform]
      rw [ends_iff_go (by simp [Proc.answer, h.prog]) hgo
        (by simp [advance, perform, h.prog])
        (by simp [advance, perform, h.prog])]
      have hset := h.setProc { w.procs 0 with prog := k, guard := none }
      rw [show ((w.procs 0).session).writes = ws from h.writes] at hset
      rw [ih none (fun _ hnone => by cases hnone) _ _ _ _ hset]
      rfl

end Exact

/-- All undisturbed runs of a request come to an answer with `Q` exactly if
its weakest precondition holds. -/
theorem ends_iff_yields :
    Ends Q (alone used s prog) ↔ prog.Yields Q none s [] used :=
  exact prog none (fun _ hnone => by cases hnone) _ _ _ _ at_alone

end World

/-! ## Rules -/

namespace Prog

variable {Q : Except ε α → Store σ → Prop} {G : Handler σ} {s : Store σ}
  {ws : List (Write σ)} {used : List ℕ}

theorem yields_select_bind {q : Store σ → β} {f : β → Prog σ ε α} :
    (select q >>= f).Yields Q G s ws used ↔
      (f (q (Store.view ws s))).Yields Q G s ws used := Iff.rfl

theorem require_bind {o : Option β} {b : β} {e : ε} {f : β → Prog σ ε α}
    (h : o = some b) : (require o e >>= f) = f b := by
  subst h
  rfl

theorem ensure_bind {c : Bool} {e : ε} {f : Unit → Prog σ ε α}
    (h : c = true) : (ensure c e >>= f) = f () := by
  subst h
  rfl

theorem yields_callOut_bind {c : σ.Call} {f : ℕ → Prog σ ε α} :
    (callOut c >>= f).Yields Q G s ws used ↔
      ∀ n, (f n).Yields Q G s ws used := Iff.rfl

theorem yields_freshId_bind {f : ℕ → Prog σ ε α} :
    (freshId >>= f).Yields Q G s ws used ↔
      ∀ n, n ∉ used → (f n).Yields Q G s ws (n :: used) := Iff.rfl

theorem yields_commitNow_bind {f : Unit → Prog σ ε α} :
    (commitNow >>= f).Yields Q G s ws used ↔
      (f ()).Yields Q G (Store.view ws s) [] used := Iff.rfl

theorem yields_insertRow_bind {t : σ.Table} {r : σ.Row t}
    {f : Option σ.Key → Prog σ ε α} {o : Option σ.Key}
    (hconflict : (Store.view ws s).conflict t r = o) :
    (insertRow t r >>= f).Yields Q G s ws used ↔
      (f o).Yields Q G s (if o.isSome then ws else ws ++ [.put t r]) used := by
  change (Prog.insert t r fun e => f e).Yields Q G s ws used ↔ _
  rw [Yields, hconflict]
  cases o with
  | some e => rfl
  | none => rfl

theorem yields_insertOrHalt_bind {t : σ.Table} {r : σ.Row t}
    {f : Unit → Prog σ ε α} (hnew : (Store.view ws s).conflict t r = none) :
    (insertOrHalt t r >>= f).Yields Q G s ws used ↔
      (f ()).Yields Q G s (ws ++ [.put t r]) used := by
  change (Prog.insert t r _).Yields Q G s ws used ↔ _
  rw [Yields, hnew]
  rfl

/-- An `UPDATE` of a row that is there, unless its new version clashes. -/
theorem yields_updateKey_bind {t : σ.Table} {k : σ.Key} {r : σ.Row t}
    {g : σ.Row t → σ.Row t} {f : Unit → Prog σ ε α}
    (hr : (Store.view ws s t).lookup k = some r) (hkey : σ.key (g r) = k) :
    (updateKey t k g >>= f).Yields Q G s ws used ↔
      if (Store.view ws s).clash t (g r) = none then
        (f ()).Yields Q G s (ws ++ [.put t (g r)]) used
      else Falls G s used := by
  have hvisits : ∀ keys, (byKey k fun r => .write (g r)).Visits
      (Store.view ws s) keys ↔ keys = [k] := fun _ => visits_byKey hr
  have hvisit : (byKey k fun r => Effect.write (g r)).visit (Store.view ws s) k =
      if (Store.view ws s).clash t (g r) = none then
        .keep (g r) [.put t (g r)] ((σ.unique (g r)).map fun e => (t, e))
      else .failed := by
    have hpred : σ.key r = k := Relation.key_of_lookup hr
    simp only [Scan.visit, hr, byKey, hpred, decide_true, if_true, hkey,
      true_and]
  change (Prog.scan t (byKey k _) _).Yields Q G s ws used ↔ _
  rw [Yields]
  simp only [hvisits, forall_eq, exists_eq, true_and, yieldsVisit, hvisit]
  by_cases hclash : (Store.view ws s).clash t (g r) = none
  · simp only [if_pos hclash]
    rfl
  · simp only [if_neg hclash]
    rfl

end Prog

end ReadCommitted
