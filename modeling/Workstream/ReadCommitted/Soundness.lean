import Workstream.ReadCommitted.RelyGuarantee

/-!
# Soundness of rely-guarantee reasoning

If every client's program satisfies its weakest precondition in the initial
store, then in every reachable world the invariant holds, every commit has
kept its guarantee, and every client that has returned or raised has done so
with its postcondition.
-/

namespace ReadCommitted

variable {σ : Schema} {ε α : Type}

namespace World

def shared (w : World σ ε α) : Shared σ where
  store := w.store
  used := w.used

/-- What client `p` keeps to itself in `w`. -/
def localOf (w : World σ ε α) (p : Pid) : Local σ where
  session := w.session p
  locks := fun r => w.locks r = some p

end World

namespace Contract

open World

variable {C : Contract σ} {Q : Pid → α → Local σ → Shared σ → Prop}
  {E : Pid → ε → Local σ → Shared σ → Prop} {w w' : World σ ε α} {p q : Pid}

/-- The precondition that a client's handler stands for. -/
def guardOf (C : Contract σ) (p : Pid) (Q : α → Local σ → Shared σ → Prop)
    (E : ε → Local σ → Shared σ → Prop) :
    Option (Prog σ ε α) → Guard σ
  | none => none
  | some h => some fun l s => C.wp p Q E h none l s

/-- Client `p` may go on from `w`. -/
def Safe (C : Contract σ) (Q : Pid → α → Local σ → Shared σ → Prop)
    (E : Pid → ε → Local σ → Shared σ → Prop) (w : World σ ε α)
    (p : Pid) : Prop :=
  C.wp p (Q p) (E p) (w.procs p).prog
    (guardOf C p (Q p) (E p) (w.procs p).guard) (w.localOf p) w.shared

/-- Every client may go on, and nobody has broken the contract so far. -/
structure Sound (C : Contract σ) (Q : Pid → α → Local σ → Shared σ → Prop)
    (E : Pid → ε → Local σ → Shared σ → Prop) (w : World σ ε α) : Prop where
  inv : C.inv w.shared
  guar : ∀ c ∈ w.log, C.guar c
  safe : ∀ p, Safe C Q E w p

/-! ## The local state after a step -/

theorem localOf_setProc (w : World σ ε α) (p : Pid) (P : Proc σ ε α) :
    (w.setProc p P).localOf p = { w.localOf p with session := P.session } := by
  simp [localOf, session, setProc]

theorem safe_setProc {P : Proc σ ε α}
    (h : C.wp p (Q p) (E p) P.prog (guardOf C p (Q p) (E p) P.guard)
      { w.localOf p with session := P.session } w.shared) :
    Safe C Q E (w.setProc p P) p := by
  unfold Safe
  rw [localOf_setProc]
  simpa [setProc, shared] using h

theorem safe_resume {prog : Prog σ ε α} {d : Session σ}
    (h : C.wp p (Q p) (E p) prog
      (guardOf C p (Q p) (E p) (w.procs p).guard)
      { w.localOf p with session := d } w.shared) :
    Safe C Q E (w.resume p prog d) p :=
  safe_setProc h

theorem safe_lockAndResume {refs : List σ.Ref} {prog : Prog σ ε α}
    {d : Session σ}
    (h : C.wp p (Q p) (E p) prog
      (guardOf C p (Q p) (E p) (w.procs p).guard)
      { (w.localOf p).lock refs with session := d } w.shared) :
    Safe C Q E (w.lockAndResume p refs prog d) p := by
  have hlocal : (w.lockAndResume p refs prog d).localOf p =
      { (w.localOf p).lock refs with session := d } := by
    simp [localOf, session, lockAndResume, resume, setProc, Local.lock,
      acquire_self]
  unfold Safe
  rw [hlocal]
  simpa [lockAndResume, resume, setProc, shared] using h

theorem safe_rolledBack {prog : Prog σ ε α} {guard : Option (Prog σ ε α)}
    (h : C.wp p (Q p) (E p) prog (guardOf C p (Q p) (E p) guard)
      (w.localOf p).rolledBack w.shared) :
    Safe C Q E (w.rolledBack p prog guard) p := by
  have hlocal : (w.rolledBack p prog guard).localOf p =
      (w.localOf p).rolledBack := by
    simp [localOf, session, rolledBack, setProc, Local.rolledBack,
      release_eq_some_iff]
  unfold Safe
  rw [hlocal]
  simpa [rolledBack, setProc, shared] using h

theorem safe_failed
    (h : Fails (guardOf C p (Q p) (E p) (w.procs p).guard) (w.localOf p)
      w.shared) : Safe C Q E (w.failed p) p := by
  apply safe_rolledBack
  cases hguard : (w.procs p).guard with
  | none => exact wp_halt
  | some g =>
      rw [hguard] at h
      exact h

/-! ## The moving client -/

/-- The commit of `p` is one that its weakest precondition speaks about. -/
theorem makes_commitOf {s₀ : Store σ} (hw : WellFormed s₀ w) :
    Makes p (w.localOf p) w.shared (w.commitOf p) where
  pid := rfl
  session := rfl
  before := rfl
  held := fun _ => Iff.rfl
  framed := hw.locked p
  ids := hw.idsUsed p

theorem safe_visitOne {t : σ.Table} {s : Scan σ t} {key : σ.Key}
    {todo : List σ.Key} {acc : List (σ.Row t)}
    {k : List (σ.Row t) → Prog σ ε α}
    (hstep : w.visitOne p s key todo acc k = some w')
    (hinv : C.inv w.shared) (hfull : s.full acc ≠ true)
    (h : C.wp p (Q p) (E p) (.visit t s (key :: todo) acc k)
      (guardOf C p (Q p) (E p) (w.procs p).guard) (w.localOf p) w.shared) :
    Safe C Q E w' p := by
  obtain ⟨hfails, hrest⟩ := Always.now h hinv
  rw [if_neg hfull] at hrest
  have hview : (w.localOf p).view w.shared = w.view p := rfl
  rw [hview] at hrest
  unfold visitOne at hstep
  split at hstep
  · cases hvisit : s.visit (w.view p) key with
    | skip =>
        simp only [hvisit, Option.some.injEq] at hstep hrest
        subst hstep
        exact safe_resume hrest.2
    | failed =>
        simp only [hvisit, Option.some.injEq] at hstep
        subst hstep
        exact safe_failed hfails
    | keep r ws refs =>
        simp only [hvisit] at hstep hrest
        split at hstep
        · cases hstep
          exact safe_lockAndResume hrest.2
        · cases hstep
  · split at hstep
    · next hskip =>
        cases hstep
        exact safe_resume (hrest.1 hskip)
    · cases hstep

/-- Committing keeps the contract, as long as the commit meets the assumption
of the contract. -/
theorem sound_commit {s₀ : Store σ} (hw : WellFormed s₀ w)
    (hinv : C.inv w.shared) (hassume : C.assume (w.commitOf p))
    {k : Prog σ ε α}
    (h : C.wp p (Q p) (E p) (.commit k)
      (guardOf C p (Q p) (E p) (w.procs p).guard) (w.localOf p) w.shared) :
    C.guar (w.commitOf p) ∧ C.inv (w.committed p k).shared ∧
      Safe C Q E (w.committed p k) p ∧
      Safe C Q E ((w.committed p k).failed p) p := by
  have hnow := Always.now h hinv
  obtain ⟨hguar, hafter, hfails, hk⟩ := hnow.2 _ (makes_commitOf hw) hassume
  have hlocal : (w.committed p k).localOf p = (w.localOf p).committed := by
    simp [localOf, session, World.committed, resume, setProc,
      Local.committed, release_eq_some_iff]
  have hguard : ((w.committed p k).procs p).guard = (w.procs p).guard := by
    simp [World.committed, resume, setProc]
  have hprog : ((w.committed p k).procs p).prog = k := by
    simp [World.committed, resume, setProc]
  refine ⟨hguar, hafter, ?_, ?_⟩
  · unfold Safe
    rw [hlocal, hguard, hprog]
    exact hk
  · apply safe_failed
    rw [hlocal, hguard]
    exact hfails

/-- A statement may fail at any time. -/
theorem safe_perform_fail {prog : Prog σ ε α} (hinv : C.inv w.shared)
    (h : C.wp p (Q p) (E p) prog
      (guardOf C p (Q p) (E p) (w.procs p).guard) (w.localOf p) w.shared)
    (hstep : w.perform p prog .fail = some w') : Safe C Q E w' p := by
  cases prog with
  | ret a => simp only [perform, reduceCtorEq] at hstep
  | raise e => simp only [perform, reduceCtorEq] at hstep
  | halt => simp only [perform, reduceCtorEq] at hstep
  | visit t q todo acc k =>
      simp only [perform, Option.some.injEq] at hstep
      subst hstep
      apply safe_failed
      cases todo with
      | nil => exact (Always.now h hinv).1
      | cons key todo => exact (Always.now h hinv).1
  | _ =>
      simp only [perform, Option.some.injEq] at hstep
      subst hstep
      rw [wp] at h
      exact safe_failed (h.now hinv).1

/-- A client may vanish at any time. -/
theorem safe_perform_crash {prog : Prog σ ε α}
    (hstep : w.perform p prog .crash = some w') : Safe C Q E w' p := by
  cases prog with
  | ret a => simp only [perform, reduceCtorEq] at hstep
  | raise e => simp only [perform, reduceCtorEq] at hstep
  | halt => simp only [perform, reduceCtorEq] at hstep
  | _ =>
      simp only [perform, Option.some.injEq] at hstep
      subst hstep
      exact safe_rolledBack wp_halt

/-- Every statement that does not commit leaves its client safe. -/
theorem safe_perform {prog : Prog σ ε α} {x : Input σ}
    (hinv : C.inv w.shared)
    (h : C.wp p (Q p) (E p) prog
      (guardOf C p (Q p) (E p) (w.procs p).guard) (w.localOf p) w.shared)
    (hstep : w.perform p prog x = some w')
    (hlog : w'.log = w.log) : Safe C Q E w' p := by
  by_cases hfail : x = .fail
  · exact safe_perform_fail hinv h (hfail ▸ hstep)
  by_cases hcrash : x = .crash
  · exact safe_perform_crash (hcrash ▸ hstep)
  cases prog with
  | ret a =>
      cases x <;> simp only [perform, reduceCtorEq, Option.some.injEq] at hstep
      subst hstep
      exact safe_rolledBack wp_halt
  | raise e =>
      cases x <;> simp only [perform, reduceCtorEq, Option.some.injEq] at hstep
      subst hstep
      rw [wp] at h
      have hnow := h.now hinv
      apply safe_failed
      cases hguard : (w.procs p).guard with
      | none => trivial
      | some g =>
          rw [hguard] at hnow
          exact hnow
  | halt =>
      rw [wp] at h
      cases x <;> simp only [perform, reduceCtorEq, Option.some.injEq] at hstep
      subst hstep
      exact safe_failed (h.now hinv)
  | query k =>
      rw [wp] at h
      cases x <;> simp only [perform, reduceCtorEq, Option.some.injEq,
        not_true_eq_false] at hstep hfail hcrash
      subst hstep
      exact safe_resume (h.now hinv).2
  | scan t q k =>
      rw [wp] at h
      cases x <;> simp only [perform, reduceCtorEq, Option.some.injEq,
        not_true_eq_false] at hstep hfail hcrash
      split at hstep
      · next hvisits =>
          cases hstep
          exact safe_resume ((h.now hinv).2 _ hvisits)
      · cases hstep
  | visit t q todo acc k =>
      cases x <;> simp only [perform, reduceCtorEq, Option.some.injEq,
        not_true_eq_false] at hstep hfail hcrash
      cases todo with
      | nil =>
          simp only [Option.some.injEq] at hstep
          subst hstep
          exact safe_resume (Always.now h hinv).2
      | cons key todo =>
          simp only at hstep
          split at hstep
          · next hfull =>
              cases hstep
              have hpost := (Always.now h hinv).2
              rw [if_pos hfull] at hpost
              exact safe_resume hpost
          · next hfull => exact safe_visitOne hstep hinv hfull h
  | insert t r k =>
      rw [wp] at h
      have hk := (h.now hinv).2
      have hview : (w.localOf p).view w.shared = w.view p := rfl
      rw [hview] at hk
      cases x <;> simp only [perform, reduceCtorEq, Option.some.injEq,
        not_true_eq_false] at hstep hfail hcrash
      split at hstep
      · cases hconflict : (w.view p).conflict t r with
        | some e =>
            simp only [hconflict, Option.some.injEq] at hstep hk
            subst hstep
            exact safe_resume hk
        | none =>
            simp only [hconflict, Option.some.injEq] at hstep hk
            subst hstep
            exact safe_lockAndResume hk
      · cases hstep
  | fresh k =>
      rw [wp] at h
      cases x <;> simp only [perform, reduceCtorEq, Option.some.injEq,
        not_true_eq_false] at hstep hfail hcrash
      split at hstep
      · cases hstep
      · next n hn =>
          cases hstep
          have hlocal : World.localOf { w.resume p (k n)
              ((w.session p).draw n) with used := n :: w.used } p =
                (w.localOf p).draw n := by
            simp [localOf, session, resume, setProc, Local.draw]
          unfold Safe
          rw [hlocal]
          simpa [resume, setProc, shared] using (h.now hinv).2 n hn
  | call c k =>
      rw [wp] at h
      cases x <;> simp only [perform, reduceCtorEq, Option.some.injEq,
        not_true_eq_false] at hstep hfail hcrash
      subst hstep
      exact safe_resume ((h.now hinv).2 _)
  | commit k =>
      cases x <;> simp only [perform, reduceCtorEq, Option.some.injEq,
        not_true_eq_false] at hstep hfail hcrash
      · subst hstep
        exact absurd hlog (List.cons_ne_self _ _)
      · subst hstep
        exact absurd hlog (List.cons_ne_self _ _)
  | rollback k =>
      rw [wp] at h
      cases x <;> simp only [perform, reduceCtorEq, Option.some.injEq,
        not_true_eq_false] at hstep hfail hcrash
      subst hstep
      exact safe_rolledBack (h.now hinv).2
  | guarded g k =>
      rw [wp] at h
      cases x <;> simp only [perform, reduceCtorEq, Option.some.injEq,
        not_true_eq_false] at hstep hfail hcrash
      subst hstep
      exact safe_setProc (h.now hinv).2
  | unguard k =>
      rw [wp] at h
      cases x <;> simp only [perform, reduceCtorEq, Option.some.injEq,
        not_true_eq_false] at hstep hfail hcrash
      subst hstep
      exact safe_setProc (h.now hinv).2

/-! ## All clients together -/

/-- The step of one client is interference for the others. -/
theorem rely_of_change {s₀ : Store σ} (hw : WellFormed s₀ w)
    (hinv : C.inv w.shared) (h : Change w p w')
    (hguar : w'.log = w.commitOf p :: w.log → C.guar (w.commitOf p))
    (hq : q ≠ p) : C.Rely q (w.localOf q) w.shared w'.shared := by
  cases h with
  | drawing P n hn => exact .single (.draw w.shared n hn)
  | committing P =>
      refine .single (.commit (w.commitOf p) (Ne.symm hq) hinv ?_ ?_
        (hw.locked p) (hguar rfl))
      · intro r hheld hlock
        have hp : w.locks r = some p := hheld
        have hqlock : w.locks r = some q := hlock
        rw [hp] at hqlock
        exact hq (Option.some.inj hqlock).symm
      · exact fun n hn => hw.idsDisjoint p q (Ne.symm hq) n hn
  | _ => exact .refl

theorem localOf_of_change (h : Change w p w') (hq : q ≠ p) :
    w'.localOf q = w.localOf q := by
  have hlocks : ∀ r, (w'.locks r = some q) = (w.locks r = some q) :=
    fun r => propext ((h.others hq).2 r)
  simp [localOf, h.session_of_ne hq, hlocks]

/-- The others are as safe after the step as before it. -/
theorem Sound.others {s₀ : Store σ} (hw : WellFormed s₀ w)
    (hsound : Sound C Q E w) (h : Change w p w')
    (hguar : w'.log = w.commitOf p :: w.log → C.guar (w.commitOf p))
    (hq : q ≠ p) : Safe C Q E w' q := by
  unfold Safe
  rw [localOf_of_change h hq, (h.others hq).1]
  exact wp_rely (hsound.safe q) (rely_of_change hw hsound.inv h hguar hq)

theorem Sound.step {s₀ : Store σ} {x : Input σ} (hw : WellFormed s₀ w)
    (h : Sound C Q E w) (hstep : w.advance p x = some w')
    (hassume : ∀ c ∈ w'.log, C.assume c) : Sound C Q E w' := by
  have hchange := change_of_advance hstep
  have hsafe := h.safe p
  unfold Safe at hsafe
  rw [advance] at hstep
  rcases hchange.log with ⟨hlog, hstore⟩ | ⟨⟨k, hk⟩, hlog, _⟩
  · have hguar : w'.log = w.commitOf p :: w.log → C.guar (w.commitOf p) :=
      fun hnew => absurd (hnew.symm.trans hlog) (List.cons_ne_self _ _)
    refine ⟨?_, hlog ▸ h.guar, fun q => ?_⟩
    · rcases hchange.ids with ⟨_, hused⟩ | ⟨n, hn, _, hused⟩
      · have hshared : w'.shared = w.shared := by
          simp [shared, hstore, hused]
        exact hshared ▸ h.inv
      · have hshared : w'.shared = { w.shared with used := n :: w.used } := by
          simp [shared, hstore, hused]
        exact hshared ▸ C.inv_draw w.shared n hn h.inv
    · by_cases hq : q = p
      · exact hq ▸ safe_perform h.inv hsafe hstep hlog
      · exact h.others hw hchange hguar hq
  · rw [hk] at hsafe hstep
    obtain ⟨hguar, hinv, hgo, hfailed⟩ := sound_commit hw h.inv
      (hassume _ (hlog ▸ List.mem_cons_self)) hsafe
    refine ⟨?_, ?_, fun q => ?_⟩
    · cases x <;> simp only [perform, reduceCtorEq, Option.some.injEq] at hstep
      all_goals subst hstep
      · exact hinv
      · exact hinv
      · exact h.inv
      · exact h.inv
    · rw [hlog]
      intro c hc
      rcases List.mem_cons.mp hc with rfl | hc
      · exact hguar
      · exact h.guar c hc
    · by_cases hq : q = p
      · subst q
        cases x <;>
          simp only [perform, reduceCtorEq, Option.some.injEq] at hstep
        all_goals subst hstep
        · exact hgo
        · exact hfailed
        · exact absurd hlog.symm (List.cons_ne_self _ _)
        · exact absurd hlog.symm (List.cons_ne_self _ _)
      · exact h.others hw hchange (fun _ => hguar) hq

/-- Clients that are verified one at a time keep the contract together. -/
theorem sound {s₀ : Store σ} {code : Pid → Prog σ ε α}
    (hinv : C.inv ⟨s₀, []⟩)
    (hcode : ∀ p, C.wp p (Q p) (E p) (code p) none {} ⟨s₀, []⟩)
    (hreach : Reachable (World.start s₀ code) w)
    (hassume : ∀ c ∈ w.log, C.assume c) : Sound C Q E w := by
  induction hreach with
  | start =>
      refine ⟨hinv, by simp [World.start], fun p => ?_⟩
      have hlocal : (World.start s₀ code).localOf p = {} := by
        simp [localOf, session, World.start]
      unfold Safe
      rw [hlocal]
      exact hcode p
  | step p x hprev hstep ih =>
      have hchange := change_of_advance hstep
      refine (ih ?_).step (wellFormed_of_reachable hprev) hstep hassume
      intro c hc
      apply hassume
      rcases hchange.log with ⟨hlog, _⟩ | ⟨_, hlog, _⟩
      · exact hlog ▸ hc
      · exact hlog ▸ List.mem_cons_of_mem _ hc

/-- A client that raises an error to its caller does so with its
postcondition. -/
theorem Sound.raised (h : Sound C Q E w) {e : ε}
    (hprog : (w.procs p).prog = .raise e) (hguard : (w.procs p).guard = none) :
    E p e (w.localOf p) w.shared := by
  have hsafe := h.safe p
  unfold Safe at hsafe
  rw [hprog, hguard, wp] at hsafe
  exact hsafe.now h.inv

theorem Sound.returned (h : Sound C Q E w) {a : α}
    (hprog : (w.procs p).prog = .ret a) :
    Q p a (w.localOf p) w.shared := by
  have hsafe := h.safe p
  unfold Safe at hsafe
  rw [hprog] at hsafe
  exact hsafe.2.now h.inv

end Contract

end ReadCommitted
