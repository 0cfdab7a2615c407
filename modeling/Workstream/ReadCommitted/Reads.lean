import Workstream.ReadCommitted.Requests

/-!
# Programs that only read

On its own a program that only reads is a function of the store.
-/

namespace ReadCommitted

variable {σ : Schema} {ε α β : Type}

namespace Prog

/-- What a program answers on a store, as long as it only reads. -/
def answer (s : Store σ) : Prog σ ε α → ExceptT ε Option α
  | .ret a => some (.ok a)
  | .raise e => some (.error e)
  | .query k => (k s).answer s
  | _ => none

/-- The program has no other statements than `SELECT`. -/
inductive Reads : Prog σ ε α → Prop where
  | ret (a : α) : Reads (.ret a)
  | raise (e : ε) : Reads (.raise e)
  | halt : Reads .halt
  | query (k : Store σ → Prog σ ε α) (h : ∀ s, Reads (k s)) : Reads (.query k)

theorem Reads.bind {x : Prog σ ε α} {f : α → Prog σ ε β} (h : x.Reads)
    (hf : ∀ a, (f a).Reads) : (x >>= f).Reads := by
  induction h with
  | ret a => exact hf a
  | raise e => exact .raise e
  | halt => exact .halt
  | query k _ ih => exact .query _ ih

theorem reads_select (q : Store σ → α) : (select q : Prog σ ε α).Reads :=
  .query _ fun s => .ret (q s)

theorem reads_ensure (c : Bool) (e : ε) : (ensure c e : Prog σ ε Unit).Reads := by
  cases c
  · exact .raise e
  · exact .ret ()

theorem reads_require (o : Option α) (e : ε) :
    (require o e : Prog σ ε α).Reads := by
  cases o with
  | none => exact .raise e
  | some a => exact .ret a

theorem answer_pure (s : Store σ) (a : α) :
    (pure a : Prog σ ε α).answer s = pure a := rfl

theorem answer_bind (s : Store σ) (x : Prog σ ε α) (f : α → Prog σ ε β) :
    (x >>= f).answer s = (x.answer s >>= fun a => (f a).answer s) := by
  induction x with
  | ret a => rfl
  | raise e => rfl
  | query k ih => exact ih s
  | _ => rfl

/-- An answer after a check. -/
theorem check_eq_ok_iff {x : ExceptT ε Option Unit} {a b : α} :
    (x >>= fun _ => pure a) = (some (.ok b) : Option (Except ε α)) ↔
      x = pure () ∧ a = b := by
  match x with
  | none =>
      constructor
      · intro h
        cases h
      · rintro ⟨h, _⟩
        cases h
  | some (.error e) =>
      constructor
      · intro h
        cases h
      · rintro ⟨h, _⟩
        cases h
  | some (.ok ()) =>
      constructor
      · intro h
        exact ⟨rfl, Except.ok.inj (Option.some.inj h)⟩
      · rintro ⟨_, rfl⟩
        rfl

end Prog

open World

/-- `prog` can return `a` when it runs on its own on `s`. -/
def Returns (s : Store σ) (prog : Prog σ ε α) (a : α) : Prop :=
  ∃ w, Reachable (solo s prog) w ∧ (w.procs 0).prog = .ret a

/-- Where a program that only reads may be. -/
structure Reading (s : Store σ) (prog : Prog σ ε α) (w : World σ ε α) :
    Prop where
  store : w.store = s
  writes : (w.session 0).writes = []
  reads : (w.procs 0).prog.Reads
  answer : (w.procs 0).prog = .halt ∨
    (w.procs 0).prog.answer s = prog.answer s
  guard : (w.procs 0).guard = none
  others : ∀ q, q ≠ 0 → (w.procs q).prog = .halt ∧ (w.procs q).guard = none

variable {s : Store σ} {prog : Prog σ ε α} {w w' : World σ ε α} {a : α}

theorem reading_start (h : prog.Reads) : Reading s prog (solo s prog) where
  store := rfl
  writes := rfl
  reads := h
  answer := Or.inr rfl
  guard := rfl
  others := fun q hq => by simp [solo, start, hq]

theorem Reading.gone (h : Reading s prog w) :
    Reading s prog (w.rolledBack 0 .halt none) where
  store := h.store
  writes := by simp [rolledBack, setProc, session, Session.discard]
  reads := by simpa [rolledBack, setProc] using Prog.Reads.halt
  answer := by simp [rolledBack, setProc]
  guard := by simp [rolledBack, setProc]
  others := fun q hq => by simpa [rolledBack, setProc, hq] using h.others q hq

theorem Reading.failed (h : Reading s prog w) :
    Reading s prog (w.failed 0) := by
  rw [World.failed, h.guard]
  exact h.gone

/-- Nobody else is there to move. -/
theorem Reading.aside (h : Reading s prog w) {q : Pid} (hq : q ≠ 0) :
    Reading s prog (w.failed q) where
  store := h.store
  writes := by simpa [World.failed, rolledBack, setProc, session, hq.symm]
    using h.writes
  reads := by simpa [World.failed, rolledBack, setProc, hq.symm] using h.reads
  answer := by simpa [World.failed, rolledBack, setProc, hq.symm] using h.answer
  guard := by simpa [World.failed, rolledBack, setProc, hq.symm] using h.guard
  others := fun r hr => by
    by_cases hrq : r = q
    · simp [World.failed, rolledBack, setProc, hrq, (h.others q hq).2]
    · simpa [World.failed, rolledBack, setProc, hrq] using h.others r hr

theorem Reading.query (h : Reading s prog w) {k : Store σ → Prog σ ε α}
    (hprog : (w.procs 0).prog = .query k) :
    Reading s prog (w.resume 0 (k (w.view 0))
      ((w.session 0).observe (.saw (w.view 0)))) := by
  have hview : w.view 0 = s := by
    rw [view, Session.view, h.writes, h.store]
    rfl
  have hreads := h.reads
  have hanswer := h.answer
  rw [hprog] at hreads hanswer
  rw [hview]
  cases hreads with
  | query k hk =>
      constructor
      · exact h.store
      · simpa [resume, session, setProc, Session.observe] using h.writes
      · simpa [resume, setProc] using hk s
      · right
        rcases hanswer with hhalt | hanswer
        · cases hhalt
        · rw [← hanswer]
          simp [resume, setProc, Prog.answer]
      · simpa [resume, setProc] using h.guard
      · intro q hq
        simpa [resume, setProc, hq] using h.others q hq

theorem Reading.step (h : Reading s prog w) {p : Pid} {x : Input σ}
    (hstep : w.advance p x = some w') : Reading s prog w' := by
  by_cases hp : p = 0
  · subst p
    have hreads := h.reads
    generalize hprog : (w.procs 0).prog = now at hreads
    rw [advance, hprog] at hstep
    cases hreads with
    | ret a =>
        cases x <;> simp only [perform, reduceCtorEq, Option.some.injEq] at hstep
        exact hstep ▸ h.gone
    | raise e =>
        cases x <;> simp only [perform, reduceCtorEq, Option.some.injEq] at hstep
        exact hstep ▸ h.failed
    | halt =>
        cases x <;> simp only [perform, reduceCtorEq, Option.some.injEq] at hstep
        exact hstep ▸ h.failed
    | query k hk =>
        cases x <;> simp only [perform, reduceCtorEq, Option.some.injEq] at hstep
        · exact hstep ▸ h.query hprog
        · exact hstep ▸ h.failed
        · exact hstep ▸ h.gone
  · rw [advance, (h.others p hp).1] at hstep
    cases x <;> simp only [perform, reduceCtorEq, Option.some.injEq] at hstep
    exact hstep ▸ h.aside hp

theorem reading_of_reachable (hprog : prog.Reads)
    (h : Reachable (solo s prog) w) : Reading s prog w := by
  induction h with
  | start => exact reading_start hprog
  | step p x _ hstep ih => exact ih.step hstep

/-- A query of the only client. -/
theorem reachable_of_answer (hread : Reading s prog w)
    (h : Reachable (solo s prog) w) (ha : (w.procs 0).prog.answer s = some (.ok a)) :
    Returns s prog a := by
  generalize hnow : (w.procs 0).prog = now at ha
  induction now generalizing w with
  | ret b =>
      have hba : b = a := Except.ok.inj (Option.some.inj ha)
      subst b
      exact ⟨w, h, hnow⟩
  | query k ih =>
      have hstep : w.advance 0 .go = some (w.resume 0 (k (w.view 0))
          ((w.session 0).observe (.saw (w.view 0)))) := by
        rw [advance, hnow]
        rfl
      have hnext := hread.step hstep
      have hview : w.view 0 = s := by
        rw [view, Session.view, hread.writes, hread.store]
        rfl
      rw [hview] at hstep hnext
      have hprog : ((w.resume 0 (k s) ((w.session 0).observe
          (.saw s))).procs 0).prog = k s := by
        simp [resume, setProc]
      exact ih s hnext (h.step 0 .go hstep) hprog ha
  | _ => cases ha

/-- On its own a program that reads returns its answer. -/
theorem returns_iff (hprog : prog.Reads) :
    Returns s prog a ↔ prog.answer s = some (.ok a) := by
  constructor
  · rintro ⟨w, hw, hret⟩
    have hread := reading_of_reachable hprog hw
    have hanswer := hread.answer
    rw [hret] at hanswer
    rcases hanswer with hhalt | hanswer
    · cases hhalt
    · exact hanswer.symm
  · intro ha
    exact reachable_of_answer (reading_start hprog) .start ha

end ReadCommitted
