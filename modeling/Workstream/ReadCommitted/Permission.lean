import Workstream.ReadCommitted.Discipline
import Workstream.ReadCommitted.Steady

/-!
# Programs that ask for permission first

A program may read, draw identifiers and make calls.  Before it locks or
writes a row, commits, or answers, the stores that it has read must permit it.
A client that has done any of this has then found its permission in stores that
it has queried in this run, one after the other, before it had committed
anything.
-/

namespace ReadCommitted

variable {σ : Schema} {ε α β : Type}

/-! ## Programs -/

namespace Prog

/-- After the program has read the stores `ss`, it does nothing but read,
draw and call until `Φ` permits it, and returns with `Q`. -/
def Heeds (Φ : List (Store σ) → Prop) (Q : List (Store σ) → α → Prop) :
    Prog σ ε α → List (Store σ) → Prop
  | .ret a, ss => Q ss a
  | .raise _, _ => True
  | .halt, _ => True
  | .query k, ss => ∀ s, Heeds Φ Q (k s) (ss ++ [s])
  | .fresh k, ss => ∀ n, Heeds Φ Q (k n) ss
  | .call _ k, ss => ∀ n, Heeds Φ Q (k n) ss
  | _, ss => Φ ss

section Rules

variable {Φ : List (Store σ) → Prop} {Q : List (Store σ) → α → Prop}
  {P : List (Store σ) → β → Prop} {ss : List (Store σ)}

/-- With a lasting permission everything goes. -/
theorem heeds_of_permitted {prog : Prog σ ε α} (hΦ : ∀ rest, Φ (ss ++ rest))
    (hQ : ∀ rest a, Q (ss ++ rest) a) : prog.Heeds Φ Q ss := by
  have hΦ₀ : Φ ss := by simpa using hΦ []
  induction prog generalizing ss with
  | ret a =>
      have hret := hQ [] a
      rwa [List.append_nil] at hret
  | raise | halt => trivial
  | query k ih =>
      intro s
      apply ih s
      · intro rest
        simpa using hΦ (s :: rest)
      · intro rest a
        simpa using hQ (s :: rest) a
      · exact hΦ [s]
  | fresh k ih => exact fun n => ih n hΦ hQ hΦ₀
  | call c k ih => exact fun n => ih n hΦ hQ hΦ₀
  | _ => exact hΦ₀

@[simp] theorem heeds_bind (x : Prog σ ε β) (f : β → Prog σ ε α) :
    (x >>= f).Heeds Φ Q ss ↔
      x.Heeds Φ (fun ss b => (f b).Heeds Φ Q ss) ss := by
  change (x.bind f).Heeds Φ Q ss ↔ _
  induction x generalizing ss with
  | query k ih => exact forall_congr' fun s => ih s
  | fresh k ih => exact forall_congr' fun n => ih n
  | call c k ih => exact forall_congr' fun n => ih n
  | _ => exact Iff.rfl

@[simp] theorem heeds_map (f : β → α) (x : Prog σ ε β) :
    (f <$> x).Heeds Φ Q ss ↔ x.Heeds Φ (fun ss b => Q ss (f b)) ss :=
  heeds_bind x fun b => pure (f b)

@[simp] theorem heeds_pure (a : α) :
    Heeds (ε := ε) Φ Q (pure a) ss ↔ Q ss a := Iff.rfl

@[simp] theorem heeds_ret (a : α) :
    Heeds (ε := ε) Φ Q (.ret a) ss ↔ Q ss a := Iff.rfl

@[simp] theorem heeds_raise (e : ε) : Heeds Φ Q (.raise e) ss ↔ True := Iff.rfl

@[simp] theorem heeds_halt : Heeds (ε := ε) Φ Q .halt ss ↔ True := Iff.rfl

@[simp] theorem heeds_select (q : Store σ → β) :
    Heeds (ε := ε) Φ P (select q) ss ↔ ∀ s, P (ss ++ [s]) (q s) := Iff.rfl

@[simp] theorem heeds_callOut (c : σ.Call) {P : List (Store σ) → ℕ → Prop} :
    Heeds (ε := ε) Φ P (callOut c) ss ↔ ∀ n, P ss n := Iff.rfl

@[simp] theorem heeds_ensure (c : Bool) (e : ε)
    {P : List (Store σ) → Unit → Prop} :
    (ensure c e).Heeds Φ P ss ↔ (c = true → P ss ()) := by
  cases c with
  | true => simp [ensure]
  | false => simp [ensure]

@[simp] theorem heeds_require (o : Option β) (e : ε) :
    (require o e).Heeds Φ P ss ↔ ∀ b, o = some b → P ss b := by
  cases o with
  | none => simp [require]
  | some b => simp [require]

end Rules

end Prog

/-! ## Runs -/

open World

/-- The client executes a query and finds `s`, which is what has been committed;
it has not committed anything itself. -/
structure Looks (p : Pid) (w : World σ ε α) (s : Store σ) (w' : World σ ε α) :
    Prop where
  asks : ∃ k, (w.procs p).prog = .query k
  finds : w.view p = s
  store : w.store = s
  commits : w.commits p = 0
  step : w.advance p .go = some w'

/-- On the way from `w₀` to `w` the client has found the stores `ss`, in this
order. -/
def Saw (w₀ : World σ ε α) (p : Pid) : List (Store σ) → World σ ε α → Prop
  | [], w => Reachable w₀ w
  | s :: ss, w => ∃ w₁ w₂, Reachable w₀ w₁ ∧ Looks p w₁ s w₂ ∧ Saw w₂ p ss w

variable {w₀ w w' : World σ ε α} {p : Pid} {ss : List (Store σ)}

theorem Saw.step (h : Saw w₀ p ss w) {q : Pid} {x : Input σ}
    (hstep : w.advance q x = some w') : Saw w₀ p ss w' := by
  induction ss generalizing w₀ with
  | nil => exact Reachable.step q x h hstep
  | cons s ss ih =>
      obtain ⟨w₁, w₂, hreach, hlooks, hsaw⟩ := h
      exact ⟨w₁, w₂, hreach, hlooks, ih hsaw⟩

/-- One more query. -/
theorem Saw.look (h : Saw w₀ p ss w) (hlooks : Looks p w w.store w') :
    Saw w₀ p (ss ++ [w.store]) w' := by
  induction ss generalizing w₀ with
  | nil => exact ⟨w, w', h, hlooks, .start⟩
  | cons s ss ih =>
      obtain ⟨w₁, w₂, hreach, hfirst, hsaw⟩ := h
      exact ⟨w₁, w₂, hreach, hfirst, ih hsaw⟩

/-- The client has locked, written or committed something, or has answered. -/
def World.Acts (w : World σ ε α) (p : Pid) : Prop :=
  (∃ r, w.locks r = some p) ∨ (w.session p).writes ≠ [] ∨
    w.commits p ≠ 0 ∨ ∃ a, (w.procs p).prog = .ret a

/-- The client holds nothing and has changed nothing. -/
structure Idle (w : World σ ε α) (p : Pid) : Prop where
  guard : (w.procs p).guard = none
  writes : (w.session p).writes = []
  locks : ∀ r, w.locks r ≠ some p
  commits : w.commits p = 0

theorem Idle.view (h : Idle w p) : w.view p = w.store := by
  rw [World.view, Session.view, h.writes]
  rfl

theorem Idle.resume (h : Idle w p) {prog : Prog σ ε α} {d : Session σ}
    (hd : d.writes = (w.session p).writes) : Idle (w.resume p prog d) p where
  guard := by simpa [World.resume, setProc] using h.guard
  writes := by simpa [World.resume, setProc, session, hd] using h.writes
  locks := h.locks
  commits := h.commits

theorem Idle.drawn (h : Idle w p) (prog : Prog σ ε α) (n : ℕ) :
    Idle { w.resume p prog ((w.session p).draw n) with
      used := n :: w.used } p := by
  have hnext : Idle (w.resume p prog ((w.session p).draw n)) p := h.resume rfl
  exact ⟨hnext.guard, hnext.writes, hnext.locks, hnext.commits⟩

theorem Idle.rolledBack (h : Idle w p) {prog : Prog σ ε α} :
    Idle (w.rolledBack p prog none) p where
  guard := by simp [World.rolledBack, setProc]
  writes := by simp [World.rolledBack, setProc, session, Session.discard]
  locks := by
    intro r hr
    exact h.locks r (release_eq_some_iff.mp hr).1
  commits := h.commits

theorem Idle.failed (h : Idle w p) : Idle (w.failed p) p := h.rolledBack

/-- The step of somebody else. -/
theorem Idle.others (h : Idle w p) {q : Pid} {x : Input σ}
    (hstep : w.advance q x = some w') (hq : p ≠ q) : Idle w' p := by
  obtain ⟨hproc, hlocks⟩ := (change_of_advance hstep).others hq
  refine ⟨hproc ▸ h.guard, ?_, fun r hr => h.locks r ((hlocks r).mp hr), ?_⟩
  · rw [session, hproc]
    exact h.writes
  · rcases (change_of_advance hstep).log with ⟨hlog, _⟩ | ⟨_, hlog, _⟩
    · rw [World.commits, hlog]
      exact h.commits
    · have hpid : (w.commitOf q).pid ≠ p := fun hp => hq hp.symm
      rw [World.commits, hlog, List.countP_cons_of_neg (by simpa using hpid)]
      exact h.commits

/-- A client that takes no step stays where it is. -/
theorem Idle.run (h : Idle w p) {xs : List (Pid × Input σ)}
    (hxs : ∀ x ∈ xs, x.1 ≠ p) (hrun : w.run xs = some w') :
    Idle w' p ∧ w'.procs p = w.procs p := by
  induction xs generalizing w with
  | nil =>
      cases hrun
      exact ⟨h, rfl⟩
  | cons x xs ih =>
      obtain ⟨w₁, hstep, hrest⟩ := Option.bind_eq_some_iff.mp hrun
      have hp : p ≠ x.1 := (hxs x List.mem_cons_self).symm
      rw [← ((change_of_advance hstep).others hp).1]
      exact ih (h.others hstep hp)
        (fun y hy => hxs y (List.mem_cons_of_mem x hy)) hrest

variable {Φ : List (Store σ) → Prop}

/-- How far a client has come that asks for permission. -/
inductive Petition (w₀ : World σ ε α) (p : Pid)
    (Φ : List (Store σ) → Prop) (w : World σ ε α) : Prop where
  | pending (ss : List (Store σ)) (hidle : Idle w p) (hsaw : Saw w₀ p ss w)
      (hheeds : (w.procs p).prog.Heeds Φ (fun ss _ => Φ ss) ss)
  | granted (ss : List (Store σ)) (hΦ : Φ ss) (hsaw : Saw w₀ p ss w)

/-- A client goes on asking, or it has its permission. -/
theorem petition_advance (hidle : Idle w p) (hsaw : Saw w₀ p ss w)
    (hheeds : (w.procs p).prog.Heeds Φ (fun ss _ => Φ ss) ss) {x : Input σ}
    (hstep : w.advance p x = some w') : Petition w₀ p Φ w' := by
  have hsaw' := hsaw.step hstep
  have hgone : (w.failed p = w' ∨ w.rolledBack p .halt none = w') →
      Petition w₀ p Φ w' := by
    rintro (rfl | rfl)
    · refine .pending ss hidle.failed hsaw' ?_
      simp [World.failed, World.rolledBack, setProc, hidle.guard]
    · refine .pending ss hidle.rolledBack hsaw' ?_
      simp [World.rolledBack, setProc]
  have hlook : ∀ k, (w.procs p).prog = .query k →
      w.advance p .go = some w' → Saw w₀ p (ss ++ [w.store]) w' :=
    fun k hprog hgo =>
      hsaw.look ⟨⟨k, hprog⟩, hidle.view, rfl, hidle.commits, hgo⟩
  have hgo := hstep
  unfold advance at hstep
  cases hprog : (w.procs p).prog with
  | ret a =>
      rw [hprog] at hheeds
      exact .granted ss hheeds hsaw'
  | raise e =>
      rw [hprog] at hstep
      cases x <;> simp only [perform, reduceCtorEq, Option.some.injEq] at hstep
      exact hgone (.inl hstep)
  | halt =>
      rw [hprog] at hstep
      cases x <;> simp only [perform, reduceCtorEq, Option.some.injEq] at hstep
      exact hgone (.inl hstep)
  | query k =>
      rw [hprog] at hstep hheeds
      cases x <;> simp only [perform, reduceCtorEq, Option.some.injEq] at hstep
      · subst hstep
        refine .pending _ (hidle.resume rfl) (hlook k hprog hgo) ?_
        simpa [World.resume, setProc, hidle.view] using hheeds w.store
      · exact hgone (.inl hstep)
      · exact hgone (.inr hstep)
  | fresh k =>
      rw [hprog] at hstep hheeds
      cases x <;> simp only [perform, reduceCtorEq, Option.some.injEq] at hstep
      · split at hstep
        · cases hstep
        · cases hstep
          refine .pending ss (hidle.drawn _ _) hsaw' ?_
          simpa [World.resume, setProc] using hheeds _
      · exact hgone (.inl hstep)
      · exact hgone (.inr hstep)
  | call c k =>
      rw [hprog] at hstep hheeds
      cases x <;> simp only [perform, reduceCtorEq, Option.some.injEq] at hstep
      · subst hstep
        refine .pending ss (hidle.resume rfl) hsaw' ?_
        simpa [World.resume, setProc] using hheeds _
      · exact hgone (.inl hstep)
      · exact hgone (.inr hstep)
  | _ =>
      rw [hprog] at hheeds
      exact .granted ss hheeds hsaw'

theorem petition_of_reachable (hidle : Idle w₀ p)
    (hheeds : (w₀.procs p).prog.Heeds Φ (fun ss _ => Φ ss) [])
    (hreach : Reachable w₀ w) : Petition w₀ p Φ w := by
  induction hreach with
  | start => exact .pending [] hidle .start hheeds
  | @step w w' q x _ hstep ih =>
      cases ih with
      | pending ss hidle hsaw hheeds =>
          by_cases hq : p = q
          · subst q
            exact petition_advance hidle hsaw hheeds hstep
          · refine .pending ss (hidle.others hstep hq) (hsaw.step hstep) ?_
            rwa [((change_of_advance hstep).others hq).1]
      | granted ss hΦ hsaw => exact .granted ss hΦ (hsaw.step hstep)

/-- Whoever acts has found his permission, in his own queries and in time. -/
theorem permitted_of_acts (hidle : Idle w₀ p)
    (hheeds : (w₀.procs p).prog.Heeds Φ (fun ss _ => Φ ss) [])
    (hreach : Reachable w₀ w) (hacts : w.Acts p) :
    ∃ ss, Φ ss ∧ Saw w₀ p ss w := by
  cases petition_of_reachable hidle hheeds hreach with
  | granted ss hΦ hsaw => exact ⟨ss, hΦ, hsaw⟩
  | pending ss hidle hsaw hheeds =>
      rcases hacts with ⟨r, hr⟩ | hwrites | hcommits | ⟨a, ha⟩
      · exact absurd hr (hidle.locks r)
      · exact absurd hidle.writes hwrites
      · exact absurd hidle.commits hcommits
      · rw [ha] at hheeds
        exact ⟨ss, hheeds, hsaw⟩

/-- A client whose first statement finds nothing but an error stays idle. -/
theorem refused_of_reachable {k : Store σ → Prog σ ε α} {e : ε}
    (hidle : Idle w₀ p) (hprog : (w₀.procs p).prog = .query k)
    (hk : ∀ w, Reachable w₀ w → k w.store = .raise e)
    (hreach : Reachable w₀ w) :
    Idle w p ∧ ((w.procs p).prog = .query k ∨
      (w.procs p).prog = .raise e ∨ (w.procs p).prog = .halt) := by
  induction hreach with
  | start => exact ⟨hidle, .inl hprog⟩
  | @step w w' q x hprev hstep ih =>
      obtain ⟨hidle, hcases⟩ := ih
      by_cases hq : p = q
      · subst q
        have hgone : (w.failed p = w' ∨ w.rolledBack p .halt none = w') →
            Idle w' p ∧ ((w'.procs p).prog = .query k ∨
              (w'.procs p).prog = .raise e ∨ (w'.procs p).prog = .halt) := by
          rintro (rfl | rfl)
          · refine ⟨hidle.failed, .inr (.inr ?_)⟩
            simp [World.failed, World.rolledBack, setProc, hidle.guard]
          · refine ⟨hidle.rolledBack, .inr (.inr ?_)⟩
            simp [World.rolledBack, setProc]
        unfold advance at hstep
        rcases hcases with hprog | hprog | hprog
        all_goals
          rw [hprog] at hstep
          cases x <;>
            simp only [perform, reduceCtorEq, Option.some.injEq] at hstep
        · subst hstep
          refine ⟨hidle.resume rfl, .inr (.inl ?_)⟩
          simpa [World.resume, setProc, hidle.view] using hk w hprev
        · exact hgone (.inl hstep)
        · exact hgone (.inr hstep)
        · exact hgone (.inl hstep)
        · exact hgone (.inl hstep)
      · rw [((change_of_advance hstep).others hq).1]
        exact ⟨hidle.others hstep hq, hcases⟩

/-- If no failure befalls it, it ends with the error. -/
theorem refused_of_steady {k : Store σ → Prog σ ε α} {e : ε}
    (hidle : Idle w₀ p) (hprog : (w₀.procs p).prog = .query k)
    (hk : ∀ w, Reachable w₀ w → k w.store = .raise e) (h : Steady w₀ p w) :
    Idle w p ∧ ((w.procs p).prog = .query k ∨ (w.procs p).prog = .raise e) := by
  induction h with
  | start => exact ⟨hidle, .inl hprog⟩
  | @step w w' q x hprev hx hstep ih =>
      obtain ⟨hidle, hcases⟩ := ih
      by_cases hq : p = q
      · subst q
        obtain ⟨hregular, hanswer⟩ := hx rfl
        rcases hcases with hprog | hprog
        · unfold advance at hstep
          rw [hprog] at hstep
          cases x <;> simp only [Input.regular, Bool.false_eq_true] at hregular
          all_goals
            simp only [perform, reduceCtorEq, Option.some.injEq] at hstep
          subst hstep
          refine ⟨hidle.resume rfl, .inr ?_⟩
          simpa [World.resume, setProc, hidle.view] using hk w hprev.reachable
        · simp [Proc.answer, hprog, hidle.guard] at hanswer
      · rw [((change_of_advance hstep).others hq).1]
        exact ⟨hidle.others hstep hq, hcases⟩

theorem Reachable.trans {w₁ w₂ : World σ ε α} (h : Reachable w₀ w₁)
    (h' : Reachable w₁ w₂) : Reachable w₀ w₂ := by
  induction h' with
  | start => exact h
  | step q x _ hstep ih => exact .step q x ih hstep

/-- What every commit keeps, holds from then on. -/
theorem persists_of_reachable {P : Store σ → Prop} {w : World σ ε α}
    (hreach : Reachable w₀ w) (h : P w₀.store)
    (hkeeps : ∀ v, Reachable w₀ v → ∀ c ∈ v.log, P c.before → P c.after) :
    P w.store := by
  induction hreach with
  | start => exact h
  | @step v v' q x hprev hstep ih =>
      cases change_of_advance hstep with
      | committing P hprog hwrites hids hseen =>
          exact hkeeps _ (hprev.step q x hstep) (v.commitOf q)
            List.mem_cons_self ih
      | _ => exact ih

/-- At the start every client is idle. -/
theorem idle_start (s₀ : Store σ) (code : Pid → Prog σ ε α) (p : Pid) :
    Idle (start s₀ code) p where
  guard := rfl
  writes := rfl
  locks := fun _ hr => nomatch hr
  commits := rfl

end ReadCommitted
