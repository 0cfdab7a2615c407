import Workstream.ReadCommitted.Invariants

/-!
# Programs that look before they go on

A program is gated if its first statements are plain reads and it goes on
behind the last of them only if the store that it has read satisfies `P`.
Nothing keeps `P` true from then on.  If every step that ends it waits for the
clients that have passed their gate, then `P` holds when they commit.
-/

namespace ReadCommitted

variable {σ : Schema} {ε α β : Type}

/-! ## Gates -/

namespace Prog

/-- The program raises an error, or its client is gone. -/
def ends : Prog σ ε α → Bool
  | .raise _ => true
  | .halt => true
  | _ => false

/-- After `n` plain reads, one more that ends the program on every store
without `P`. -/
def Gated (P : Store σ → Prop) : ℕ → Prog σ ε α → Prop
  | _, .raise _ => True
  | _, .halt => True
  | 0, .query k => ∀ s, ¬ P s → (k s).ends = true
  | n + 1, .query k => ∀ s, (k s).Gated P n
  | _, _ => False

variable {P : Store σ → Prop} {n : ℕ} {prog : Prog σ ε α}

theorem ends_bind (h : prog.ends = true) (f : α → Prog σ ε β) :
    (prog >>= f).ends = true := by
  cases prog with
  | raise e => rfl
  | halt => rfl
  | _ => simp [ends] at h

theorem gated_of_ends (h : prog.ends = true) : prog.Gated P n := by
  cases prog with
  | raise e => cases n <;> trivial
  | halt => cases n <;> trivial
  | _ => simp [ends] at h

theorem Gated.bind (h : prog.Gated P n) (f : α → Prog σ ε β) :
    (prog >>= f).Gated P n := by
  induction n generalizing prog with
  | zero =>
      cases prog with
      | raise e => trivial
      | halt => trivial
      | query k => exact fun s hs => ends_bind (h s hs) f
      | _ => exact h.elim
  | succ n ih =>
      cases prog with
      | raise e => trivial
      | halt => trivial
      | query k => exact fun s => ih (h s)
      | _ => exact h.elim

/-! ### Rules -/

theorem gated_select_bind {q : Store σ → β} {f : β → Prog σ ε α}
    (h : ∀ s, (f (q s)).Gated P n) : (select q >>= f).Gated P (n + 1) :=
  h

/-- The gate itself. -/
theorem gate_select_bind {q : Store σ → β} {f : β → Prog σ ε α}
    (h : ∀ s, ¬ P s → (f (q s)).ends = true) : (select q >>= f).Gated P 0 :=
  h

theorem gated_ensure_bind {c : Bool} {e : ε} {f : Unit → Prog σ ε α}
    (h : (f ()).Gated P n) : (ensure c e >>= f).Gated P n := by
  cases c with
  | true => exact h
  | false => exact gated_of_ends rfl

theorem gated_require_bind {o : Option β} {e : ε} {f : β → Prog σ ε α}
    (h : ∀ b, (f b).Gated P n) : (require o e >>= f).Gated P n := by
  cases o with
  | some b => exact h b
  | none => exact gated_of_ends rfl

theorem ends_ensure_bind {c : Bool} {e : ε} {f : Unit → Prog σ ε α}
    (h : c = true → (f ()).ends = true) : (ensure c e >>= f).ends = true := by
  cases c with
  | true => exact h rfl
  | false => rfl

theorem ends_require_bind {o : Option β} {e : ε} {f : β → Prog σ ε α}
    (h : ∀ b, o = some b → (f b).ends = true) :
    (require o e >>= f).ends = true := by
  cases o with
  | some b => exact h b rfl
  | none => rfl

end Prog

/-- The store that statement number `n` of the client has read. -/
def Session.read (d : Session σ) (n : ℕ) : Option (Store σ) :=
  match d.seen.reverse[n]? with
  | some (.saw s) => some s
  | _ => none

theorem Session.read_of_suffix {d d' : Session σ} (h : d.seen <:+ d'.seen)
    {n : ℕ} {s : Store σ} (hs : d.read n = some s) : d'.read n = some s := by
  obtain ⟨pre, hpre⟩ := h
  unfold Session.read at hs ⊢
  have hn : n < d.seen.reverse.length := by
    by_contra hn
    rw [List.getElem?_eq_none (Nat.le_of_not_lt hn)] at hs
    cases hs
  rw [← hpre, List.reverse_append, List.getElem?_append_left hn]
  exact hs

theorem Session.read_eq_none {d : Session σ} {n : ℕ}
    (hn : d.seen.length ≤ n) : d.read n = none := by
  unfold Session.read
  rw [List.getElem?_eq_none (by simpa using hn)]

/-- The client will not do anything any more. -/
def Proc.over (c : Proc σ ε α) : Bool :=
  c.prog.ends && c.guard.isNone

/-- The client is behind its gate, and still under way. -/
structure Passed (P : Store σ → Prop) (n : ℕ) (c : Proc σ ε α) : Prop where
  read : ∃ s, c.session.read n = some s ∧ P s
  uncommitted : Obs.committed ∉ c.session.seen
  going : c.over = false

/-- How far a gated client has come. -/
inductive Stage (P : Store σ → Prop) (n : ℕ) (c : Proc σ ε α) : Prop where
  | before (m : ℕ) (hprog : c.prog.Gated P m) (hguard : c.guard = none)
      (hwrites : c.session.writes = []) (hseen : c.session.seen.length + m = n)
  | behind (s : Store σ) (hread : c.session.read n = some s) (hs : P s)
  | ended (hover : c.over = true)

/-! ## Steps -/

namespace World

variable {P : Store σ → Prop} {n : ℕ} {w w' : World σ ε α} {p : Pid}

theorem over_halt (d : Session σ) :
    Proc.over ({ prog := .halt, session := d } : Proc σ ε α) = true := rfl

theorem procs_failed (hguard : (w.procs p).guard = none) :
    ((w.failed p).procs p).over = true := by
  simp [failed, rolledBack, setProc, hguard, over_halt]

/-- A client that is over stays so. -/
theorem over_of_advance {x : Input σ} (h : w.advance p x = some w')
    (hover : (w.procs p).over = true) : (w'.procs p).over = true := by
  obtain ⟨hends, hguard⟩ := (Bool.and_eq_true _ _).mp hover
  have hnone := Option.isNone_iff_eq_none.mp hguard
  unfold advance at h
  cases hprog : (w.procs p).prog with
  | raise e =>
      rw [hprog] at h
      cases x <;> simp only [perform, reduceCtorEq, Option.some.injEq] at h
      exact h ▸ procs_failed hnone
  | halt =>
      rw [hprog] at h
      cases x <;> simp only [perform, reduceCtorEq, Option.some.injEq] at h
      exact h ▸ procs_failed hnone
  | _ => simp [hprog, Prog.ends] at hends

theorem read_observe {d : Session σ} (s : Store σ) (hn : d.seen.length = n) :
    (d.observe (.saw s)).read n = some s := by
  simp [Session.read, Session.observe, ← hn]

/-- The step of a client in front of its gate. -/
theorem advance_before {x : Input σ} (h : w.advance p x = some w') {m : ℕ}
    (hprog : (w.procs p).prog.Gated P m) (hguard : (w.procs p).guard = none) :
    (w'.procs p).over = true ∨ ∃ k, (w.procs p).prog = .query k ∧
      w' = w.resume p (k (w.view p))
        ((w.session p).observe (.saw (w.view p))) := by
  have hfailed : (w.failed p = w' ∨ w.rolledBack p .halt none = w') →
      (w'.procs p).over = true := by
    rintro (rfl | rfl)
    · exact procs_failed hguard
    · simp [rolledBack, setProc, over_halt]
  unfold advance at h
  cases hcase : (w.procs p).prog with
  | raise e =>
      rw [hcase] at h
      cases x <;> simp only [perform, reduceCtorEq, Option.some.injEq] at h
      exact Or.inl (hfailed (Or.inl h))
  | halt =>
      rw [hcase] at h
      cases x <;> simp only [perform, reduceCtorEq, Option.some.injEq] at h
      exact Or.inl (hfailed (Or.inl h))
  | query k =>
      rw [hcase] at h
      cases x <;> simp only [perform, reduceCtorEq, Option.some.injEq] at h
      · exact Or.inr ⟨k, rfl, h.symm⟩
      · exact Or.inl (hfailed (Or.inl h))
      · exact Or.inl (hfailed (Or.inr h))
  | _ =>
      rw [hcase] at hprog
      cases m <;> exact hprog.elim

/-- A client passes its gate on a committed store with `P`. -/
theorem stage_advance {x : Input σ} (h : w.advance p x = some w')
    (hstage : Stage P n (w.procs p)) :
    Stage P n (w'.procs p) ∧ (Passed P n (w'.procs p) →
      Passed P n (w.procs p) ∨ w'.store = w.store ∧ P w.store) := by
  have hchange := change_of_advance h
  cases hstage with
  | before m hprog hguard hwrites hseen =>
      rcases advance_before h hprog hguard with hover | ⟨k, hk, rfl⟩
      · refine ⟨.ended hover, fun hpassed => ?_⟩
        rw [hpassed.going] at hover
        cases hover
      · have hview : w.view p = w.store := by
          simp [World.view, Session.view, session, hwrites]
        have hsession : (w.resume p (k (w.view p))
            ((w.session p).observe (.saw (w.view p)))).procs p =
            { prog := k w.store, guard := none
              session := (w.session p).observe (.saw w.store) } := by
          simp [resume, setProc, hguard, hview]
        rw [hsession]
        rw [hk] at hprog
        cases m with
        | zero =>
            have hread : ((w.session p).observe (.saw w.store)).read n =
                some w.store := read_observe _ hseen
            by_cases hP : P w.store
            · exact ⟨.behind _ hread hP, fun _ => Or.inr ⟨rfl, hP⟩⟩
            · have hends := hprog w.store hP
              refine ⟨.ended (by simp [Proc.over, hends]), fun hpassed => ?_⟩
              have hgoing := hpassed.going
              simp [Proc.over, hends] at hgoing
        | succ m =>
            have hlength : ((w.session p).observe
                (.saw w.store)).seen.length + m = n := by
              rw [Session.observe, List.length_cons]
              exact hseen ▸ Nat.succ_add_eq_add_succ _ m
            refine ⟨.before m (hprog w.store) rfl hwrites hlength,
              fun hpassed => ?_⟩
            obtain ⟨s, hs, -⟩ := hpassed.read
            have hnone := Session.read_eq_none (d := (w.session p).observe
              (.saw w.store)) (n := n) (by omega)
            rw [hnone] at hs
            cases hs
  | behind s hread hs =>
      have hsuffix := hchange.seen.1
      refine ⟨.behind s (Session.read_of_suffix hsuffix hread) hs,
        fun hpassed => ?_⟩
      refine Or.inl ⟨⟨s, hread, hs⟩, fun hc => ?_, ?_⟩
      · exact hpassed.uncommitted (hsuffix.subset hc)
      · by_contra hgoing
        have hover := over_of_advance h (Bool.of_not_eq_false hgoing)
        rw [hpassed.going] at hover
        cases hover
  | ended hover =>
      have hover' := over_of_advance h hover
      refine ⟨.ended hover', fun hpassed => ?_⟩
      rw [hpassed.going] at hover'
      cases hover'

end World

/-! ## Runs -/

/-- The worlds that some schedule leads to by steps that all meet `A`. -/
inductive ReachableBy (A : World σ ε α → World σ ε α → Prop)
    (w₀ : World σ ε α) : World σ ε α → Prop where
  | start : ReachableBy A w₀ w₀
  | step {w w' : World σ ε α} (p : Pid) (x : Input σ) :
      ReachableBy A w₀ w → w.advance p x = some w' → A w w' →
        ReachableBy A w₀ w'

theorem ReachableBy.reachable {A : World σ ε α → World σ ε α → Prop}
    {w₀ w : World σ ε α} (h : ReachableBy A w₀ w) : Reachable w₀ w := by
  induction h with
  | start => exact .start
  | step p x _ hstep _ ih => exact ih.step p x hstep

section Runs

open World

variable {A : World σ ε α → World σ ε α → Prop} {s₀ : Store σ}
  {code : Pid → Prog σ ε α} {w w' : World σ ε α} {P : Store σ → Prop} {n : ℕ}
  {q : Pid}

theorem stage_of_reachable (hcode : (code q).Gated P n)
    (h : Reachable (start s₀ code) w) : Stage P n (w.procs q) := by
  induction h with
  | start => exact .before n hcode rfl rfl (Nat.zero_add n)
  | @step w w' p x _ hstep ih =>
      by_cases hq : q = p
      · subst q
        exact (stage_advance hstep ih).1
      · rw [((change_of_advance hstep).others hq).1]
        exact ih

/-- The clients in `G` are gated, and the steps of the runs that end `P` wait
until nobody of them is between the gate and the commit. -/
structure Awaited (A : World σ ε α → World σ ε α → Prop) (s₀ : Store σ)
    (code : Pid → Prog σ ε α) (G : Pid → Prop) (P : Store σ → Prop)
    (n : ℕ) : Prop where
  gated : ∀ q, G q → (code q).Gated P n
  waits : ∀ {w w' : World σ ε α} (p : Pid) (x : Input σ),
    Reachable (start s₀ code) w → w.advance p x = some w' → A w w' →
    P w.store → ¬ P w'.store → ∀ q, G q → ¬ Passed P n (w.procs q)

variable {G : Pid → Prop}

/-- Behind the gate `P` holds until the commit. -/
theorem holds_of_passed (hawaited : Awaited A s₀ code G P n)
    (h : ReachableBy A (start s₀ code) w) (hq : G q)
    (hpassed : Passed P n (w.procs q)) : P w.store := by
  induction h with
  | start =>
      obtain ⟨s, hs, -⟩ := hpassed.read
      cases hs
  | @step w w' p x hprev hstep hA ih =>
      have hreach := hprev.reachable
      have hchange := change_of_advance hstep
      by_cases hqp : q = p
      · subst q
        have hstage := stage_of_reachable (hawaited.gated p hq) hreach
        rcases (stage_advance hstep hstage).2 hpassed with hbefore | ⟨hs, hP⟩
        · rcases hchange.log with ⟨_, hstore⟩ | ⟨_, hlog, _⟩
          · exact hstore ▸ ih hbefore
          · refine absurd (hchange.seen.2 ?_) hpassed.uncommitted
            simp [hlog]
        · exact hs ▸ hP
      · rw [(hchange.others hqp).1] at hpassed
        by_contra hend
        exact hawaited.waits p x hreach hstep hA (ih hpassed) hend q hq hpassed

/-- The first commit of a gated client finds `P` true. -/
theorem holds_of_commit (hawaited : Awaited A s₀ code G P n)
    (h : ReachableBy A (start s₀ code) w) :
    ∀ c ∈ w.log, G c.pid → Obs.committed ∉ c.session.seen → P c.before := by
  induction h with
  | start => simp [start]
  | @step w w' p x hprev hstep _ ih =>
      rcases (change_of_advance hstep).log with ⟨hlog, _⟩ | ⟨⟨k, hk⟩, hlog, _⟩
      · exact hlog ▸ ih
      · rw [hlog]
        intro c hc hG hfirst
        rcases List.mem_cons.mp hc with rfl | hc
        · have hgoing : (w.procs p).over = false := by
            simp [Proc.over, hk, Prog.ends]
          refine holds_of_passed hawaited hprev hG ⟨?_, hfirst, hgoing⟩
          cases stage_of_reachable (hawaited.gated p hG) hprev.reachable with
          | before m hprog =>
              rw [hk] at hprog
              cases m <;> exact hprog.elim
          | behind s hread hs => exact ⟨s, hread, hs⟩
          | ended hover =>
              rw [hgoing] at hover
              cases hover
        · exact ih c hc hG hfirst

end Runs

/-! ## Programs of one read -/

/-- The program does not look at the database any more. -/
def Prog.final : Prog σ ε α → Bool
  | .ret _ => true
  | .raise _ => true
  | .halt => true
  | _ => false

section OneRead

open World

variable {s₀ : Store σ} {code : Pid → Prog σ ε α} {w w' : World σ ε α}
  {p q : Pid}

/-- A client that has answered stops. -/
theorem World.advance_final {x : Input σ} (h : w.advance p x = some w')
    (hfinal : (w.procs p).prog.final = true)
    (hguard : (w.procs p).guard = none) :
    (w'.procs p).prog = .halt ∧ (w'.procs p).guard = none := by
  have hstop : (w.rolledBack p .halt none = w' ∨ w.failed p = w') →
      (w'.procs p).prog = .halt ∧ (w'.procs p).guard = none := by
    rintro (rfl | rfl)
    · simp [rolledBack, setProc]
    · simp [failed, rolledBack, setProc, hguard]
  unfold advance at h
  cases hprog : (w.procs p).prog with
  | ret a =>
      rw [hprog] at h
      cases x <;> simp only [perform, reduceCtorEq, Option.some.injEq] at h
      exact hstop (Or.inl h)
  | raise e =>
      rw [hprog] at h
      cases x <;> simp only [perform, reduceCtorEq, Option.some.injEq] at h
      exact hstop (Or.inr h)
  | halt =>
      rw [hprog] at h
      cases x <;> simp only [perform, reduceCtorEq, Option.some.injEq] at h
      exact hstop (Or.inr h)
  | _ => simp [hprog, Prog.final] at hfinal

theorem final_of_reachable (hfinal : (code q).final = true)
    (h : Reachable (start s₀ code) w) :
    ((w.procs q).prog = code q ∨ (w.procs q).prog = .halt) ∧
      (w.procs q).guard = none := by
  induction h with
  | start => exact ⟨Or.inl rfl, rfl⟩
  | @step w w' p x _ hstep ih =>
      by_cases hq : q = p
      · subst q
        obtain ⟨hprog, hguard⟩ := ih
        have hlast : (w.procs p).prog.final = true := by
          rcases hprog with hprog | hprog
          · rw [hprog]
            exact hfinal
          · rw [hprog]
            rfl
        obtain ⟨hprog', hguard'⟩ := advance_final hstep hlast hguard
        exact ⟨Or.inr hprog', hguard'⟩
      · rw [((change_of_advance hstep).others hq).1]
        exact ih

/-- A program that answers after one read, wherever it is. -/
inductive OneRead (k : Store σ → Prog σ ε α) (prog : Prog σ ε α) : Prop where
  | before (hprog : prog = .query k)
  | answered (s : Store σ) (hprog : prog = k s)
  | stopped (hprog : prog = .halt)

theorem oneRead_of_reachable {k : Store σ → Prog σ ε α}
    (hcode : code q = .query k) (hfinal : ∀ s, (k s).final = true)
    (h : Reachable (start s₀ code) w) :
    OneRead k (w.procs q).prog ∧ (w.procs q).guard = none := by
  induction h with
  | start => exact ⟨.before hcode, rfl⟩
  | @step w w' p x _ hstep ih =>
      by_cases hq : q = p
      · subst q
        obtain ⟨hread, hguard⟩ := ih
        have hstop : (w.procs p).prog.final = true →
            OneRead k (w'.procs p).prog ∧ (w'.procs p).guard = none := by
          intro hlast
          obtain ⟨hprog', hguard'⟩ := advance_final hstep hlast hguard
          exact ⟨.stopped hprog', hguard'⟩
        cases hread with
        | before hprog =>
            unfold advance at hstep
            rw [hprog] at hstep
            cases x <;>
              simp only [perform, reduceCtorEq, Option.some.injEq] at hstep
            · refine ⟨.answered (w.view p) ?_, ?_⟩
              · simp [← hstep, resume, setProc]
              · simp [← hstep, resume, setProc, hguard]
            · refine ⟨.stopped ?_, ?_⟩
              · simp [← hstep, failed, rolledBack, setProc, hguard]
              · simp [← hstep, failed, rolledBack, setProc]
            · refine ⟨.stopped ?_, ?_⟩
              · simp [← hstep, rolledBack, setProc]
              · simp [← hstep, rolledBack, setProc]
        | answered s hprog =>
            refine hstop ?_
            rw [hprog]
            exact hfinal s
        | stopped hprog =>
            refine hstop ?_
            rw [hprog]
            rfl
      · rw [((change_of_advance hstep).others hq).1]
        exact ih

end OneRead

/-! ## Runs on given inputs -/

/-- Run a schedule whose steps all pass the test `a`. -/
def World.runBy (a : World σ ε α → World σ ε α → Bool) (w : World σ ε α) :
    List (Pid × Input σ) → Option (World σ ε α)
  | [] => some w
  | (p, x) :: rest =>
      (w.advance p x).bind fun w' =>
        if a w w' then w'.runBy a rest else none

theorem ReachableBy.runBy {A : World σ ε α → World σ ε α → Prop}
    {a : World σ ε α → World σ ε α → Bool}
    (ha : ∀ w w', a w w' = true → A w w') {w₀ w w' : World σ ε α}
    (h : ReachableBy A w₀ w) {xs : List (Pid × Input σ)}
    (hrun : w.runBy a xs = some w') : ReachableBy A w₀ w' := by
  induction xs generalizing w with
  | nil =>
      cases hrun
      exact h
  | cons x xs ih =>
      obtain ⟨w₁, hstep, hrest⟩ := Option.bind_eq_some_iff.mp hrun
      split at hrest
      · next htest => exact ih (h.step x.1 x.2 hstep (ha w w₁ htest)) hrest
      · cases hrest

end ReadCommitted
