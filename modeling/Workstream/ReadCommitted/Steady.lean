import Workstream.ReadCommitted.Undisturbed

/-!
# Clients that nothing befalls

A client stops without an answer when a statement of its fails, when it loses
its connection, or when its program gives up.  In a steady run nothing of the
kind happens to it from outside, and a program that speaks does not give up.
-/

namespace ReadCommitted

variable {σ : Schema} {ε α β : Type}

/-- The runs in which no failure befalls `p` before it has answered. -/
inductive Steady (w₀ : World σ ε α) (p : Pid) : World σ ε α → Prop where
  | start : Steady w₀ p w₀
  | step {w w' : World σ ε α} (q : Pid) (x : Input σ) (h : Steady w₀ p w)
      (hx : q = p → x.regular = true ∧ (w.procs p).answer = none)
      (hstep : w.advance q x = some w') : Steady w₀ p w'

theorem Steady.reachable {w₀ w : World σ ε α} {p : Pid}
    (h : Steady w₀ p w) : Reachable w₀ w := by
  induction h with
  | start => exact .start
  | step q x _ _ hstep ih => exact .step q x ih hstep

/-- The statement changes neither keys nor unique entries, so that it fails on
no row. -/
def Scan.Harmless {t : σ.Table} (q : Scan σ t) : Prop :=
  ∀ r, q.pred r = true →
    match q.effect r with
    | .lock => True
    | .delete => True
    | .reject => False
    | .write r' => σ.key r' = σ.key r ∧ σ.unique r' = σ.unique r

theorem Scan.Harmless.fits {t : σ.Table} {q : Scan σ t} (h : q.Harmless)
    {s : Store σ} (hs : s.Unique) {k : σ.Key} {r r' : σ.Row t}
    (hr : (s t).lookup k = some r) (hpred : q.pred r = true)
    (heffect : q.effect r = .write r') :
    σ.key r' = k ∧ s.clash t r' = none := by
  have hrow := h r hpred
  rw [heffect] at hrow
  refine ⟨hrow.1.trans (Relation.key_of_lookup hr), ?_⟩
  refine Store.clash_eq_none_iff.mpr fun e he x hx hex => ?_
  rw [hrow.2] at he
  rw [hrow.1]
  exact hs t x hx r (Relation.mem_of_lookup hr) e hex he

theorem Scan.Harmless.visit_ne_failed {t : σ.Table} {q : Scan σ t}
    (h : q.Harmless) {s : Store σ} (hs : s.Unique) (k : σ.Key) :
    q.visit s k ≠ .failed := by
  intro hfailed
  unfold Scan.visit at hfailed
  split at hfailed
  · cases hfailed
  · next r hr =>
      split at hfailed
      · next hpred =>
          split at hfailed
          · cases hfailed
          · cases hfailed
          · next heffect =>
              have hrow := h r hpred
              rw [heffect] at hrow
              exact hrow
          · next r' heffect =>
              rw [if_pos (h.fits hs hr hpred heffect)] at hfailed
              cases hfailed
      · cases hfailed

theorem Scan.Harmless.visit_eq {t : σ.Table} {q : Scan σ t}
    (h : q.Harmless) {f : σ.Row t → σ.Row t}
    (heffect : ∀ r, q.effect r = .write (f r)) {s : Store σ} (hs : s.Unique)
    (k : σ.Key) : q.visit s k = .skip ∧ (∀ r, (s t).lookup k = some r →
        q.pred r = false) ∨
      ∃ r, (s t).lookup k = some r ∧ σ.key (f r) = k ∧
        s.clash t (f r) = none ∧ ∃ refs,
          q.visit s k = .keep (f r) [.put t (f r)] refs := by
  cases hr : (s t).lookup k with
  | none => exact Or.inl ⟨by simp [Scan.visit, hr], fun r hr => by cases hr⟩
  | some r =>
      cases hpred : q.pred r with
      | false =>
          refine Or.inl ⟨by simp [Scan.visit, hr, hpred], fun x hx => ?_⟩
          rw [← Option.some.inj hx]
          exact hpred
      | true =>
          have hfits := h.fits hs hr hpred (heffect r)
          refine Or.inr ⟨r, rfl, hfits.1, hfits.2,
            (σ.unique (f r)).map fun e => (t, e), ?_⟩
          simp only [Scan.visit, hr, hpred, if_true, heffect, if_pos hfits]

/-- A whole `UPDATE` that fails on no row, where nobody else holds a lock. -/
theorem yieldsVisit_write {t : σ.Table} {q : Scan σ t} (hlimit : q.limit = none)
    (h : q.Harmless) {f : σ.Row t → σ.Row t}
    (heffect : ∀ r, q.effect r = .write (f r)) {G : Handler σ} {s : Store σ}
    {used : List ℕ} {post : List (σ.Row t) → List (Write σ) → Prop}
    {todo : List σ.Key} {acc : List (σ.Row t)} {ws : List (Write σ)}
    (hs : (Store.view ws s).Unique) (hnodup : todo.Nodup)
    (hpost : ∀ acc ws',
      (∀ k, k ∉ todo → (Store.view ws' s t).lookup k =
        (Store.view ws s t).lookup k) →
      (∀ k ∈ todo, ∀ r, (Store.view ws s t).lookup k = some r →
        q.pred r = true → (Store.view ws' s t).lookup k = some (f r)) →
      post acc ws') :
    yieldsVisit q G s used post todo acc ws := by
  induction todo generalizing acc ws with
  | nil =>
      exact hpost acc ws (fun _ _ => rfl) fun k hk => absurd hk List.not_mem_nil
  | cons key todo ih =>
      obtain ⟨hnot, hnodup⟩ := List.nodup_cons.mp hnodup
      have hfull : q.full acc = false := by simp [Scan.full, hlimit]
      simp only [yieldsVisit, hfull, Bool.false_eq_true, if_false]
      rcases h.visit_eq heffect hs key with ⟨hvisit, hskip⟩ |
        ⟨r, hr, hkey, hclash, refs, hvisit⟩
      · rw [hvisit]
        refine ih hs hnodup fun acc ws' hframe hrows =>
          hpost acc ws' (fun k hk => ?_) fun k hk r hr hpred => ?_
        · exact hframe k fun hmem => hk (List.mem_cons_of_mem _ hmem)
        · rcases List.mem_cons.mp hk with rfl | hk
          · rw [hskip r hr] at hpred
            cases hpred
          · exact hrows k hk r hr hpred
      · rw [hvisit]
        have hview : Store.view (ws ++ [.put t (f r)]) s =
            (Store.view ws s).write (.put t (f r)) := by
          rw [Store.view_append]
          rfl
        have hlookup : ∀ k, (Store.view (ws ++ [.put t (f r)]) s t).lookup k =
            if k = key then some (f r) else (Store.view ws s t).lookup k := by
          intro k
          rw [hview, Store.write_put_self, Relation.lookup_put, hkey]
        refine ih (hview ▸ hs.put hclash) hnodup fun acc ws' hframe hrows =>
          hpost acc ws' (fun k hk => ?_) fun k hk x hx hpred => ?_
        · obtain ⟨hne, hk⟩ := not_or.mp (mt List.mem_cons.mpr hk)
          rw [hframe k hk, hlookup, if_neg hne]
        · rcases List.mem_cons.mp hk with rfl | hk
          · rw [hframe k hnot, hlookup, if_pos rfl]
            rw [hr] at hx
            rw [Option.some.inj hx]
          · have hne : k ≠ key := fun heq => hnot (heq ▸ hk)
            refine hrows k hk x ?_ hpred
            rw [hlookup, if_neg hne, hx]

/-- The program does not give up, and its locking statements fail on no
row. -/
def Prog.Speaks : Prog σ ε α → Prop
  | .ret _ => True
  | .raise _ => True
  | .halt => False
  | .query k => ∀ s, (k s).Speaks
  | .scan _ q k => q.Harmless ∧ ∀ rows, (k rows).Speaks
  | .visit _ q _ _ k => q.Harmless ∧ ∀ rows, (k rows).Speaks
  | .insert _ _ k => ∀ o, (k o).Speaks
  | .fresh k => ∀ n, (k n).Speaks
  | .call _ k => ∀ n, (k n).Speaks
  | .commit k => k.Speaks
  | .rollback k => k.Speaks
  | .guarded _ _ => False
  | .unguard _ => False

namespace World

variable {w w' : World σ ε α} {p : Pid}

/-- The client has no handler, and its program speaks. -/
structure Speaking (w : World σ ε α) (p : Pid) : Prop where
  guard : (w.procs p).guard = none
  prog : (w.procs p).prog.Speaks

theorem Speaking.resume (hguard : (w.procs p).guard = none)
    {prog : Prog σ ε α} (hprog : prog.Speaks) (d : Session σ) :
    Speaking (w.resume p prog d) p where
  guard := by simpa [World.resume, setProc] using hguard
  prog := by simpa [World.resume, setProc] using hprog

/-- One visit of a statement that fails on no row. -/
theorem Speaking.visit {t : σ.Table} {q : Scan σ t} {key : σ.Key}
    {todo : List σ.Key} {acc : List (σ.Row t)}
    {k : List (σ.Row t) → Prog σ ε α} (hguard : (w.procs p).guard = none)
    (hview : (w.view p).Unique) (hharmless : q.Harmless)
    (hspeaks : ∀ rows, (k rows).Speaks)
    (hstep : w.visitOne p q key todo acc k = some w') : Speaking w' p := by
  have hnext : ∀ acc, (Prog.visit t q todo acc k).Speaks :=
    fun _ => ⟨hharmless, hspeaks⟩
  unfold visitOne at hstep
  split at hstep
  · cases hvisit : q.visit (w.view p) key with
    | skip =>
        rw [hvisit] at hstep
        cases hstep
        exact .resume hguard (hnext acc) _
    | failed => exact absurd hvisit (hharmless.visit_ne_failed hview key)
    | keep r ws refs =>
        rw [hvisit] at hstep
        simp only at hstep
        split at hstep
        · cases hstep
          have hkept := Speaking.resume hguard (hnext (acc ++ [r]))
            (((w.session p).add ws).observe (.kept t r))
          exact ⟨hkept.guard, hkept.prog⟩
        · cases hstep
  · split at hstep
    · cases hstep
      exact .resume hguard (hnext acc) _
    · cases hstep

/-- A step without a failure. -/
theorem Speaking.advance (h : Speaking w p) (hview : (w.view p).Unique)
    {x : Input σ} (hx : x.regular = true) (hanswer : (w.procs p).answer = none)
    (hstep : w.advance p x = some w') : Speaking w' p := by
  obtain ⟨hguard, hprog⟩ := h
  unfold World.advance at hstep
  unfold Proc.answer at hanswer
  rw [hguard] at hanswer
  cases hcase : (w.procs p).prog with
  | ret a => simp [hcase] at hanswer
  | raise e => simp [hcase] at hanswer
  | halt => simp [hcase, Prog.Speaks] at hprog
  | query k =>
      rw [hcase] at hstep hprog
      cases x <;> simp only [Input.regular, Bool.false_eq_true] at hx
      all_goals simp only [perform, reduceCtorEq, Option.some.injEq] at hstep
      exact hstep ▸ .resume hguard (hprog _) _
  | scan t q k =>
      rw [hcase] at hstep hprog
      cases x <;> simp only [Input.regular, Bool.false_eq_true] at hx
      all_goals simp only [perform, reduceCtorEq] at hstep
      have hnext : ∀ keys, (Prog.visit t q keys [] k).Speaks := fun _ => hprog
      split at hstep
      · cases hstep
        exact .resume hguard (hnext _) _
      · cases hstep
  | visit t q todo acc k =>
      rw [hcase] at hstep hprog
      cases x <;> simp only [Input.regular, Bool.false_eq_true] at hx
      all_goals simp only [perform, reduceCtorEq] at hstep
      cases todo with
      | nil =>
          cases hstep
          exact .resume hguard (hprog.2 acc) _
      | cons key todo =>
          simp only at hstep
          split at hstep
          · cases hstep
            exact .resume hguard (hprog.2 acc) _
          · exact .visit hguard hview hprog.1 hprog.2 hstep
  | insert t r k =>
      rw [hcase] at hstep hprog
      cases x <;> simp only [Input.regular, Bool.false_eq_true] at hx
      all_goals simp only [perform, reduceCtorEq] at hstep
      split at hstep
      · split at hstep
        · cases hstep
          exact .resume hguard (hprog _) _
        · cases hstep
          have hnext := Speaking.resume hguard (hprog none)
            ((w.session p).add [.put t r])
          exact ⟨hnext.guard, hnext.prog⟩
      · cases hstep
  | fresh k =>
      rw [hcase] at hstep hprog
      cases x <;> simp only [Input.regular, Bool.false_eq_true] at hx
      all_goals simp only [perform, reduceCtorEq] at hstep
      rename_i n
      split at hstep
      · cases hstep
      · cases hstep
        have hnext := Speaking.resume hguard (hprog n) ((w.session p).draw n)
        exact ⟨hnext.guard, hnext.prog⟩
  | call c k =>
      rw [hcase] at hstep hprog
      cases x <;> simp only [Input.regular, Bool.false_eq_true] at hx
      all_goals simp only [perform, reduceCtorEq, Option.some.injEq] at hstep
      exact hstep ▸ .resume hguard (hprog _) _
  | commit k =>
      rw [hcase] at hstep hprog
      cases x <;> simp only [Input.regular, Bool.false_eq_true] at hx
      all_goals simp only [perform, reduceCtorEq, Option.some.injEq] at hstep
      subst hstep
      have hk : k.Speaks := hprog
      have hnext := Speaking.resume hguard hk
        ((w.session p).discard.observe .committed)
      exact ⟨hnext.guard, hnext.prog⟩
  | rollback k =>
      rw [hcase] at hstep hprog
      cases x <;> simp only [Input.regular, Bool.false_eq_true] at hx
      all_goals simp only [perform, reduceCtorEq, Option.some.injEq] at hstep
      subst hstep
      have hk : k.Speaks := hprog
      exact ⟨by simpa [World.rolledBack, setProc] using hguard,
        by simpa [World.rolledBack, setProc] using hk⟩
  | guarded g k => simp [hcase, Prog.Speaks] at hprog
  | unguard k => simp [hcase, Prog.Speaks] at hprog

/-- What somebody else does. -/
theorem Speaking.others (h : Speaking w p) {q : Pid} {x : Input σ}
    (hstep : w.advance q x = some w') (hq : p ≠ q) : Speaking w' p := by
  have hproc := ((change_of_advance hstep).others hq).1
  exact ⟨hproc ▸ h.guard, hproc ▸ h.prog⟩

end World

end ReadCommitted
