import Workstream.ReadCommitted.Undisturbed

/-!
# Two runs of one request

The same request runs alone on two stores, with the same inputs.  `Prog.Alike`
says, statement by statement, that it cannot tell related stores from one
another and that its writes leave them related; then the two runs go through
the same statements, to the same answer.
-/

namespace ReadCommitted

variable {σ : Schema} {ε α β : Type}

/-! ## Statements -/

/-- A locking statement that treats related stores alike. -/
structure Scan.Alike {t : σ.Table} (A : Store σ → Store σ → Prop)
    (q : Scan σ t) : Prop where
  visits : ∀ v v', A v v' → ∀ keys, q.Visits v' keys ↔ q.Visits v keys
  visit : ∀ v v' k, A v v' → q.visit v' k = q.visit v k
  keep : ∀ v v' k r ws refs, A v v' → q.visit v k = .keep r ws refs →
    A (Store.view ws v) (Store.view ws v')

/-- A row that the statement may return. -/
def Scan.Returns {t : σ.Table} (A : Store σ → Store σ → Prop)
    (q : Scan σ t) (r : σ.Row t) : Prop :=
  ∃ v v' k ws refs, A v v' ∧ q.visit v k = .keep r ws refs

/-- `prog` treats related stores alike, if it draws identifiers from `N`. -/
def Prog.Alike (A : Store σ → Store σ → Prop) (N : ℕ → Prop) :
    Prog σ ε α → Prop
  | .ret _ => True
  | .raise _ => True
  | .halt => True
  | .query k => ∀ v v', A v v' → k v' = k v ∧ (k v).Alike A N
  | .scan _ q k => q.Alike A ∧
      ∀ rows, (∀ r ∈ rows, q.Returns A r) → (k rows).Alike A N
  | .visit _ q _ acc k => q.Alike A ∧ (∀ r ∈ acc, q.Returns A r) ∧
      ∀ rows, (∀ r ∈ rows, q.Returns A r) → (k rows).Alike A N
  | .insert t r k => ∀ v v', A v v' →
      v'.conflict t r = v.conflict t r ∧
        (v.conflict t r = none →
          A (v.write (.put t r)) (v'.write (.put t r))) ∧
        (k (v.conflict t r)).Alike A N
  | .fresh k => ∀ n, N n → (k n).Alike A N
  | .call _ k => ∀ n, (k n).Alike A N
  | .commit k => k.Alike A N
  | .rollback k => k.Alike A N
  | .guarded h k => h.Alike A N ∧ k.Alike A N
  | .unguard k => k.Alike A N

/-! ## Worlds -/

namespace World

variable {A : Store σ → Store σ → Prop} {N : ℕ → Prop}
  {w w' v : World σ ε α} {prog : Prog σ ε α} {s s' : Store σ}
  {used : List ℕ}

/-- Two worlds in which client `0` is at the same statement, with the same
writes, on related stores. -/
structure Twins (A : Store σ → Store σ → Prop) (N : ℕ → Prop)
    (w w' : World σ ε α) : Prop where
  prog : (w'.procs 0).prog = (w.procs 0).prog
  guard : (w'.procs 0).guard = (w.procs 0).guard
  writes : (w'.session 0).writes = (w.session 0).writes
  used : w'.used = w.used
  unlocked : w.Unlocked
  unlocked' : w'.Unlocked
  store : A w.store w'.store
  view : A (w.view 0) (w'.view 0)
  fresh : ∀ n, n ∉ w.used → N n
  alike : (w.procs 0).prog.Alike A N
  handler : ∀ h, (w.procs 0).guard = some h → h.Alike A N

theorem twins_alone (hA : A s s') (hN : ∀ n, n ∉ used → N n)
    (h : prog.Alike A N) : Twins A N (alone used s prog) (alone used s' prog) where
  prog := rfl
  guard := rfl
  writes := rfl
  used := rfl
  unlocked := fun _ => Or.inl rfl
  unlocked' := fun _ => Or.inl rfl
  store := hA
  view := hA
  fresh := hN
  alike := h
  handler := fun _ hnone => by cases hnone

namespace Twins

/-- Both clients go on with the same program. -/
theorem setProc (h : Twins A N w w') {P Q : Proc σ ε α}
    (hprog : Q.prog = P.prog) (hguard : Q.guard = P.guard)
    (hwrites : Q.session.writes = P.session.writes)
    (hview : A (P.session.view w.store) (Q.session.view w'.store))
    (halike : P.prog.Alike A N)
    (hhandler : ∀ g, P.guard = some g → g.Alike A N) :
    Twins A N (w.setProc 0 P) (w'.setProc 0 Q) where
  prog := by simpa [World.setProc] using hprog
  guard := by simpa [World.setProc] using hguard
  writes := by simpa [session_setProc_self] using hwrites
  used := h.used
  unlocked := h.unlocked
  unlocked' := h.unlocked'
  store := h.store
  view := by
    rw [World.view, World.view, session_setProc_self, session_setProc_self]
    exact hview
  fresh := h.fresh
  alike := by simpa [World.setProc] using halike
  handler := by simpa [World.setProc] using hhandler

theorem resume (h : Twins A N w w') {k : Prog σ ε α} {d e : Session σ}
    (hwrites : e.writes = d.writes)
    (hview : A (d.view w.store) (e.view w'.store)) (hk : k.Alike A N) :
    Twins A N (w.resume 0 k d) (w'.resume 0 k e) :=
  h.setProc rfl h.guard hwrites hview hk h.handler

theorem lockAndResume (h : Twins A N w w') (refs : List σ.Ref)
    {k : Prog σ ε α} {d e : Session σ} (hwrites : e.writes = d.writes)
    (hview : A (d.view w.store) (e.view w'.store)) (hk : k.Alike A N) :
    Twins A N (w.lockAndResume 0 refs k d) (w'.lockAndResume 0 refs k e) :=
  { h.resume hwrites hview hk with
    unlocked := h.unlocked.acquire refs
    unlocked' := h.unlocked'.acquire refs }

theorem rolledBack (h : Twins A N w w') {k : Prog σ ε α}
    {guard : Option (Prog σ ε α)} (hk : k.Alike A N)
    (hguard : ∀ g, guard = some g → g.Alike A N) :
    Twins A N (w.rolledBack 0 k guard) (w'.rolledBack 0 k guard) := by
  have hset := h.setProc
    (P := { prog := k, guard, session := (w.session 0).discard })
    (Q := { prog := k, guard, session := (w'.session 0).discard })
    rfl rfl rfl h.store hk hguard
  exact { hset with
    unlocked := h.unlocked.release
    unlocked' := h.unlocked'.release }

theorem gone (h : Twins A N w w') :
    Twins A N (w.rolledBack 0 .halt none) (w'.rolledBack 0 .halt none) :=
  h.rolledBack trivial fun _ hnone => by cases hnone

theorem failed (h : Twins A N w w') :
    Twins A N (w.failed 0) (w'.failed 0) := by
  unfold World.failed
  rw [h.guard]
  refine h.rolledBack ?_ fun _ hnone => by cases hnone
  rcases hguard : (w.procs 0).guard with _ | g
  · trivial
  · exact h.handler g hguard

theorem committed (h : Twins A N w w') {k : Prog σ ε α}
    (hk : k.Alike A N) :
    Twins A N (w.committed 0 k) (w'.committed 0 k) where
  prog := by simp [World.committed, World.resume, World.setProc]
  guard := by simpa [World.committed, World.resume, World.setProc] using h.guard
  writes := by
    simp [World.committed, World.resume, World.setProc, World.session,
      Session.discard, Session.observe]
  used := h.used
  unlocked := h.unlocked.release
  unlocked' := h.unlocked'.release
  store := h.view
  view := by
    simpa [World.committed, World.resume, World.setProc, World.view,
      World.session, Session.view, Session.discard, Session.observe]
      using h.view
  fresh := h.fresh
  alike := by simpa [World.committed, World.resume, World.setProc] using hk
  handler := by
    simpa [World.committed, World.resume, World.setProc] using h.handler

/-- The visit of one candidate. -/
theorem visitOne (h : Twins A N w w') {t : σ.Table} {q : Scan σ t}
    {key : σ.Key} {todo : List σ.Key} {acc : List (σ.Row t)}
    {k : List (σ.Row t) → Prog σ ε α} (hq : q.Alike A)
    (hacc : ∀ r ∈ acc, q.Returns A r)
    (hk : ∀ rows, (∀ r ∈ rows, q.Returns A r) → (k rows).Alike A N)
    (hstep : w.visitOne 0 q key todo acc k = some v) :
    ∃ v', w'.visitOne 0 q key todo acc k = some v' ∧ Twins A N v v' := by
  have hfree := h.unlocked.free [(t, key)]
  have hfree' := h.unlocked'.free [(t, key)]
  simp only [World.visitOne, if_pos hfree] at hstep
  simp only [World.visitOne, if_pos hfree', hq.visit _ _ key h.view]
  cases hvisit : q.visit (w.view 0) key with
  | skip =>
      rw [hvisit] at hstep
      obtain rfl := Option.some.inj hstep
      exact ⟨_, rfl, h.resume h.writes h.view ⟨hq, hacc, hk⟩⟩
  | failed =>
      rw [hvisit] at hstep
      obtain rfl := Option.some.inj hstep
      exact ⟨_, rfl, h.failed⟩
  | keep r ws refs =>
      simp only [hvisit, if_pos (h.unlocked.free refs)] at hstep
      simp only [if_pos (h.unlocked'.free refs)]
      obtain rfl := Option.some.inj hstep
      refine ⟨_, rfl, h.lockAndResume _ ?_ ?_ ⟨hq, fun x hx => ?_, hk⟩⟩
      · simp [Session.add, Session.observe, h.writes]
      · have hkeep := hq.keep _ _ _ _ _ _ h.view hvisit
        simpa [World.view, Session.view, Session.add, Session.observe,
          Store.view_append] using hkeep
      · rcases List.mem_append.mp hx with hx | hx
        · exact hacc x hx
        · obtain rfl := List.mem_singleton.mp hx
          exact ⟨_, _, key, ws, refs, h.view, hvisit⟩

/-- What one client can do the other one can do, with the same input. -/
theorem step (h : Twins A N w w') {x : Input σ}
    (hstep : w.advance 0 x = some v) :
    ∃ v', w'.advance 0 x = some v' ∧ Twins A N v v' := by
  have halike := h.alike
  have hsame := h.prog
  generalize hprog : (w.procs 0).prog = prog at halike hsame
  simp only [advance, hprog] at hstep
  simp only [advance, hsame]
  have hlost : (∃ v', some (w'.failed 0) = some v' ∧
        Twins A N (w.failed 0) v') ∧
      ∃ v', some (w'.rolledBack 0 .halt none) = some v' ∧
        Twins A N (w.rolledBack 0 .halt none) v' :=
    ⟨⟨_, rfl, h.failed⟩, ⟨_, rfl, h.gone⟩⟩
  cases prog with
  | ret a =>
      cases x <;> simp only [perform, reduceCtorEq, Option.some.injEq] at hstep
      exact hstep ▸ hlost.2
  | raise e =>
      cases x <;> simp only [perform, reduceCtorEq, Option.some.injEq] at hstep
      exact hstep ▸ hlost.1
  | halt =>
      cases x <;> simp only [perform, reduceCtorEq, Option.some.injEq] at hstep
      exact hstep ▸ hlost.1
  | query k =>
      cases x <;> simp only [perform, reduceCtorEq, Option.some.injEq] at hstep
      · obtain ⟨hsame, hk⟩ := halike _ _ h.view
        obtain rfl := hstep
        refine ⟨_, rfl, ?_⟩
        rw [hsame]
        exact h.resume h.writes h.view hk
      · exact hstep ▸ hlost.1
      · exact hstep ▸ hlost.2
  | scan t q k =>
      obtain ⟨hq, hk⟩ := halike
      cases x <;> simp only [perform, reduceCtorEq, Option.some.injEq] at hstep
      · next keys =>
          split at hstep
          · next hvisits =>
              obtain rfl := Option.some.inj hstep
              have hvisits' := (hq.visits _ _ h.view keys).mpr hvisits
              simp only [perform, if_pos hvisits']
              refine ⟨_, rfl, h.resume h.writes h.view ⟨hq, ?_, hk⟩⟩
              intro r hr
              cases hr
          · cases hstep
      · exact hstep ▸ hlost.1
      · exact hstep ▸ hlost.2
  | visit t q todo acc k =>
      obtain ⟨hq, hacc, hk⟩ := halike
      cases x <;> simp only [perform, reduceCtorEq, Option.some.injEq] at hstep
      · cases todo with
        | nil =>
            obtain rfl := Option.some.inj hstep
            exact ⟨_, rfl, h.resume h.writes h.view (hk acc hacc)⟩
        | cons key todo =>
            by_cases hfull : q.full acc = true
            · simp only [if_pos hfull, Option.some.injEq] at hstep
              obtain rfl := hstep
              simp only [perform, if_pos hfull]
              exact ⟨_, rfl, h.resume h.writes h.view (hk acc hacc)⟩
            · simp only [if_neg hfull] at hstep
              simp only [perform, if_neg hfull]
              exact h.visitOne hq hacc hk hstep
      · exact hstep ▸ hlost.1
      · exact hstep ▸ hlost.2
  | insert t r k =>
      cases x <;> simp only [perform, reduceCtorEq, Option.some.injEq] at hstep
      · obtain ⟨hconflict, hput, hk⟩ := halike _ _ h.view
        have hfree := h.unlocked.free (insertRefs t r)
        have hfree' := h.unlocked'.free (insertRefs t r)
        simp only [if_pos hfree] at hstep
        simp only [perform, if_pos hfree', hconflict]
        cases hv : (w.view 0).conflict t r with
        | some e =>
            rw [hv] at hk hstep
            obtain rfl := Option.some.inj hstep
            exact ⟨_, rfl, h.resume h.writes h.view hk⟩
        | none =>
            rw [hv] at hk hstep
            obtain rfl := Option.some.inj hstep
            refine ⟨_, rfl, h.lockAndResume _ ?_ ?_ hk⟩
            · simp [Session.add, h.writes]
            · simpa [World.view, Session.view, Session.add,
                Store.view_append] using hput hv
      · exact hstep ▸ hlost.1
      · exact hstep ▸ hlost.2
  | fresh k =>
      cases x <;> simp only [perform, reduceCtorEq, Option.some.injEq] at hstep
      · next n =>
          split at hstep
          · cases hstep
          · next hn =>
              obtain rfl := Option.some.inj hstep
              simp only [perform, h.used, if_neg hn]
              have hnext := h.resume (d := (w.session 0).draw n)
                (e := (w'.session 0).draw n) h.writes h.view
                (halike n (h.fresh n hn))
              refine ⟨_, rfl, { hnext with used := rfl, fresh := ?_ }⟩
              exact fun m hm => h.fresh m fun hmem =>
                hm (List.mem_cons_of_mem n hmem)
      · exact hstep ▸ hlost.1
      · exact hstep ▸ hlost.2
  | call c k =>
      cases x <;> simp only [perform, reduceCtorEq, Option.some.injEq] at hstep
      · next n =>
          obtain rfl := hstep
          exact ⟨_, rfl, h.resume h.writes h.view (halike n)⟩
      · exact hstep ▸ hlost.1
      · exact hstep ▸ hlost.2
  | commit k =>
      cases x <;> simp only [perform, reduceCtorEq, Option.some.injEq] at hstep
      · exact hstep ▸ ⟨_, rfl, h.committed halike⟩
      · exact hstep ▸ ⟨_, rfl, (h.committed (k := k) halike).failed⟩
      · exact hstep ▸ hlost.1
      · exact hstep ▸ hlost.2
  | rollback k =>
      cases x <;> simp only [perform, reduceCtorEq, Option.some.injEq] at hstep
      · obtain rfl := hstep
        refine ⟨_, rfl, ?_⟩
        rw [h.guard]
        exact h.rolledBack halike h.handler
      · exact hstep ▸ hlost.1
      · exact hstep ▸ hlost.2
  | guarded g k =>
      obtain ⟨hg, hk⟩ := halike
      cases x <;> simp only [perform, reduceCtorEq, Option.some.injEq] at hstep
      · obtain rfl := hstep
        refine ⟨_, rfl, h.setProc rfl rfl h.writes h.view hk ?_⟩
        rintro _ ⟨⟩
        exact hg
      · exact hstep ▸ hlost.1
      · exact hstep ▸ hlost.2
  | unguard k =>
      cases x <;> simp only [perform, reduceCtorEq, Option.some.injEq] at hstep
      · obtain rfl := hstep
        refine ⟨_, rfl, h.setProc rfl rfl h.writes h.view halike ?_⟩
        rintro _ ⟨⟩
      · exact hstep ▸ hlost.1
      · exact hstep ▸ hlost.2

theorem run (h : Twins A N w w') {xs : List (Input σ)}
    (hrun : w.run (xs.map fun x => (0, x)) = some v) :
    ∃ v', w'.run (xs.map fun x => (0, x)) = some v' ∧ Twins A N v v' := by
  induction xs generalizing w w' with
  | nil =>
      cases hrun
      exact ⟨w', rfl, h⟩
  | cons x xs ih =>
      obtain ⟨u, hstep, hrest⟩ := Option.bind_eq_some_iff.mp hrun
      obtain ⟨u', hstep', hu⟩ := h.step hstep
      obtain ⟨v', hrest', hv⟩ := ih hu hrest
      refine ⟨v', ?_, hv⟩
      simp only [List.map_cons, World.run, hstep', Option.bind_some]
      exact hrest'

theorem answer (h : Twins A N w w') :
    (w'.procs 0).answer = (w.procs 0).answer := by
  unfold Proc.answer
  rw [h.prog, h.guard]

end Twins

/-- On related stores, and with the same inputs, a request that treats them
alike gives the same answer and leaves them related. -/
theorem run_alike (h : prog.Alike A N) (hA : A s s')
    (hN : ∀ n, n ∉ used → N n) {xs : List (Input σ)}
    (hrun : (alone used s prog).run (xs.map fun x => (0, x)) = some w) :
    ∃ w', (alone used s' prog).run (xs.map fun x => (0, x)) = some w' ∧
      (w'.procs 0).answer = (w.procs 0).answer ∧ A w.store w'.store := by
  obtain ⟨w', hrun', htwins⟩ := (twins_alone hA hN h).run hrun
  exact ⟨w', hrun', htwins.answer, htwins.store⟩

end World

/-! ## Rules -/

namespace Prog

variable {A : Store σ → Store σ → Prop} {N : ℕ → Prop} {t : σ.Table}

theorem alike_bind {x : Prog σ ε α} {f : α → Prog σ ε β}
    (h : x.Alike A N) (hf : ∀ a, (f a).Alike A N) :
    (x >>= f).Alike A N := by
  induction x with
  | ret a => exact hf a
  | raise | halt => trivial
  | query k ih =>
      intro v v' hA
      obtain ⟨hsame, hk⟩ := h v v' hA
      exact ⟨congrArg (Prog.bind f) hsame, ih v hk⟩
  | scan t q k ih => exact ⟨h.1, fun rows hrows => ih rows (h.2 rows hrows)⟩
  | visit t q todo acc k ih =>
      exact ⟨h.1, h.2.1, fun rows hrows => ih rows (h.2.2 rows hrows)⟩
  | insert t r k ih =>
      intro v v' hA
      obtain ⟨hsame, hput, hk⟩ := h v v' hA
      exact ⟨hsame, hput, ih _ hk⟩
  | fresh k ih => exact fun n hn => ih n (h n hn)
  | call c k ih => exact fun n => ih n (h n)
  | commit k ih => exact ih h
  | rollback k ih => exact ih h
  | guarded g k ihg ihk => exact ⟨ihg h.1, ihk h.2⟩
  | unguard k ih => exact ih h

theorem alike_map {x : Prog σ ε α} {f : α → β} (h : x.Alike A N) :
    (f <$> x).Alike A N := by
  rw [map_eq_pure_bind]
  exact alike_bind h fun _ => trivial

theorem alike_select {q : Store σ → α} (hq : ∀ v v', A v v' → q v' = q v) :
    (select q : Prog σ ε α).Alike A N :=
  fun v v' hA => ⟨congrArg Prog.ret (hq v v' hA), trivial⟩

theorem alike_select_bind {q : Store σ → β} {f : β → Prog σ ε α}
    (hq : ∀ v v', A v v' → q v' = q v)
    (h : ∀ v v', A v v' → (f (q v)).Alike A N) :
    (select q >>= f).Alike A N :=
  fun v v' hA => ⟨congrArg f (hq v v' hA), h v v' hA⟩

theorem alike_locking_bind {q : Scan σ t} {f : List (σ.Row t) → Prog σ ε α}
    (hq : q.Alike A)
    (h : ∀ rows, (∀ r ∈ rows, q.Returns A r) → (f rows).Alike A N) :
    (locking q >>= f).Alike A N :=
  ⟨hq, h⟩

theorem alike_alterKey {k : σ.Key} {effect : σ.Row t → Effect (σ.Row t)}
    (hq : (byKey k effect).Alike A) :
    (alterKey t k effect : Prog σ ε Unit).Alike A N := by
  refine ⟨hq, fun rows _ => ?_⟩
  cases rows <;> trivial

theorem alike_deleteKey {k : σ.Key}
    (hq : (byKey (t := t) k fun _ => .delete).Alike A) :
    (deleteKey t k : Prog σ ε Unit).Alike A N :=
  ⟨hq, fun _ _ => trivial⟩

theorem alike_insertRow_bind {r : σ.Row t}
    {f : Option σ.Key → Prog σ ε α}
    (hsame : ∀ v v', A v v' → v'.conflict t r = v.conflict t r)
    (hput : ∀ v v', A v v' → v.conflict t r = none →
      A (v.write (.put t r)) (v'.write (.put t r)))
    (h : ∀ e, (f e).Alike A N) : (insertRow t r >>= f).Alike A N :=
  fun v v' hA => ⟨hsame v v' hA, hput v v' hA, h _⟩

theorem alike_insertOrHalt {r : σ.Row t}
    (hsame : ∀ v v', A v v' → v'.conflict t r = v.conflict t r)
    (hput : ∀ v v', A v v' → v.conflict t r = none →
      A (v.write (.put t r)) (v'.write (.put t r))) :
    (insertOrHalt t r : Prog σ ε Unit).Alike A N := by
  intro v v' hA
  refine ⟨hsame v v' hA, hput v v' hA, ?_⟩
  cases v.conflict t r <;> trivial

theorem alike_freshId_bind {f : ℕ → Prog σ ε α}
    (h : ∀ n, N n → (f n).Alike A N) : (freshId >>= f).Alike A N :=
  h

theorem alike_callOut_bind {c : σ.Call} {f : ℕ → Prog σ ε α}
    (h : ∀ n, (f n).Alike A N) : (callOut c >>= f).Alike A N :=
  h

theorem alike_ite {p : Prop} [Decidable p] {x y : Prog σ ε α}
    (hx : p → x.Alike A N) (hy : ¬p → y.Alike A N) :
    (if p then x else y).Alike A N := by
  split
  · next h => exact hx h
  · next h => exact hy h

theorem alike_ensure_bind {c : Bool} {e : ε} {f : Unit → Prog σ ε α}
    (h : c = true → (f ()).Alike A N) : (ensure c e >>= f).Alike A N := by
  cases c with
  | false => trivial
  | true => exact h rfl

theorem alike_require_bind {o : Option β} {e : ε} {f : β → Prog σ ε α}
    (h : ∀ b, o = some b → (f b).Alike A N) :
    (require o e >>= f).Alike A N := by
  cases o with
  | none => trivial
  | some b => exact h b rfl

end Prog

end ReadCommitted
