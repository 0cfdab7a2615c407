import Workstream.ReadCommitted.World

/-!
# What one step changes

`Change` records the effect of a step on everything but the control of the
moving program: locks and writes grow together, only a commit reaches the
store, and a drawn identifier is new.  Every invariant of the database that
does not depend on the programs follows from it.
-/

namespace ReadCommitted

variable {σ : Schema} {ε α : Type}

namespace World

/-- Writes `ws` on the view `s`, under the locks `refs`, respect the unique
indexes. -/
structure KeepsUnique (s : Store σ) (refs : List σ.Ref)
    (ws : List (Write σ)) : Prop where
  entries : ∀ {t : σ.Table} (r : σ.Row t), .put t r ∈ ws →
    ∀ e ∈ σ.unique r, (t, e) ∈ refs
  view : s.Unique → (Store.view ws s).Unique

theorem keepsUnique_put {s : Store σ} {t : σ.Table} {r : σ.Row t}
    {refs : List σ.Ref} (hclash : s.clash t r = none)
    (hrefs : ∀ e ∈ σ.unique r, (t, e) ∈ refs) :
    KeepsUnique s refs [.put t r] where
  entries := by
    intro u x hx
    cases List.mem_singleton.mp hx
    exact hrefs
  view := fun h => h.put hclash

/-- The effect of one step of `p`, up to the program that `p` goes on with. -/
inductive Change (w : World σ ε α) (p : Pid) : World σ ε α → Prop where
  | quiet (P : Proc σ ε α)
      (hwrites : P.session.writes = (w.session p).writes)
      (hids : P.session.ids = (w.session p).ids)
      (hseen : (w.session p).seen <:+ P.session.seen) :
      Change w p (w.setProc p P)
  | locking (P : Proc σ ε α) (refs : List σ.Ref) (ws : List (Write σ))
      (hfree : Free w.locks p refs) (hrefs : ∀ x ∈ ws, x.ref ∈ refs)
      (hwrites : P.session.writes = (w.session p).writes ++ ws)
      (hids : P.session.ids = (w.session p).ids)
      (hunique : KeepsUnique (w.view p) refs ws)
      (hseen : (w.session p).seen <:+ P.session.seen) :
      Change w p { w.setProc p P with locks := acquire w.locks p refs }
  | releasing (P : Proc σ ε α) (hwrites : P.session.writes = [])
      (hids : P.session.ids = (w.session p).ids)
      (hseen : (w.session p).seen <:+ P.session.seen) :
      Change w p { w.setProc p P with locks := release w.locks p }
  | drawing (P : Proc σ ε α) (n : ℕ) (hn : n ∉ w.used)
      (hwrites : P.session.writes = (w.session p).writes)
      (hids : P.session.ids = n :: (w.session p).ids)
      (hseen : (w.session p).seen <:+ P.session.seen) :
      Change w p { w.setProc p P with used := n :: w.used }
  | committing (P : Proc σ ε α) (hprog : ∃ k, (w.procs p).prog = .commit k)
      (hwrites : P.session.writes = [])
      (hids : P.session.ids = (w.session p).ids)
      (hseen : P.session.seen = .committed :: (w.session p).seen) :
      Change w p { w.setProc p P with
        store := w.view p
        locks := release w.locks p
        log := w.commitOf p :: w.log }

variable {w w' : World σ ε α} {p : Pid}

theorem change_resume (prog : Prog σ ε α) (o : Obs σ) :
    Change w p (w.resume p prog ((w.session p).observe o)) :=
  .quiet _ rfl rfl (List.suffix_cons _ _)

theorem change_rolledBack (prog : Prog σ ε α) (guard : Option (Prog σ ε α)) :
    Change w p (w.rolledBack p prog guard) :=
  .releasing _ rfl rfl List.suffix_rfl

/-- Failing after a commit changes nothing more than the commit did. -/
theorem committed_failed (k : Prog σ ε α) :
    (w.committed p k).failed p =
      { w.committed p k with
        procs := Function.update w.procs p
          { prog := (w.procs p).guard.getD .halt
            session := (w.session p).discard.observe .committed } } := by
  have hlocks : release (release w.locks p) p = release w.locks p := by
    funext r
    by_cases h : w.locks r = some p <;> simp [release, h]
  simp [failed, rolledBack, committed, resume, setProc, session, hlocks,
    Session.discard, Session.observe]

/-- A visit that keeps its row writes that row at most. -/
theorem visit_keep {t : σ.Table} {q : Scan σ t} {s : Store σ} {key : σ.Key}
    {r : σ.Row t} {ws : List (Write σ)} {refs : List σ.Ref}
    (h : q.visit s key = .keep r ws refs) :
    (∀ x ∈ ws, x.ref = (t, key)) ∧ KeepsUnique s ((t, key) :: refs) ws := by
  unfold Scan.visit at h
  split at h
  · cases h
  · split at h
    · split at h
      · cases h
        exact ⟨by simp, by simp, fun hs => hs⟩
      · cases h
        exact ⟨by simp [Write.ref], by simp, fun hs => hs.del key⟩
      · cases h
      · split at h
        · next hok =>
            cases h
            refine ⟨by simp [Write.ref, hok.1], keepsUnique_put hok.2 ?_⟩
            intro e he
            exact List.mem_cons_of_mem _ (List.mem_map_of_mem he)
        · cases h
    · cases h

theorem change_visitOne {t : σ.Table} {q : Scan σ t} {key : σ.Key}
    {todo : List σ.Key} {acc : List (σ.Row t)}
    {k : List (σ.Row t) → Prog σ ε α}
    (h : w.visitOne p q key todo acc k = some w') : Change w p w' := by
  unfold visitOne at h
  split at h
  · next hfree =>
      split at h
      · cases h
        exact .quiet _ rfl rfl List.suffix_rfl
      · cases h
        exact change_rolledBack _ _
      · next r ws refs hvisit =>
          obtain ⟨href, hunique⟩ := visit_keep hvisit
          split at h
          · next hrefs =>
              cases h
              refine .locking _ ((t, key) :: refs) ws ?_ ?_ rfl rfl hunique
                (List.suffix_cons _ _)
              · intro x hx
                rcases List.mem_cons.mp hx with rfl | hx
                · exact hfree _ List.mem_cons_self
                · exact hrefs x hx
              · intro x hx
                rw [href x hx]
                exact List.mem_cons_self
          · cases h
  · split at h
    · cases h
      exact .quiet _ rfl rfl List.suffix_rfl
    · cases h

/-- Every step is a change. -/
theorem change_of_advance {x : Input σ} (h : w.advance p x = some w') :
    Change w p w' := by
  unfold advance at h
  generalize hprog : (w.procs p).prog = prog at h
  unfold perform at h
  split at h
  all_goals try cases h
  all_goals try exact change_rolledBack _ _
  all_goals try exact change_resume _ _
  all_goals try exact .quiet _ rfl rfl List.suffix_rfl
  · split at h
    · cases h
      exact change_resume _ _
    · cases h
  · split at h
    · cases h
      exact .quiet _ rfl rfl List.suffix_rfl
    · split at h
      · cases h
        exact .quiet _ rfl rfl List.suffix_rfl
      · exact change_visitOne h
  · split at h
    · next hfree =>
        split at h
        · cases h
          exact .quiet _ rfl rfl List.suffix_rfl
        · next hconflict =>
            cases h
            refine .locking _ _ _ hfree ?_ rfl rfl
              (keepsUnique_put (Store.clash_of_conflict_none hconflict) ?_)
              List.suffix_rfl
            · intro x hx
              rw [List.mem_singleton.mp hx]
              exact List.mem_cons_self
            · intro e he
              exact List.mem_cons_of_mem _ (List.mem_map_of_mem he)
    · cases h
  · split at h
    · cases h
    · next hn =>
        cases h
        exact .drawing _ _ hn rfl rfl List.suffix_rfl
  · exact .committing _ ⟨_, hprog⟩ rfl rfl rfl
  · rw [committed_failed]
    exact .committing _ ⟨_, hprog⟩ rfl rfl rfl

/-! ## Invariants of every run -/

/-- The committed transactions, newest first, lead from `s₀` to `s`. -/
def Chain (s₀ : Store σ) : List (Commit σ) → Store σ → Prop
  | [], s => s = s₀
  | c :: cs, s => s = c.after ∧ Chain s₀ cs c.before

/-- Induction along the log, for commits that satisfy `G`. -/
theorem Chain.induction {s₀ s : Store σ} {log : List (Commit σ)}
    (h : Chain s₀ log s) {G : Commit σ → Prop} (hG : ∀ c ∈ log, G c)
    {P : List (Commit σ) → Store σ → Prop} (hnil : P [] s₀)
    (hcons : ∀ c older, G c → P older c.before → P (c :: older) c.after) :
    P log s := by
  induction log generalizing s with
  | nil => exact h ▸ hnil
  | cons c older ih =>
      have holder := ih h.2 fun d hd => hG d (List.mem_cons_of_mem c hd)
      exact h.1 ▸ hcons c older (hG c List.mem_cons_self) holder

/-- The commits before `c` lead to the store that `c` has found. -/
theorem Chain.older {s₀ s : Store σ} {c : Commit σ}
    {newer older : List (Commit σ)} (h : Chain s₀ (newer ++ c :: older) s) :
    Chain s₀ older c.before := by
  induction newer generalizing s with
  | nil => exact h.2
  | cons n newer ih => exact ih h.2

/-- A property of the store that holds after a commit and is kept by the newer
ones. -/
theorem Chain.persist {s₀ s : Store σ} {c : Commit σ}
    {newer older : List (Commit σ)} (h : Chain s₀ (newer ++ c :: older) s)
    {P : Store σ → Prop} (hP : P c.after)
    (hstep : ∀ c' ∈ newer, P c'.before → P c'.after) :
    P s ∧ ∀ c' ∈ newer, P c'.before := by
  induction newer generalizing s with
  | nil => exact ⟨h.1 ▸ hP, by simp⟩
  | cons n newer ih =>
      obtain ⟨hbefore, hnewer⟩ :=
        ih h.2 fun c' hc' => hstep c' (List.mem_cons_of_mem n hc')
      refine ⟨h.1 ▸ hstep n List.mem_cons_self hbefore, fun c' hc' => ?_⟩
      rcases List.mem_cons.mp hc' with rfl | hc'
      · exact hbefore
      · exact hnewer c' hc'

/-- What holds in every world, whatever the clients do. -/
structure WellFormed (s₀ : Store σ) (w : World σ ε α) : Prop where
  locked : ∀ p, ∀ x ∈ (w.session p).writes, w.locks x.ref = some p
  idsUsed : ∀ p, ∀ n ∈ (w.session p).ids, n ∈ w.used
  idsDisjoint : ∀ p q, p ≠ q →
    ∀ n ∈ (w.session p).ids, n ∉ (w.session q).ids
  framed : ∀ c ∈ w.log, c.Framed
  observed : ∀ c ∈ w.log, Obs.committed ∈ (w.session c.pid).seen
  chain : Chain s₀ w.log w.store

theorem procs_setProc_of_ne (w : World σ ε α) {p q : Pid}
    (P : Proc σ ε α) (h : q ≠ p) : (w.setProc p P).procs q = w.procs q := by
  simp [setProc, h]

theorem session_setProc_self (w : World σ ε α) (p : Pid) (P : Proc σ ε α) :
    (w.setProc p P).session p = P.session := by
  simp [session, setProc]

/-- A step leaves the other clients and their locks alone. -/
theorem Change.others (h : Change w p w') {q : Pid} (hq : q ≠ p) :
    w'.procs q = w.procs q ∧
      ∀ r, w'.locks r = some q ↔ w.locks r = some q := by
  cases h with
  | quiet P => exact ⟨procs_setProc_of_ne w P hq, fun _ => Iff.rfl⟩
  | locking P refs ws hfree =>
      exact ⟨procs_setProc_of_ne w P hq,
        fun _ => acquire_eq_some_of_ne hfree hq⟩
  | releasing P =>
      refine ⟨procs_setProc_of_ne w P hq, fun r => ?_⟩
      rw [release_eq_some_iff]
      exact and_iff_left hq
  | drawing P => exact ⟨procs_setProc_of_ne w P hq, fun _ => Iff.rfl⟩
  | committing P =>
      refine ⟨procs_setProc_of_ne w P hq, fun r => ?_⟩
      rw [release_eq_some_iff]
      exact and_iff_left hq

theorem Change.session_of_ne (h : Change w p w') {q : Pid} (hq : q ≠ p) :
    w'.session q = w.session q := by
  rw [session, (h.others hq).1, session]

/-- Clients that a schedule does not name stay as they are. -/
theorem session_of_run {xs : List (Pid × Input σ)} (h : w.run xs = some w')
    (hp : ∀ x ∈ xs, x.1 ≠ p) : w'.session p = w.session p := by
  induction xs generalizing w with
  | nil =>
      cases h
      rfl
  | cons x xs ih =>
      obtain ⟨u, hstep, hrest⟩ := Option.bind_eq_some_iff.mp h
      have hsame := ih hrest fun y hy => hp y (List.mem_cons_of_mem x hy)
      rw [hsame]
      exact (change_of_advance hstep).session_of_ne
        (hp x List.mem_cons_self).symm

theorem Change.locked (h : Change w p w')
    (hw : ∀ x ∈ (w.session p).writes, w.locks x.ref = some p) :
    ∀ x ∈ (w'.session p).writes, w'.locks x.ref = some p := by
  intro x hx
  cases h with
  | quiet P hwrites =>
      rw [session_setProc_self, hwrites] at hx
      exact hw x hx
  | locking P refs ws hfree hrefs hwrites =>
      have hmem : x ∈ (w.session p).writes ++ ws := by
        rw [← hwrites]
        simpa [session, setProc] using hx
      refine acquire_self.mpr ?_
      rcases List.mem_append.mp hmem with hold | hnew
      · exact Or.inr (hw x hold)
      · exact Or.inl (hrefs x hnew)
  | releasing P hwrites =>
      simp [session, setProc, hwrites] at hx
  | drawing P n hn hwrites =>
      apply hw x
      simpa [session, setProc, hwrites] using hx
  | committing P _ hwrites =>
      simp [session, setProc, hwrites] at hx

/-- A step draws at most one identifier, which is new. -/
theorem Change.ids (h : Change w p w') :
    (w'.session p).ids = (w.session p).ids ∧ w'.used = w.used ∨
      ∃ n, n ∉ w.used ∧ (w'.session p).ids = n :: (w.session p).ids ∧
        w'.used = n :: w.used := by
  cases h with
  | quiet P _ hids => exact Or.inl ⟨by simp [session, setProc, hids], rfl⟩
  | locking P refs ws _ _ _ hids =>
      exact Or.inl ⟨by simp [session, setProc, hids], rfl⟩
  | releasing P _ hids => exact Or.inl ⟨by simp [session, setProc, hids], rfl⟩
  | drawing P n hn _ hids =>
      exact Or.inr ⟨n, hn, by simp [session, setProc, hids], rfl⟩
  | committing P _ _ hids =>
      exact Or.inl ⟨by simp [session, setProc, hids], rfl⟩

/-- Only a commit is logged and only a commit reaches the store. -/
theorem Change.log (h : Change w p w') :
    w'.log = w.log ∧ w'.store = w.store ∨
      (∃ k, (w.procs p).prog = .commit k) ∧ w'.log = w.commitOf p :: w.log ∧
        w'.store = (w.commitOf p).after := by
  cases h with
  | committing P hprog => exact Or.inr ⟨hprog, rfl, rfl⟩
  | _ => exact Or.inl ⟨rfl, rfl⟩

/-- Observations are never lost, and a commit is one. -/
theorem Change.seen (h : Change w p w') :
    (w.session p).seen <:+ (w'.session p).seen ∧
      (w'.log ≠ w.log → Obs.committed ∈ (w'.session p).seen) := by
  cases h with
  | committing P _ _ _ hseen =>
      have hsuffix : (w.session p).seen <:+ P.session.seen := by
        rw [hseen]
        exact List.suffix_cons _ _
      constructor
      · simpa [session, setProc] using hsuffix
      · intro _
        simp [session, setProc, hseen]
  | quiet P _ _ hseen =>
      exact ⟨by simpa [session, setProc] using hseen, fun h => absurd rfl h⟩
  | locking P _ _ _ _ _ _ _ hseen =>
      exact ⟨by simpa [session, setProc] using hseen, fun h => absurd rfl h⟩
  | releasing P _ _ hseen =>
      exact ⟨by simpa [session, setProc] using hseen, fun h => absurd rfl h⟩
  | drawing P _ _ _ _ hseen =>
      exact ⟨by simpa [session, setProc] using hseen, fun h => absurd rfl h⟩

theorem wellFormed_start (s : Store σ) (code : Pid → Prog σ ε α) :
    WellFormed s (start s code) where
  locked := by simp [session, start]
  idsUsed := by simp [session, start]
  idsDisjoint := by simp [session, start]
  framed := by simp [start]
  observed := by simp [start]
  chain := rfl

theorem WellFormed.change {s₀ : Store σ} (hw : WellFormed s₀ w)
    (h : Change w p w') : WellFormed s₀ w' where
  locked := by
    intro q x hx
    by_cases hq : q = p
    · subst q
      exact h.locked (hw.locked p) x hx
    · rw [h.session_of_ne hq] at hx
      exact ((h.others hq).2 x.ref).mpr (hw.locked q x hx)
  idsUsed := by
    intro q n hn
    have hold : ∀ q, ∀ n ∈ (w.session q).ids, n ∈ w'.used := by
      intro q n hn
      rcases h.ids with ⟨_, hused⟩ | ⟨m, _, _, hused⟩
      · rw [hused]
        exact hw.idsUsed q n hn
      · rw [hused]
        exact List.mem_cons_of_mem m (hw.idsUsed q n hn)
    by_cases hq : q = p
    · subst q
      rcases h.ids with ⟨hids, _⟩ | ⟨m, _, hids, hused⟩
      · rw [hids] at hn
        exact hold p n hn
      · rw [hids] at hn
        rcases List.mem_cons.mp hn with rfl | hn
        · rw [hused]
          exact List.mem_cons_self
        · exact hold p n hn
    · rw [h.session_of_ne hq] at hn
      exact hold q n hn
  idsDisjoint := by
    have hnew : ∀ q, q ≠ p → ∀ n ∈ (w'.session p).ids,
        n ∉ (w.session q).ids := by
      intro q hq n hn
      rcases h.ids with ⟨hids, _⟩ | ⟨m, hm, hids, _⟩
      · rw [hids] at hn
        exact hw.idsDisjoint p q (Ne.symm hq) n hn
      · rw [hids] at hn
        rcases List.mem_cons.mp hn with rfl | hn
        · exact fun hmem => hm (hw.idsUsed q n hmem)
        · exact hw.idsDisjoint p q (Ne.symm hq) n hn
    intro q r hqr n hn hnr
    by_cases hq : q = p
    · subst q
      rw [h.session_of_ne (Ne.symm hqr)] at hnr
      exact hnew r (Ne.symm hqr) n hn hnr
    · rw [h.session_of_ne hq] at hn
      by_cases hr : r = p
      · subst r
        exact hnew q hq n hnr hn
      · rw [h.session_of_ne hr] at hnr
        exact hw.idsDisjoint q r hqr n hn hnr
  framed := by
    rcases h.log with ⟨hlog, _⟩ | ⟨_, hlog, _⟩
    · rw [hlog]
      exact hw.framed
    · rw [hlog]
      intro c hc
      rcases List.mem_cons.mp hc with rfl | hc
      · exact hw.locked p
      · exact hw.framed c hc
  observed := by
    have hold : ∀ c ∈ w.log, Obs.committed ∈ (w'.session c.pid).seen := by
      intro c hc
      by_cases hq : c.pid = p
      · rw [hq]
        exact h.seen.1.subset (hq ▸ hw.observed c hc)
      · rw [h.session_of_ne hq]
        exact hw.observed c hc
    rcases h.log with ⟨hlog, _⟩ | ⟨_, hlog, _⟩
    · rw [hlog]
      exact hold
    · intro c hc
      have hnew := h.seen.2 (by simp [hlog])
      rw [hlog] at hc
      rcases List.mem_cons.mp hc with rfl | hc
      · exact hnew
      · exact hold c hc
  chain := by
    rcases h.log with ⟨hlog, hstore⟩ | ⟨_, hlog, hstore⟩
    · rw [hlog, hstore]
      exact hw.chain
    · rw [hlog, hstore]
      exact ⟨rfl, hw.chain⟩

theorem wellFormed_of_reachable {s₀ : Store σ} {code : Pid → Prog σ ε α}
    (h : Reachable (start s₀ code) w) : WellFormed s₀ w := by
  induction h with
  | start => exact wellFormed_start s₀ code
  | step p x _ hstep ih => exact ih.change (change_of_advance hstep)

/-! ## Clients that have answered -/

/-- Client `p` has raised an error to its caller, or is gone. -/
structure Failing (w : World σ ε α) (p : Pid) : Prop where
  prog : (∃ e, (w.procs p).prog = .raise e) ∨ (w.procs p).prog = .halt
  guard : (w.procs p).guard = none

theorem Failing.step {x : Input σ} (h : Failing w p)
    (hstep : w.advance p x = some w') : Failing w' p := by
  have hfailed : Failing (w.failed p) p := by
    constructor
    · right
      simp [failed, rolledBack, setProc, h.guard]
    · simp [failed, rolledBack, setProc]
  unfold advance at hstep
  rcases h.prog with ⟨e, hprog⟩ | hprog
  · rw [hprog] at hstep
    cases x <;> simp only [perform, reduceCtorEq, Option.some.injEq] at hstep
    exact hstep ▸ hfailed
  · rw [hprog] at hstep
    cases x <;> simp only [perform, reduceCtorEq, Option.some.injEq] at hstep
    exact hstep ▸ hfailed

theorem Failing.not_commit (h : Failing w p) {k : Prog σ ε α} :
    (w.procs p).prog ≠ .commit k := by
  rcases h.prog with ⟨e, hprog⟩ | hprog
  · simp [hprog]
  · simp [hprog]

/-- Such a client never commits again. -/
theorem Failing.log (h : Failing w p) (hreach : Reachable w w') :
    ∀ c ∈ w'.log, c.pid = p → c ∈ w.log := by
  suffices hboth : Failing w' p ∧ ∀ c ∈ w'.log, c.pid = p → c ∈ w.log from
    hboth.2
  induction hreach with
  | start => exact ⟨h, fun c hc _ => hc⟩
  | @step u v q x _ hstep ih =>
      have hchange := change_of_advance hstep
      by_cases hq : p = q
      · subst q
        refine ⟨ih.1.step hstep, ?_⟩
        rcases hchange.log with ⟨hlog, _⟩ | ⟨⟨k, hprog⟩, _⟩
        · rw [hlog]
          exact ih.2
        · exact absurd hprog ih.1.not_commit
      · obtain ⟨hprocs, _⟩ := hchange.others hq
        refine ⟨⟨hprocs ▸ ih.1.prog, hprocs ▸ ih.1.guard⟩, ?_⟩
        intro c hc hpid
        rcases hchange.log with ⟨hlog, _⟩ | ⟨_, hlog, _⟩
        · rw [hlog] at hc
          exact ih.2 c hc hpid
        · rw [hlog] at hc
          rcases List.mem_cons.mp hc with rfl | hc
          · exact absurd hpid.symm hq
          · exact ih.2 c hc hpid

/-- A client that does not commit in a run leaves the store alone. -/
theorem store_of_not_commit {x : Input σ} (hstep : w.advance p x = some w')
    (h : ∀ c ∈ w'.log, c.pid ≠ p) : w'.store = w.store := by
  rcases (change_of_advance hstep).log with ⟨_, hstore⟩ | ⟨_, hlog, _⟩
  · exact hstore
  · rw [hlog] at h
    exact absurd rfl (h _ List.mem_cons_self)

/-! ## Unique indexes in every run -/

/-- Every client sees a store that respects the unique indexes, and holds the
index entries of the rows that it has written. -/
structure Indexed (w : World σ ε α) : Prop where
  entries : ∀ p, ∀ {t : σ.Table} (r : σ.Row t),
    .put t r ∈ (w.session p).writes → ∀ e ∈ σ.unique r,
      w.locks (t, e) = some p
  view : ∀ p, (w.view p).Unique
  store : w.store.Unique

/-- A row that `p` sees is its own or untouched by it. -/
theorem mem_view_cases {w : World σ ε α} {p : Pid} {t : σ.Table}
    {x : σ.Row t} (h : x ∈ (w.view p t).rows) :
    .put t x ∈ (w.session p).writes ∧
        (∃ v ∈ (w.session p).writes, v.ref = (t, σ.key x)) ∨
      x ∈ (w.store t).rows ∧
        ∀ v ∈ (w.session p).writes, v.ref ≠ (t, σ.key x) := by
  have hlook := Relation.lookup_key h
  by_cases htouch : ∃ v ∈ (w.session p).writes, v.ref = (t, σ.key x)
  · have hempty : (Store.view (w.session p).writes (Store.empty σ) t).lookup
        (σ.key x) = some x :=
      (Store.lookup_view_of_mem _ _ htouch).trans hlook
    rcases Store.lookup_view_cases hempty with hnone | hput
    · cases hnone
    · exact Or.inl ⟨hput, htouch⟩
  · push Not at htouch
    have hstore := Store.lookup_view_of_not_mem (s := w.store) htouch
    exact Or.inr ⟨Relation.mem_of_lookup (hstore.symm.trans hlook), htouch⟩

/-- Seen by `p` after the commit of `q`, all rows still differ on the unique
indexes. -/
theorem Indexed.view_after (h : Indexed w) {q : Pid} (hpq : p ≠ q) :
    (Store.view (w.session p).writes (w.view q)).Unique := by
  have hcases : ∀ {t : σ.Table} {x : σ.Row t},
      x ∈ (Store.view (w.session p).writes (w.view q) t).rows →
      x ∈ (w.view p t).rows ∧
          .put t x ∈ (w.session p).writes ∨
        x ∈ (w.view q t).rows ∧ (.put t x ∈ (w.session q).writes ∨
          x ∈ (w.view p t).rows) := by
    intro t x hx
    have hlook := Relation.lookup_key hx
    by_cases htouch : ∃ v ∈ (w.session p).writes, v.ref = (t, σ.key x)
    · have hview : (w.view p t).lookup (σ.key x) = some x :=
        (Store.lookup_view_of_mem _ _ htouch).trans hlook
      have hmem := Relation.mem_of_lookup hview
      rcases mem_view_cases hmem with ⟨hput, _⟩ | ⟨_, hnot⟩
      · exact Or.inl ⟨hmem, hput⟩
      · obtain ⟨v, hv, href⟩ := htouch
        exact absurd href (hnot v hv)
    · push Not at htouch
      rw [Store.lookup_view_of_not_mem htouch] at hlook
      have hq := Relation.mem_of_lookup hlook
      rcases mem_view_cases hq with ⟨hput, _⟩ | ⟨hstore, _⟩
      · exact Or.inr ⟨hq, Or.inl hput⟩
      · refine Or.inr ⟨hq, Or.inr (Relation.mem_of_lookup
          ((Store.lookup_view_of_not_mem htouch).trans ?_))⟩
        exact Relation.lookup_key hstore
  intro t x hx y hy e hex hey
  have hlocks : .put t x ∈ (w.session p).writes →
      .put t y ∈ (w.session q).writes → False := by
    intro hxp hyq
    have hp := h.entries p x hxp e hex
    rw [h.entries q y hyq e hey] at hp
    exact hpq (Option.some.inj hp).symm
  have hlocks' : .put t y ∈ (w.session p).writes →
      .put t x ∈ (w.session q).writes → False := by
    intro hyp hxq
    have hp := h.entries p y hyp e hey
    rw [h.entries q x hxq e hex] at hp
    exact hpq (Option.some.inj hp).symm
  rcases hcases hx with ⟨hxp, hxput⟩ | ⟨hxq, hxq'⟩
  · rcases hcases hy with ⟨hyp, _⟩ | ⟨_, hyput | hyp⟩
    · exact h.view p t x hxp y hyp e hex hey
    · exact (hlocks hxput hyput).elim
    · exact h.view p t x hxp y hyp e hex hey
  · rcases hcases hy with ⟨hyp, hyput⟩ | ⟨hyq, _⟩
    · rcases hxq' with hxput | hxp
      · exact (hlocks' hyput hxput).elim
      · exact h.view p t x hxp y hyp e hex hey
    · exact h.view q t x hxq y hyq e hex hey

theorem indexed_start {s : Store σ} (hs : s.Unique)
    (code : Pid → Prog σ ε α) : Indexed (start s code) where
  entries := by simp [session, start]
  view := fun _ => hs
  store := hs

theorem Indexed.change_entries (h : Indexed w) (hc : Change w p w')
    {t : σ.Table} (r : σ.Row t) (hr : .put t r ∈ (w'.session p).writes) :
    ∀ e ∈ σ.unique r, w'.locks (t, e) = some p := by
  intro e he
  cases hc with
  | quiet P hwrites =>
      rw [session_setProc_self, hwrites] at hr
      exact h.entries p r hr e he
  | locking P refs ws _ _ hwrites _ hunique =>
      have hmem : .put t r ∈ (w.session p).writes ++ ws := by
        rw [← hwrites]
        simpa [session, setProc] using hr
      refine acquire_self.mpr ?_
      rcases List.mem_append.mp hmem with hold | hnew
      · exact Or.inr (h.entries p r hold e he)
      · exact Or.inl (hunique.entries r hnew e he)
  | releasing P hwrites =>
      simp [session, setProc, hwrites] at hr
  | drawing P n _ hwrites =>
      refine h.entries p r ?_ e he
      simpa [session, setProc, hwrites] using hr
  | committing P _ hwrites =>
      simp [session, setProc, hwrites] at hr

theorem Indexed.change_view (h : Indexed w) (hc : Change w p w') :
    (w'.view p).Unique := by
  change (Store.view (w'.session p).writes w'.store).Unique
  cases hc with
  | quiet P hwrites =>
      simpa [session, setProc, Session.view, World.view, hwrites]
        using h.view p
  | locking P refs ws _ _ hwrites _ hunique =>
      simpa [session, setProc, Session.view, World.view, hwrites,
        Store.view_append] using hunique.view (h.view p)
  | releasing P hwrites =>
      simpa [session, setProc, Session.view, hwrites] using h.store
  | drawing P n _ hwrites =>
      simpa [session, setProc, Session.view, World.view, hwrites]
        using h.view p
  | committing P _ hwrites =>
      simpa [session, setProc, Session.view, World.view, hwrites]
        using h.view p

theorem Indexed.change (h : Indexed w) (hc : Change w p w') :
    Indexed w' where
  entries := by
    intro q t r hr e he
    by_cases hq : q = p
    · subst q
      exact h.change_entries hc r hr e he
    · rw [hc.session_of_ne hq] at hr
      exact ((hc.others hq).2 _).mpr (h.entries q r hr e he)
  view := by
    intro q
    by_cases hq : q = p
    · subst q
      exact h.change_view hc
    · change (Store.view (w'.session q).writes w'.store).Unique
      rw [hc.session_of_ne hq]
      rcases hc.log with ⟨_, hstore⟩ | ⟨_, _, hstore⟩
      · rw [hstore]
        exact h.view q
      · rw [hstore]
        exact h.view_after hq
  store := by
    rcases hc.log with ⟨_, hstore⟩ | ⟨_, _, hstore⟩
    · rw [hstore]
      exact h.store
    · rw [hstore]
      exact h.view p

theorem indexed_of_reachable {s₀ : Store σ} {code : Pid → Prog σ ε α}
    (hs : s₀.Unique) (h : Reachable (start s₀ code) w) : Indexed w := by
  induction h with
  | start => exact indexed_start hs code
  | step p x _ hstep ih => exact ih.change (change_of_advance hstep)

/-- Unique indexes hold before and after every commit. -/
theorem unique_of_reachable {s₀ : Store σ} {code : Pid → Prog σ ε α}
    (hs : s₀.Unique) (h : Reachable (start s₀ code) w) :
    ∀ c ∈ w.log, c.before.Unique ∧ c.after.Unique := by
  induction h with
  | start => simp [start]
  | @step w w' p x hprev hstep ih =>
      have hindexed := indexed_of_reachable hs hprev
      rcases (change_of_advance hstep).log with ⟨hlog, _⟩ | ⟨_, hlog, _⟩
      · exact hlog ▸ ih
      · intro c hc
        rw [hlog] at hc
        rcases List.mem_cons.mp hc with rfl | hc
        · exact ⟨hindexed.store, hindexed.view p⟩
        · exact ih c hc

end World

end ReadCommitted
