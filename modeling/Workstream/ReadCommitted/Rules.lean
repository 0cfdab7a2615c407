import Workstream.ReadCommitted.Soundness

/-!
# Proof rules for the statements

One rule for each statement, in the form in which a `do` block presents it:
the statement followed by the rest of the program.  All rules are for clients
without a handler.
-/

namespace ReadCommitted
namespace Contract

variable {σ : Schema} {ε α β : Type} {C : Contract σ} {p : Pid}
  {Q : α → Local σ → Shared σ → Prop} {E : ε → Local σ → Shared σ → Prop}
  {l l' : Local σ} {s s' : Shared σ}

/-! ## Interference -/

/-- Holding less allows more interference. -/
theorem Rely.weaken (h : C.Rely p l' s s') (hlocks : ∀ r, l.locks r → l'.locks r)
    (hids : ∀ n ∈ l.session.ids, n ∈ l'.session.ids) :
    C.Rely p l s s' := by
  have hstep : ∀ u v, C.Env p l' u v → C.Env p l u v := by
    intro u v henv
    cases henv with
    | commit c hpid hinv hl hi hframed hguar =>
        exact .commit c hpid hinv (fun r hr hlr => hl r hr (hlocks r hlr))
          (fun n hn hmem => hi n hn (hids n hmem)) hframed hguar
    | draw _ n hn => exact .draw _ n hn
  exact Relation.ReflTransGen.mono hstep s s' h

theorem Rely.of_observe {o : Obs σ} (h : C.Rely p (l.observe o) s s') :
    C.Rely p l s s' :=
  h.weaken (fun _ hr => hr) fun _ hn => hn

/-- `l'` is `l` later in the same transaction, after the writes `ws`. -/
structure Grows (l l' : Local σ) (ws : List (Write σ)) : Prop where
  writes : l'.session.writes = l.session.writes ++ ws
  locks : ∀ r, l.locks r → l'.locks r
  ids : ∀ n ∈ l.session.ids, n ∈ l'.session.ids
  seen : l.session.seen <:+ l'.session.seen
  uncommitted : Obs.committed ∈ l'.session.seen → Obs.committed ∈ l.session.seen

theorem Grows.trans {l₁ l₂ l₃ : Local σ} {ws vs : List (Write σ)}
    (h : Grows l₁ l₂ ws) (h' : Grows l₂ l₃ vs) : Grows l₁ l₃ (ws ++ vs) where
  writes := by rw [h'.writes, h.writes, List.append_assoc]
  locks := fun r hr => h'.locks r (h.locks r hr)
  ids := fun n hn => h'.ids n (h.ids n hn)
  seen := h.seen.trans h'.seen
  uncommitted := fun hc => h.uncommitted (h'.uncommitted hc)

theorem Grows.refl (l : Local σ) : Grows l l [] where
  writes := (List.append_nil _).symm
  locks := fun _ hr => hr
  ids := fun _ hn => hn
  seen := List.suffix_rfl
  uncommitted := fun hc => hc

/-- An observation that is not a commit. -/
class Answer {σ : Schema} (o : Obs σ) : Prop where
  ne : .committed ≠ o

instance (u : Store σ) : Answer (.saw u) := ⟨nofun⟩

instance (u : Store σ) : Answer (.scanning u) := ⟨nofun⟩

instance (t : σ.Table) (r : σ.Row t) : Answer (.kept t r) := ⟨nofun⟩

instance (c : σ.Call) (n : ℕ) : Answer (σ := σ) (.answered c n) := ⟨nofun⟩

theorem Grows.observe (l : Local σ) (o : Obs σ) [ho : Answer o] :
    Grows l (l.observe o) [] where
  writes := (List.append_nil _).symm
  locks := fun _ hr => hr
  ids := fun _ hn => hn
  seen := List.suffix_cons _ _
  uncommitted := fun hc => (List.mem_cons.mp hc).resolve_left ho.ne

theorem Grows.draw (l : Local σ) (n : ℕ) : Grows l (l.draw n) [] where
  writes := (List.append_nil _).symm
  locks := fun _ hr => hr
  ids := fun _ hn => List.mem_cons_of_mem n hn
  seen := List.suffix_rfl
  uncommitted := fun hc => hc

theorem Grows.lock (l : Local σ) (refs : List σ.Ref) :
    Grows l (l.lock refs) [] where
  writes := (List.append_nil _).symm
  locks := fun _ hr => Or.inr hr
  ids := fun _ hn => hn
  seen := List.suffix_rfl
  uncommitted := fun hc => hc

theorem Grows.lockAdd (l : Local σ) (refs : List σ.Ref)
    (ws : List (Write σ)) : Grows l ((l.lock refs).add ws) ws where
  writes := rfl
  locks := fun _ hr => Or.inr hr
  ids := fun _ hn => hn
  seen := List.suffix_rfl
  uncommitted := fun hc => hc

/-- A row kept by a locking statement. -/
theorem Grows.kept (l : Local σ) {t : σ.Table} (refs : List σ.Ref)
    (ws : List (Write σ)) (r : σ.Row t) :
    Grows l (((l.lock refs).add ws).observe (.kept t r)) ws where
  writes := rfl
  locks := fun _ hr => Or.inr hr
  ids := fun _ hn => hn
  seen := List.suffix_cons _ _
  uncommitted := fun hc => (List.mem_cons.mp hc).resolve_left (by simp)

theorem Rely.of_grows {ws : List (Write σ)} (h : C.Rely p l' s s')
    (hl : Grows l l' ws) : C.Rely p l s s' :=
  h.weaken hl.locks hl.ids

/-- Reads of a later local state see the writes in between. -/
theorem Grows.view {ws : List (Write σ)} (hl : Grows l l' ws)
    (s : Shared σ) : l'.view s = Store.view ws (l.view s) := by
  simp [Local.view, Session.view, hl.writes, Store.view_append]

/-- They see a row that was not written as it was. -/
theorem Grows.lookup_view {ws : List (Write σ)} (hl : Grows l l' ws)
    {t : σ.Table} {k : σ.Key} (hfresh : ∀ w ∈ ws, w.ref ≠ (t, k))
    (s : Shared σ) :
    (l'.view s t).lookup k = (l.view s t).lookup k := by
  rw [hl.view]
  exact Store.lookup_view_of_not_mem hfresh

/-- What a commit leaves behind. -/
theorem Makes.after_eq {c : Commit σ} (h : Makes p l s c) :
    c.after = Store.view l.session.writes s.store := by
  rw [Commit.after, Session.view, h.session, h.before]

/-- A row that stays locked until the commit is committed as it is. -/
theorem Makes.lookup_before {c : Commit σ} {l₀ : Local σ}
    (h : Makes p l' s' c) (hrely : C.Rely p l₀ s s') {t : σ.Table}
    {k : σ.Key} (hk : l₀.locks (t, k)) :
    (c.before t).lookup k = (s.store t).lookup k := by
  rw [h.before]
  exact hrely.lookup_eq hk

theorem view_of_writes_nil (h : l.session.writes = []) (s : Shared σ) :
    l.view s = s.store := by
  simp [Local.view, Session.view, h]

/-! ## Control -/

theorem wp_ret {a : α}
    (h : ∀ s', C.Rely p l s s' → C.inv s' → Q a l s') :
    C.wp p Q E (pure a) none l s :=
  ⟨rfl, h⟩

/-- A result that nobody asks anything of may be mapped. -/
theorem wp_map {x : Prog σ ε β} {g : β → α}
    {Q' : β → Local σ → Shared σ → Prop} (h : C.wp p Q' E x none l s)
    (hQ : ∀ b l s s', C.inv s → Q' b l s → C.Rely p l s s' → C.inv s' →
      Q (g b) l s') (hinv : C.inv s) :
    C.wp p Q E (g <$> x) none l s := by
  rw [map_eq_pure_bind]
  refine wp_bind (wp_mono h .none (fun b l s hi hb => ?_)
    (fun _ _ _ _ he => he) hinv) hinv
  exact wp_ret fun s' hrely hinv' => hQ b l s s' hi hb hrely hinv'

theorem wp_raise {e : ε}
    (h : ∀ s', C.Rely p l s s' → C.inv s' → E e l s') :
    C.wp p Q E (.raise e) none l s :=
  h

theorem wp_ensure_bind {c : Bool} {e : ε} {f : Unit → Prog σ ε α}
    (hpos : c = true → C.wp p Q E (f ()) none l s)
    (hneg : c = false → ∀ s', E e l s') :
    C.wp p Q E (Prog.ensure c e >>= f) none l s := by
  cases c with
  | true => exact hpos rfl
  | false => exact fun s' _ _ => hneg rfl s'

theorem wp_require_bind {o : Option β} {e : ε} {f : β → Prog σ ε α}
    (hsome : ∀ b, o = some b → C.wp p Q E (f b) none l s)
    (hnone : o = none → ∀ s', E e l s') :
    C.wp p Q E (Prog.require o e >>= f) none l s := by
  cases o with
  | some b => exact hsome b rfl
  | none => exact fun s' _ _ => hnone rfl s'

/-! ## Statements -/

theorem wp_select_bind {q : Store σ → β} {f : β → Prog σ ε α}
    (h : ∀ s', C.Rely p l s s' → C.inv s' →
      C.wp p Q E (f (q (l.view s'))) none (l.observe (.saw (l.view s'))) s') :
    C.wp p Q E (Prog.select q >>= f) none l s :=
  fun s' hrely hinv => ⟨trivial, h s' hrely hinv⟩

theorem wp_callOut_bind {c : σ.Call} {f : ℕ → Prog σ ε α}
    (h : ∀ n s', C.Rely p l s s' → C.inv s' →
      C.wp p Q E (f n) none (l.observe (.answered c n)) s') :
    C.wp p Q E (Prog.callOut c >>= f) none l s :=
  fun s' hrely hinv => ⟨trivial, fun n => h n s' hrely hinv⟩

/-- Drawing an identifier is a step that another client might have made. -/
theorem wp_freshId_bind {f : ℕ → Prog σ ε α}
    (h : ∀ n s', C.Rely p l s { s' with used := n :: s'.used } → C.inv s' →
      n ∉ s'.used →
      C.wp p Q E (f n) none (l.draw n) { s' with used := n :: s'.used }) :
    C.wp p Q E (Prog.freshId >>= f) none l s :=
  fun s' hrely hinv => ⟨trivial, fun n hn =>
    h n s' (Relation.ReflTransGen.tail hrely (.draw s' n hn)) hinv hn⟩

theorem wp_insertRow_bind {t : σ.Table} {r : σ.Row t}
    {f : Option σ.Key → Prog σ ε α}
    (hnew : ∀ s', C.Rely p l s s' → C.inv s' →
      (l.view s').conflict t r = none →
      C.wp p Q E (f none) none
        ((l.lock (World.insertRefs t r)).add [.put t r]) s')
    (hold : ∀ e s', C.Rely p l s s' → C.inv s' →
      (l.view s').conflict t r = some e →
      C.wp p Q E (f (some e)) none l s') :
    C.wp p Q E (Prog.insertRow t r >>= f) none l s := by
  change C.wp p Q E (.insert t r f) none l s
  rw [wp]
  intro s' hrely hinv
  refine ⟨trivial, ?_⟩
  cases hc : (l.view s').conflict t r with
  | some e => exact hold e s' hrely hinv hc
  | none => exact hnew s' hrely hinv hc

theorem wp_commitNow_bind {f : Unit → Prog σ ε α}
    (h : ∀ s' c, C.Rely p l s s' → C.inv s' → Makes p l s' c → C.assume c →
      C.guar c ∧ C.inv ⟨c.after, s'.used⟩ ∧
        C.wp p Q E (f ()) none l.committed ⟨c.after, s'.used⟩) :
    C.wp p Q E (Prog.commitNow >>= f) none l s := by
  intro s' hrely hinv
  refine ⟨trivial, fun c hc hassume => ?_⟩
  obtain ⟨hguar, hafter, hk⟩ := h s' c hrely hinv hc hassume
  exact ⟨hguar, hafter, trivial, hk⟩

/-- A program that ends with its commit. -/
theorem wp_commitNow {Q : Unit → Local σ → Shared σ → Prop}
    {E : ε → Local σ → Shared σ → Prop}
    (h : ∀ s' c, C.Rely p l s s' → C.inv s' → Makes p l s' c → C.assume c →
      C.guar c ∧ C.inv ⟨c.after, s'.used⟩ ∧
        C.wp p Q E (pure ()) none l.committed ⟨c.after, s'.used⟩) :
    C.wp p Q E Prog.commitNow none l s := by
  rw [← bind_pure (Prog.commitNow (σ := σ) (ε := ε))]
  exact wp_commitNow_bind h

theorem wp_rollbackNow_bind {f : Unit → Prog σ ε α}
    (h : ∀ s', C.Rely p l s s' → C.inv s' →
      C.wp p Q E (f ()) none l.rolledBack s') :
    C.wp p Q E (Prog.rollbackNow >>= f) none l s :=
  fun s' hrely hinv => ⟨trivial, h s' hrely hinv⟩

/-! ## Locking statements -/

theorem wp_locking_bind {t : σ.Table} {q : Scan σ t}
    {f : List (σ.Row t) → Prog σ ε α}
    (h : ∀ keys s', C.Rely p l s s' → C.inv s' →
      q.Visits (l.view s') keys →
      C.wpVisit p q none (fun rows l s => C.wp p Q E (f rows) none l s)
        keys [] (l.observe (.scanning (l.view s'))) s') :
    C.wp p Q E (Prog.locking q >>= f) none l s :=
  fun s' hrely hinv => ⟨trivial, fun keys hkeys => h keys s' hrely hinv hkeys⟩

/-- A statement that neither skips locked rows nor stops early. -/
structure Plain {t : σ.Table} (q : Scan σ t) : Prop where
  skipLocked : q.skipLocked = false
  limit : q.limit = none

theorem Plain.not_full {t : σ.Table} {q : Scan σ t} (hq : Plain q)
    (rows : List (σ.Row t)) : q.full rows ≠ true := by
  simp [Scan.full, hq.limit]

/-- The visit of one row, for a statement that waits for its lock. -/
theorem wpVisit_cons {t : σ.Table} {q : Scan σ t} (hq : Plain q)
    {post : List (σ.Row t) → Local σ → Shared σ → Prop} {key : σ.Key}
    {todo : List σ.Key} {acc : List (σ.Row t)}
    (h : ∀ s', C.Rely p l s s' → C.inv s' →
      match q.visit (l.view s') key with
      | .skip => C.wpVisit p q none post todo acc l s'
      | .failed => True
      | .keep r ws refs =>
          C.wpVisit p q none post todo (acc ++ [r])
            (((l.lock ((t, key) :: refs)).add ws).observe (.kept t r)) s') :
    C.wpVisit p q none post (key :: todo) acc l s := by
  intro s' hrely hinv
  rw [if_neg (hq.not_full acc)]
  refine ⟨trivial, ?_, h s' hrely hinv⟩
  intro hskip
  rw [hq.skipLocked] at hskip
  cases hskip

/-- The invariant rule for the visits of a locking statement. -/
theorem wpVisit_induct {t : σ.Table} {q : Scan σ t} {H : Guard σ}
    {post : List (σ.Row t) → Local σ → Shared σ → Prop}
    (P : List σ.Key → List (σ.Row t) → Local σ → Shared σ → Prop)
    (hrely : ∀ todo acc l s s', P todo acc l s → C.Rely p l s s' →
      C.inv s' → Fails H l s' ∧ P todo acc l s')
    (hstep : ∀ key todo acc l s, P (key :: todo) acc l s → C.inv s →
      q.full acc ≠ true →
      (q.skipLocked = true → P todo acc l s) ∧
        match q.visit (l.view s) key with
        | .skip => P todo acc l s
        | .failed => True
        | .keep r ws refs =>
            P todo (acc ++ [r])
              (((l.lock ((t, key) :: refs)).add ws).observe (.kept t r)) s)
    (hdone : ∀ todo acc l s, P todo acc l s → C.inv s →
      (todo = [] ∨ q.full acc = true) → post acc l s)
    {todo : List σ.Key} {acc : List (σ.Row t)} (h : P todo acc l s) :
    C.wpVisit p q H post todo acc l s := by
  induction todo generalizing acc l s with
  | nil =>
      intro s' hr hinv
      obtain ⟨hF, hP⟩ := hrely _ _ _ _ _ h hr hinv
      exact ⟨hF, hdone _ _ _ _ hP hinv (Or.inl rfl)⟩
  | cons key todo ih =>
      intro s' hr hinv
      obtain ⟨hF, hP⟩ := hrely _ _ _ _ _ h hr hinv
      refine ⟨hF, ?_⟩
      by_cases hfull : q.full acc = true
      · rw [if_pos hfull]
        exact hdone _ _ _ _ hP hinv (Or.inr hfull)
      · rw [if_neg hfull]
        obtain ⟨hskip, hvisit⟩ := hstep _ _ _ _ _ hP hinv hfull
        refine ⟨fun hs => ih (hskip hs), ?_⟩
        cases hout : q.visit (l.view s') key with
        | skip =>
            rw [hout] at hvisit
            exact ih hvisit
        | failed => trivial
        | keep r ws refs =>
            rw [hout] at hvisit
            exact ih hvisit

/-- What `SELECT ... FOR UPDATE` has returned: rows that satisfy the
predicate, locked and as they are now. -/
def LockedRows {t : σ.Table} (q : Scan σ t) (rows : List (σ.Row t))
    (l : Local σ) (s : Shared σ) : Prop :=
  ∀ r ∈ rows, (l.view s t).lookup (σ.key r) = some r ∧ q.pred r = true ∧
    l.locks (t, σ.key r)

theorem LockedRows.rely {t : σ.Table} {q : Scan σ t} {rows : List (σ.Row t)}
    (h : LockedRows q rows l s) (hrely : C.Rely p l s s') :
    LockedRows q rows l s' := by
  intro r hr
  obtain ⟨hlook, hpred, hlock⟩ := h r hr
  exact ⟨(hrely.lookup_view_eq hlock).trans hlook, hpred, hlock⟩

theorem LockedRows.keep {t : σ.Table} {q : Scan σ t} {rows : List (σ.Row t)}
    {key : σ.Key} {r : σ.Row t} (h : LockedRows q rows l s)
    (hlook : (l.view s t).lookup key = some r) (hpred : q.pred r = true) :
    LockedRows q (rows ++ [r])
      (((l.lock [(t, key)]).add []).observe (.kept t r)) s := by
  intro x hx
  rw [(Grows.kept l [(t, key)] [] r).view, Store.view_nil]
  rcases List.mem_append.mp hx with hx | hx
  · obtain ⟨hxlook, hxpred, hlocked⟩ := h x hx
    exact ⟨hxlook, hxpred, Or.inr hlocked⟩
  · obtain rfl := List.mem_singleton.mp hx
    rw [Relation.key_of_lookup hlook]
    exact ⟨hlook, hpred, Or.inl List.mem_cons_self⟩

/-- A candidate is gone when it is visited, or does not match any more, or
still matches. -/
theorem visit_cases {t : σ.Table} (q : Scan σ t) (db : Store σ) (k : σ.Key) :
    q.visit db k = .skip ∧
        (∀ r, (db t).lookup k = some r → q.pred r = false) ∨
      ∃ r, (db t).lookup k = some r ∧ q.pred r = true := by
  cases hlook : (db t).lookup k with
  | none =>
      refine Or.inl ⟨by simp [Scan.visit, hlook], fun r hr => ?_⟩
      cases hr
  | some r =>
      by_cases hpred : q.pred r = true
      · exact Or.inr ⟨r, rfl, hpred⟩
      · refine Or.inl ⟨by simp [Scan.visit, hlook, hpred], fun x hx => ?_⟩
        rw [← Option.some.inj hx]
        simpa using hpred

theorem visit_lock_cases {t : σ.Table} {q : Scan σ t}
    (hlock : ∀ r, q.effect r = .lock) (db : Store σ) (k : σ.Key) :
    q.visit db k = .skip ∨ ∃ r, (db t).lookup k = some r ∧
      q.pred r = true ∧ q.visit db k = .keep r [] [] := by
  rcases visit_cases q db k with ⟨hskip, -⟩ | ⟨r, hlook, hpred⟩
  · exact Or.inl hskip
  · exact Or.inr ⟨r, hlook, hpred, by simp [Scan.visit, hlook, hpred, hlock]⟩

/-- `SELECT ... FOR UPDATE` returns every row of its snapshot, except those
that it has found in a state `D` that lasts. -/
theorem wp_lockSnapshot_bind {t : σ.Table} {q : Scan σ t} (hq : Plain q)
    (hlock : ∀ r, q.effect r = .lock) (D : σ.Key → Shared σ → Prop)
    (hstable : ∀ k s₁ s₂, C.Rely p l s₁ s₂ → C.inv s₂ → D k s₁ → D k s₂)
    (hskip : ∀ k s₁ s₂ r, C.Rely p l s₁ s₂ → C.inv s₂ →
      (l.view s₁ t).lookup k = some r → q.pred r = true →
      q.visit (l.view s₂) k = .skip → D k s₂)
    {f : List (σ.Row t) → Prog σ ε α}
    (h : ∀ rows l' s₁ s', C.Rely p l s s₁ → C.inv s₁ → C.Rely p l s₁ s' →
      C.inv s' → Grows l l' [] →
      l'.session.seen = (rows.map (Obs.kept t)).reverse ++
        .scanning (l.view s₁) :: l.session.seen →
      LockedRows q rows l' s' →
      (∀ k r, (l.view s₁ t).lookup k = some r → q.pred r = true →
        D k s' ∨ ∃ r' ∈ rows, σ.key r' = k) →
      C.wp p Q E (f rows) none l' s') :
    C.wp p Q E (Prog.locking q >>= f) none l s := by
  apply wp_locking_bind
  intro keys s₁ h₁ hinv₁ hvisits
  refine wpVisit_induct (fun todo rows l' s' => C.Rely p l s₁ s' ∧
    Grows l l' [] ∧
    l'.session.seen = (rows.map (Obs.kept t)).reverse ++
      .scanning (l.view s₁) :: l.session.seen ∧
    LockedRows q rows l' s' ∧
    (∀ k ∈ todo, k ∈ keys) ∧
    ∀ k ∈ keys, k ∉ todo → D k s' ∨ ∃ r ∈ rows, σ.key r = k) ?_ ?_ ?_ ?_
  · rintro _ rows l₂ s₂ s₃ ⟨h₂, hgrows, hseen, hrows, htodo, hdone⟩ h₃ hinv₃
    have hbase := h₃.of_grows hgrows
    refine ⟨trivial, h₂.trans hbase, hgrows, hseen, hrows.rely h₃, htodo, ?_⟩
    intro k hk hnot
    rcases hdone k hk hnot with hD | hr
    · exact Or.inl (hstable k s₂ s₃ hbase hinv₃ hD)
    · exact Or.inr hr
  · rintro key todo rows l₂ s₂ ⟨h₂, hgrows, hseen, hrows, htodo, hdone⟩ hinv₂ _
    refine ⟨fun hskip => absurd hskip (by simp [hq.skipLocked]), ?_⟩
    have hrest : ∀ k ∈ todo, k ∈ keys :=
      fun k hk => htodo k (List.mem_cons_of_mem key hk)
    have hview : l₂.view s₂ = l.view s₂ := hgrows.view s₂
    rcases visit_lock_cases hlock (l₂.view s₂) key with
      hout | ⟨r, hlook, hpred, hkeep⟩
    · rw [hout]
      refine ⟨h₂, hgrows, hseen, hrows, hrest, fun k hk hnot => ?_⟩
      by_cases hkk : k = key
      · subst k
        obtain ⟨r₁, hr₁, hpred₁⟩ :=
          hvisits.mem_candidates.mp (htodo key List.mem_cons_self)
        exact Or.inl (hskip key s₁ s₂ r₁ h₂ hinv₂ hr₁ hpred₁ (hview ▸ hout))
      · exact hdone k hk (by simp [hkk, hnot])
    · rw [hkeep]
      have hg := Grows.kept l₂ [(t, key)] [] r
      have hkey := Relation.key_of_lookup hlook
      refine ⟨h₂, hgrows.trans hg, ?_, hrows.keep hlook hpred, hrest,
        fun k hk hnot => ?_⟩
      · simp [Local.observe, Session.observe, Local.add, Session.add,
          Local.lock, hseen]
      · by_cases hkk : k = key
        · exact Or.inr ⟨r, by simp, hkey.trans hkk.symm⟩
        · rcases hdone k hk (by simp [hkk, hnot]) with hD | ⟨x, hx, hxk⟩
          · exact Or.inl hD
          · exact Or.inr ⟨x, List.mem_append_left _ hx, hxk⟩
  · rintro todo rows l₂ s₂ ⟨h₂, hgrows, hseen, hrows, _, hdone⟩ hinv₂ hend
    refine h rows l₂ s₁ s₂ h₁ hinv₁ h₂ hinv₂ hgrows hseen hrows ?_
    intro k r hr hpred
    have htodo : todo = [] := hend.resolve_right (hq.not_full _)
    exact hdone k (hvisits.mem_candidates.mpr ⟨r, hr, hpred⟩) (by simp [htodo])
  · refine ⟨.refl, Grows.observe l _, rfl, ?_, fun _ hk => hk, ?_⟩
    · intro r hr
      cases hr
    · intro k hk hnot
      exact absurd hk hnot

theorem wp_lockRows_bind {t : σ.Table} {q : Scan σ t} (hq : Plain q)
    (hlock : ∀ r, q.effect r = .lock) {f : List (σ.Row t) → Prog σ ε α}
    (h : ∀ rows l' s', C.Rely p l s s' → C.inv s' → Grows l l' [] →
      LockedRows q rows l' s' → C.wp p Q E (f rows) none l' s') :
    C.wp p Q E (Prog.locking q >>= f) none l s := by
  refine wp_lockSnapshot_bind hq hlock (fun _ _ => True)
    (fun _ _ _ _ _ _ => trivial) (fun _ _ _ _ _ _ _ _ _ => trivial) ?_
  intro rows l' s₁ s' h₁ _ h₂ hinv₂ hgrows _ hrows _
  exact h rows l' s' (h₁.trans h₂) hinv₂ hgrows hrows

/-- `SELECT ... FOR UPDATE` that may skip rows and stop early: the rows that it
returns are locked and differ from one another. -/
theorem wp_lockSome_bind {t : σ.Table} {q : Scan σ t}
    (hlock : ∀ r, q.effect r = .lock) {f : List (σ.Row t) → Prog σ ε α}
    (h : ∀ rows l' s', C.Rely p l s s' → C.inv s' → Grows l l' [] →
      l'.session.calls = l.session.calls → LockedRows q rows l' s' →
      (rows.map σ.key).Nodup → C.wp p Q E (f rows) none l' s') :
    C.wp p Q E (Prog.locking q >>= f) none l s := by
  apply wp_locking_bind
  intro keys s₁ h₁ hinv₁ hvisits
  refine wpVisit_induct (fun todo rows l' s' => C.Rely p l s₁ s' ∧
    Grows l l' [] ∧ l'.session.calls = l.session.calls ∧
    LockedRows q rows l' s' ∧ (rows.map σ.key ++ todo).Nodup) ?_ ?_ ?_ ?_
  · rintro _ rows l₂ s₂ s₃ ⟨h₂, hgrows, hcalls, hrows, hnodup⟩ h₃ _
    exact ⟨trivial, h₂.trans (h₃.of_grows hgrows), hgrows, hcalls,
      hrows.rely h₃, hnodup⟩
  · rintro key todo rows l₂ s₂ ⟨h₂, hgrows, hcalls, hrows, hnodup⟩ _ _
    have hrest : (rows.map σ.key ++ todo).Nodup :=
      hnodup.sublist ((List.sublist_cons_self key todo).append_left _)
    refine ⟨fun _ => ⟨h₂, hgrows, hcalls, hrows, hrest⟩, ?_⟩
    rcases visit_lock_cases hlock (l₂.view s₂) key with
      hout | ⟨r, hlook, hpred, hkeep⟩
    · rw [hout]
      exact ⟨h₂, hgrows, hcalls, hrows, hrest⟩
    · rw [hkeep]
      have hg := Grows.kept l₂ [(t, key)] [] r
      have hkey := Relation.key_of_lookup hlook
      refine ⟨h₂, hgrows.trans hg, ?_, hrows.keep hlook hpred, ?_⟩
      · exact (Session.calls_observe_read _ rfl).trans hcalls
      · simpa [hkey] using hnodup
  · rintro _ rows l₂ s₂ ⟨h₂, hgrows, hcalls, hrows, hnodup⟩ hinv₂ _
    exact h rows l₂ s₂ (h₁.trans h₂) hinv₂ hgrows hcalls hrows
      (hnodup.sublist (List.sublist_append_left _ _))
  · refine ⟨.refl, Grows.observe l _, Session.calls_observe_read _ rfl, ?_,
      ?_⟩
    · intro r hr
      cases hr
    · exact hvisits.nodup

/-- What an `UPDATE` has done so far: `l'` has replaced rows `r` by `g r`,
which it has locked. -/
structure Updates {t : σ.Table} (q : Scan σ t) (g : σ.Row t → σ.Row t)
    (l l' : Local σ) (s : Shared σ) (ws : List (Write σ)) : Prop where
  grows : Grows l l' ws
  writes : ∀ w ∈ ws, ∃ r, w = .put t (g r) ∧ σ.key (g r) = σ.key r ∧
    (l.view s t).lookup (σ.key r) = some r ∧ q.pred r = true ∧
    l'.locks (t, σ.key r)

section Updates

variable {t : σ.Table} {q : Scan σ t} {g : σ.Row t → σ.Row t}
  {ws : List (Write σ)}

theorem Updates.rely (h : Updates q g l l' s ws) (hrely : C.Rely p l' s s') :
    Updates q g l l' s' ws where
  grows := h.grows
  writes := by
    intro w hw
    obtain ⟨r, hr, hkey, hlook, hpred, hlock⟩ := h.writes w hw
    exact ⟨r, hr, hkey,
      (Store.lookup_view_congr (hrely.lookup_eq hlock)).trans hlook, hpred,
      hlock⟩

theorem Updates.lookup (h : Updates q g l l' s ws) (k : σ.Key) :
    (∀ w ∈ ws, w.ref ≠ (t, k)) ∧
        (l'.view s t).lookup k = (l.view s t).lookup k ∨
      ∃ r, (l.view s t).lookup k = some r ∧
        (l'.view s t).lookup k = some (g r) := by
  rw [h.grows.view]
  refine Store.lookup_view_map (fun w hw => ?_) k
  obtain ⟨r, hr, hkey, hlook, _⟩ := h.writes w hw
  exact ⟨r, hr, hkey, hlook⟩

/-- The visit of a row that the statement has not touched yet. -/
theorem Updates.visit (h : Updates q g l l' s ws)
    (heffect : ∀ r, q.effect r = .write (g r)) {k : σ.Key}
    (hfresh : ∀ w ∈ ws, w.ref ≠ (t, k)) :
    q.visit (l'.view s) k = .failed ∨
      q.visit (l'.view s) k = .skip ∧
        (∀ r, (l.view s t).lookup k = some r → q.pred r = false) ∨
      ∃ r refs, q.visit (l'.view s) k = .keep (g r) [.put t (g r)] refs ∧
        Updates q g l (((l'.lock ((t, k) :: refs)).add
          [.put t (g r)]).observe (.kept t (g r))) s
          (ws ++ [.put t (g r)]) ∧ σ.key (g r) = k := by
  have hsame := h.grows.lookup_view hfresh s
  rcases visit_cases q (l'.view s) k with ⟨hskip, hgone⟩ | ⟨r, hlook, hpred⟩
  · exact Or.inr (Or.inl ⟨hskip, hsame ▸ hgone⟩)
  by_cases hok : σ.key (g r) = k ∧ (l'.view s).clash t (g r) = none
  · have hvisit : q.visit (l'.view s) k = .keep (g r) [.put t (g r)]
        ((σ.unique (g r)).map fun e => (t, e)) := by
      simp only [Scan.visit, hlook, if_pos hpred, heffect, if_pos hok]
    have hkey := Relation.key_of_lookup hlook
    rw [hsame] at hlook
    refine Or.inr (Or.inr ⟨r, _, hvisit, ⟨?_, ?_⟩, hok.1⟩)
    · exact h.grows.trans (Grows.kept _ _ _ _)
    · intro w hw
      rcases List.mem_append.mp hw with hw | hw
      · obtain ⟨x, hx, hxkey, hxlook, hxpred, hxlock⟩ := h.writes w hw
        exact ⟨x, hx, hxkey, hxlook, hxpred, Or.inr hxlock⟩
      · rw [List.mem_singleton] at hw
        exact ⟨r, hw, hok.1.trans hkey.symm, hkey ▸ hlook, hpred,
          Or.inl (hkey ▸ List.mem_cons_self)⟩
  · left
    simp only [Scan.visit, hlook, if_pos hpred, heffect, if_neg hok]

end Updates

/-- What a `DELETE` has done so far: `l'` has deleted rows, which it has
locked. -/
structure Deletes (t : σ.Table) (l l' : Local σ) (s : Shared σ)
    (ws : List (Write σ)) : Prop where
  grows : Grows l l' ws
  writes : ∀ w ∈ ws, ∃ k, w = .del t k ∧ l'.locks (t, k)

theorem Deletes.visit {t : σ.Table} {q : Scan σ t} {ws : List (Write σ)}
    (h : Deletes t l l' s ws) (heffect : ∀ r, q.effect r = .delete)
    {k : σ.Key} (hfresh : ∀ w ∈ ws, w.ref ≠ (t, k)) :
    q.visit (l'.view s) k = .skip ∧
        (∀ r, (l.view s t).lookup k = some r → q.pred r = false) ∨
      ∃ r refs, q.visit (l'.view s) k = .keep r [.del t k] refs ∧
        Deletes t l (((l'.lock ((t, k) :: refs)).add
          [.del t k]).observe (.kept t r)) s (ws ++ [.del t k]) := by
  have hsame := h.grows.lookup_view hfresh s
  rcases visit_cases q (l'.view s) k with ⟨hskip, hgone⟩ | ⟨r, hlook, hpred⟩
  · exact Or.inl ⟨hskip, hsame ▸ hgone⟩
  have hvisit : q.visit (l'.view s) k = .keep r [.del t k] [] := by
    simp only [Scan.visit, hlook, if_pos hpred, heffect]
  refine Or.inr ⟨r, [], hvisit, h.grows.trans (Grows.kept _ _ _ _), ?_⟩
  intro w hw
  rcases List.mem_append.mp hw with hw | hw
  · obtain ⟨j, hj, hlock⟩ := h.writes w hw
    exact ⟨j, hj, Or.inr hlock⟩
  · exact ⟨k, List.mem_singleton.mp hw, Or.inl List.mem_cons_self⟩

section Rows

variable {t : σ.Table} {q : Scan σ t}

/-- A statement that writes rows, under an invariant `U` of what it has done so
far, writes candidates of its snapshot, and leaves every one of them written
or, if it was skipped, in a state `D` that lasts. -/
theorem wp_writeRows_bind (hq : Plain q)
    (U : Local σ → Shared σ → List (Write σ) → Prop)
    (hgrows : ∀ l' s' ws, U l' s' ws → Grows l l' ws)
    (hrely : ∀ l' s₁ s₂ ws, U l' s₁ ws → C.Rely p l' s₁ s₂ → U l' s₂ ws)
    (hstart : ∀ s' o, U (l.observe (.scanning o)) s' [])
    (hvisit : ∀ l' s' ws k, U l' s' ws → (∀ w ∈ ws, w.ref ≠ (t, k)) →
      q.visit (l'.view s') k = .failed ∨
      q.visit (l'.view s') k = .skip ∧
        (∀ r, (l.view s' t).lookup k = some r → q.pred r = false) ∨
      ∃ r w refs, q.visit (l'.view s') k = .keep r [w] refs ∧
        w.ref = (t, k) ∧ U (((l'.lock ((t, k) :: refs)).add
          [w]).observe (.kept t r)) s' (ws ++ [w]))
    (D : σ.Key → Shared σ → Prop)
    (hstable : ∀ k s₁ s₂, C.Rely p l s₁ s₂ → C.inv s₂ → D k s₁ → D k s₂)
    (hskip : ∀ k s₁ s₂ r, C.Rely p l s₁ s₂ → C.inv s₂ →
      (l.view s₁ t).lookup k = some r → q.pred r = true →
      (∀ r', (l.view s₂ t).lookup k = some r' → q.pred r' = false) →
      D k s₂)
    {f : List (σ.Row t) → Prog σ ε α}
    (h : ∀ rows l' s₁ s' ws, C.Rely p l s s₁ → C.inv s₁ →
      C.Rely p l s₁ s' → C.inv s' → U l' s' ws →
      l'.session.seen = (rows.map (Obs.kept t)).reverse ++
        .scanning (l.view s₁) :: l.session.seen →
      (∀ w ∈ ws, ∃ k r, w.ref = (t, k) ∧ (l.view s₁ t).lookup k = some r ∧
        q.pred r = true) →
      (∀ k r, (l.view s₁ t).lookup k = some r → q.pred r = true →
        D k s' ∨ ∃ w ∈ ws, w.ref = (t, k)) →
      C.wp p Q E (f rows) none l' s') :
    C.wp p Q E (Prog.locking q >>= f) none l s := by
  apply wp_locking_bind
  intro keys s₁ h₁ hinv₁ hvisits
  refine wpVisit_induct (fun todo rows l' s' => ∃ ws, C.Rely p l s₁ s' ∧
    U l' s' ws ∧
    l'.session.seen = (rows.map (Obs.kept t)).reverse ++
      .scanning (l.view s₁) :: l.session.seen ∧
    todo.Nodup ∧ (∀ k ∈ todo, k ∈ keys ∧ ∀ w ∈ ws, w.ref ≠ (t, k)) ∧
    (∀ w ∈ ws, ∃ k ∈ keys, w.ref = (t, k)) ∧
    ∀ k ∈ keys, k ∉ todo → D k s' ∨ ∃ w ∈ ws, w.ref = (t, k)) ?_ ?_ ?_ ?_
  · rintro todo rows l₂ s₂ s₃ ⟨ws, h₂, hup, hseen, hnd, htodo, hmine, hdone⟩ h₃ hinv₃
    have hbase := h₃.of_grows (hgrows _ _ _ hup)
    refine ⟨trivial, ws, h₂.trans hbase, hrely _ _ _ _ hup h₃, hseen, hnd,
      htodo, hmine, ?_⟩
    intro k hk hnot
    rcases hdone k hk hnot with hD | hw
    · exact Or.inl (hstable k s₂ s₃ hbase hinv₃ hD)
    · exact Or.inr hw
  · rintro key todo rows l₂ s₂ ⟨ws, h₂, hup, hseen, hnd, htodo, hmine, hdone⟩ hinv₂ _
    refine ⟨fun hs => absurd hs (by simp [hq.skipLocked]), ?_⟩
    obtain ⟨hkeys, hfresh⟩ := htodo key List.mem_cons_self
    have hrest : ∀ k ∈ todo, k ∈ keys ∧ ∀ w ∈ ws, w.ref ≠ (t, k) :=
      fun k hk => htodo k (List.mem_cons_of_mem key hk)
    have hnd' := List.nodup_cons.mp hnd
    rcases hvisit _ _ _ key hup hfresh with
      hfail | ⟨hout, hmiss⟩ | ⟨r, v, refs, hout, hv, hup'⟩
    · simp only [hfail]
    · rw [hout]
      refine ⟨ws, h₂, hup, hseen, hnd'.2, hrest, hmine, ?_⟩
      intro k hk hnot
      by_cases hkk : k = key
      · subst k
        obtain ⟨r₁, hr₁, hpred₁⟩ := hvisits.mem_candidates.mp hkeys
        exact Or.inl (hskip key s₁ s₂ r₁ h₂ hinv₂ hr₁ hpred₁ hmiss)
      · exact hdone k hk (by simp [hkk, hnot])
    · rw [hout]
      refine ⟨_, h₂, hup', ?_, hnd'.2, ?_, ?_, ?_⟩
      · simp [Local.observe, Session.observe, Local.add, Session.add,
          Local.lock, hseen]
      · intro k hk
        refine ⟨(hrest k hk).1, fun w hw => ?_⟩
        rcases List.mem_append.mp hw with hw | hw
        · exact (hrest k hk).2 w hw
        · rw [List.mem_singleton.mp hw, hv]
          rintro href
          have hkk : key = k := (Prod.mk.inj href).2
          exact hnd'.1 (hkk ▸ hk)
      · intro w hw
        rcases List.mem_append.mp hw with hw | hw
        · exact hmine w hw
        · rw [List.mem_singleton.mp hw]
          exact ⟨key, hkeys, hv⟩
      · intro k hk hnot
        by_cases hkk : k = key
        · subst k
          exact Or.inr ⟨v, by simp, hv⟩
        · rcases hdone k hk (by simp [hkk, hnot]) with hD | ⟨w, hw, href⟩
          · exact Or.inl hD
          · exact Or.inr ⟨w, List.mem_append_left _ hw, href⟩
  · rintro todo rows l₂ s₂ ⟨ws, h₂, hup, hseen, _, _, hmine, hdone⟩ hinv₂ hend
    refine h rows l₂ s₁ s₂ ws h₁ hinv₁ h₂ hinv₂ hup hseen ?_ ?_
    · intro w hw
      obtain ⟨k, hk, href⟩ := hmine w hw
      obtain ⟨r, hr, hpred⟩ := hvisits.mem_candidates.mp hk
      exact ⟨k, r, href, hr, hpred⟩
    intro k r hr hpred
    have htodo : todo = [] := hend.resolve_right (hq.not_full _)
    exact hdone k (hvisits.mem_candidates.mpr ⟨r, hr, hpred⟩) (by simp [htodo])
  · refine ⟨[], .refl, hstart _ _, rfl, hvisits.nodup, ?_, ?_, ?_⟩
    · intro k hk
      exact ⟨hk, fun w hw => by cases hw⟩
    · intro w hw
      cases hw
    · intro k hk hnot
      exact absurd hk hnot

/-- An `UPDATE`. -/
theorem wp_updateRows_bind {g : σ.Row t → σ.Row t} (hq : Plain q)
    (heffect : ∀ r, q.effect r = .write (g r))
    (D : σ.Key → Shared σ → Prop)
    (hstable : ∀ k s₁ s₂, C.Rely p l s₁ s₂ → C.inv s₂ → D k s₁ → D k s₂)
    (hskip : ∀ k s₁ s₂ r, C.Rely p l s₁ s₂ → C.inv s₂ →
      (l.view s₁ t).lookup k = some r → q.pred r = true →
      (∀ r', (l.view s₂ t).lookup k = some r' → q.pred r' = false) →
      D k s₂)
    {f : List (σ.Row t) → Prog σ ε α}
    (h : ∀ rows l' s₁ s' ws, C.Rely p l s s₁ → C.inv s₁ →
      C.Rely p l s₁ s' → C.inv s' → Updates q g l l' s' ws →
      l'.session.seen = (rows.map (Obs.kept t)).reverse ++
        .scanning (l.view s₁) :: l.session.seen →
      (∀ w ∈ ws, ∃ k r, w.ref = (t, k) ∧ (l.view s₁ t).lookup k = some r ∧
        q.pred r = true) →
      (∀ k r, (l.view s₁ t).lookup k = some r → q.pred r = true →
        D k s' ∨ ∃ w ∈ ws, w.ref = (t, k)) →
      C.wp p Q E (f rows) none l' s') :
    C.wp p Q E (Prog.locking q >>= f) none l s := by
  refine wp_writeRows_bind hq (Updates q g l) (fun _ _ _ hup => hup.grows)
    (fun _ _ _ _ hup hrely => hup.rely hrely) ?_ ?_ D hstable hskip h
  · intro s' o
    refine ⟨Grows.observe l _, fun w hw => ?_⟩
    cases hw
  · intro l' s' ws k hup hfresh
    rcases hup.visit heffect hfresh with
      hfail | hmiss | ⟨r, refs, hout, hup', hkey⟩
    · exact Or.inl hfail
    · exact Or.inr (Or.inl hmiss)
    · exact Or.inr (Or.inr ⟨g r, _, refs, hout, congrArg (Prod.mk t) hkey, hup'⟩)

/-- A `DELETE`. -/
theorem wp_deleteRows_bind (hq : Plain q)
    (heffect : ∀ r, q.effect r = .delete) (D : σ.Key → Shared σ → Prop)
    (hstable : ∀ k s₁ s₂, C.Rely p l s₁ s₂ → C.inv s₂ → D k s₁ → D k s₂)
    (hskip : ∀ k s₁ s₂ r, C.Rely p l s₁ s₂ → C.inv s₂ →
      (l.view s₁ t).lookup k = some r → q.pred r = true →
      (∀ r', (l.view s₂ t).lookup k = some r' → q.pred r' = false) →
      D k s₂)
    {f : List (σ.Row t) → Prog σ ε α}
    (h : ∀ rows l' s₁ s' ws, C.Rely p l s s₁ → C.inv s₁ →
      C.Rely p l s₁ s' → C.inv s' → Deletes t l l' s' ws →
      (∀ w ∈ ws, ∃ k r, w = .del t k ∧ (l.view s₁ t).lookup k = some r ∧
        q.pred r = true) →
      (∀ k r, (l.view s₁ t).lookup k = some r → q.pred r = true →
        D k s' ∨ .del t k ∈ ws) →
      C.wp p Q E (f rows) none l' s') :
    C.wp p Q E (Prog.locking q >>= f) none l s := by
  have hdel : ∀ {l' s' ws k}, Deletes t l l' s' ws →
      ∀ w ∈ ws, w.ref = (t, k) → w = .del t k := by
    intro l' s' ws k hdeletes w hw href
    obtain ⟨j, rfl, _⟩ := hdeletes.writes w hw
    rw [(Prod.mk.inj href).2]
  refine wp_writeRows_bind hq (Deletes t l) (fun _ _ _ hdeletes =>
      hdeletes.grows) (fun _ _ _ _ hdeletes _ => ⟨hdeletes.grows,
      hdeletes.writes⟩) ?_ ?_ D hstable hskip ?_
  · intro s' o
    refine ⟨Grows.observe l _, fun w hw => ?_⟩
    cases hw
  · intro l' s' ws k hdeletes hfresh
    rcases hdeletes.visit heffect hfresh with
      hmiss | ⟨r, refs, hout, hdeletes'⟩
    · exact Or.inr (Or.inl hmiss)
    · exact Or.inr (Or.inr ⟨r, _, refs, hout, rfl, hdeletes'⟩)
  · intro rows l' s₁ s' ws h₁ hinv₁ h' hinv' hdeletes _ hmine hdone
    refine h rows l' s₁ s' ws h₁ hinv₁ h' hinv' hdeletes ?_ ?_
    · intro w hw
      obtain ⟨k, r, href, hr, hpred⟩ := hmine w hw
      exact ⟨k, r, hdel hdeletes w hw href, hr, hpred⟩
    · intro k r hr hpred
      rcases hdone k r hr hpred with hD | ⟨w, hw, href⟩
      · exact Or.inl hD
      · exact Or.inr (hdel hdeletes w hw href ▸ hw)

end Rows

/-- A statement whose predicate pins the primary key visits one row at most:
it reads the row in its snapshot, waits, and applies itself to the row as it
is then. -/
theorem wp_locking_key_bind {t : σ.Table} {q : Scan σ t} (hq : Plain q)
    (key : σ.Key) (hkey : ∀ r, q.pred r = true → σ.key r = key)
    {f : List (σ.Row t) → Prog σ ε α}
    (hnone : ∀ s', C.Rely p l s s' → C.inv s' →
      (∀ r ∈ (l.view s' t).rows, q.pred r = false) →
      C.wp p Q E (f []) none (l.observe (.scanning (l.view s'))) s')
    (hsome : ∀ s₁ s₂ r, C.Rely p l s s₁ → C.inv s₁ →
      (l.view s₁ t).lookup key = some r → q.pred r = true →
      C.Rely p l s₁ s₂ → C.inv s₂ →
      match q.visit (l.view s₂) key with
      | .skip =>
          C.wp p Q E (f []) none (l.observe (.scanning (l.view s₁))) s₂
      | .failed => True
      | .keep r ws refs =>
          C.wp p Q E (f [r]) none
            ((((l.observe (.scanning (l.view s₁))).lock
              ((t, key) :: refs)).add ws).observe (.kept t r)) s₂) :
    C.wp p Q E (Prog.locking q >>= f) none l s := by
  apply wp_locking_bind
  intro keys s₁ hrely hinv hvisits
  have hmem : ∀ k ∈ keys, k = key := by
    intro k hk
    obtain ⟨r, hr, hpred⟩ := hvisits.mem_candidates.mp hk
    rw [← Relation.key_of_lookup hr, hkey r hpred]
  match keys, hmem, hvisits.nodup, hvisits with
  | [], _, _, hvisits =>
      intro s₂ hrely₂ hinv₂
      refine ⟨trivial, wp_rely (hnone s₁ hrely hinv ?_) hrely₂⟩
      intro r hr
      by_contra hpred
      have : σ.key r ∈ [] := hvisits.mem_candidates.mpr
        ⟨r, Relation.lookup_key hr, by simpa using hpred⟩
      cases this
  | [k], hmem, _, hvisits =>
      obtain rfl : k = key := hmem k List.mem_cons_self
      obtain ⟨r, hr, hpred⟩ := hvisits.mem_candidates.mp List.mem_cons_self
      refine wpVisit_cons hq fun s₂ hrely₂ hinv₂ => ?_
      have hvisit := hsome s₁ s₂ r hrely hinv hr hpred hrely₂.of_observe hinv₂
      have hview : (l.observe (.scanning (l.view s₁))).view s₂ = l.view s₂ :=
        rfl
      rw [hview]
      cases hout : q.visit (l.view s₂) k with
      | skip =>
          rw [hout] at hvisit
          exact fun s₃ hrely₃ _ => ⟨trivial, wp_rely hvisit hrely₃⟩
      | failed => trivial
      | keep r ws refs =>
          rw [hout] at hvisit
          exact fun s₃ hrely₃ _ => ⟨trivial, wp_rely hvisit hrely₃⟩
  | k :: j :: rest, hmem, hnodup, _ =>
      have hkj : k = j :=
        (hmem k (by simp)).trans (hmem j (by simp)).symm
      simp [hkj] at hnodup

/-- An `UPDATE` of one row at most, which makes no calls. -/
theorem wp_updateOne_bind {t : σ.Table} {q : Scan σ t} (hq : Plain q)
    (key : σ.Key) (hkey : ∀ r, q.pred r = true → σ.key r = key)
    (heffect : ∀ r, q.effect r = .reject ∨ ∃ r', q.effect r = .write r')
    {f : List (σ.Row t) → Prog σ ε α}
    (hnone : ∀ l' s', C.Rely p l s s' → C.inv s' → Grows l l' [] →
      l'.session.calls = l.session.calls → C.wp p Q E (f []) none l' s')
    (hsome : ∀ l' s₁ s₂ r r', C.Rely p l s s₁ → C.inv s₁ →
      C.Rely p l s₁ s₂ → C.inv s₂ → (l.view s₂ t).lookup key = some r →
      q.pred r = true → q.effect r = .write r' → σ.key r' = key →
      Grows l l' [.put t r'] → l'.session.calls = l.session.calls →
      l'.locks (t, key) → C.wp p Q E (f [r']) none l' s₂) :
    C.wp p Q E (Prog.locking q >>= f) none l s := by
  refine wp_locking_key_bind hq key hkey ?_ ?_
  · intro s' h' hinv' _
    exact hnone _ s' h' hinv' (Grows.observe l _)
      (Session.calls_observe_read _ rfl)
  · intro s₁ s₂ _ h₁ hinv₁ _ _ h₂ hinv₂
    have hskip := hnone (l.observe (.scanning (l.view s₁))) s₂ (h₁.trans h₂)
      hinv₂ (Grows.observe l _) (Session.calls_observe_read _ rfl)
    rcases visit_cases q (l.view s₂) key with ⟨hgone, -⟩ | ⟨r, hlook, hpred⟩
    · rw [hgone]
      exact hskip
    rcases heffect r with hreject | ⟨r', hwrite⟩
    · simp only [Scan.visit, hlook, if_pos hpred, hreject]
    · simp only [Scan.visit, hlook, if_pos hpred, hwrite]
      by_cases hok : σ.key r' = key ∧ (l.view s₂).clash t r' = none
      · simp only [if_pos hok]
        exact hsome _ s₁ s₂ r r' h₁ hinv₁ h₂ hinv₂ hlook hpred hwrite
          hok.1 ((Grows.observe l _).trans (Grows.kept _ _ _ _))
          ((Session.calls_observe_read _ rfl).trans
            (Session.calls_observe_read _ rfl))
          (Or.inl List.mem_cons_self)
      · simp only [if_neg hok]

theorem wp_updateWhere_bind {t : σ.Table} {q : Scan σ t} (hq : Plain q)
    (key : σ.Key) (hkey : ∀ r, q.pred r = true → σ.key r = key)
    (heffect : ∀ r, q.effect r = .reject ∨ ∃ r', q.effect r = .write r')
    {f : List (σ.Row t) → Prog σ ε α}
    (hnone : ∀ l' s', C.Rely p l s s' → C.inv s' → Grows l l' [] →
      C.wp p Q E (f []) none l' s')
    (hsome : ∀ l' s₁ s₂ r r', C.Rely p l s s₁ → C.inv s₁ →
      C.Rely p l s₁ s₂ → C.inv s₂ → (l.view s₂ t).lookup key = some r →
      q.pred r = true → q.effect r = .write r' → σ.key r' = key →
      Grows l l' [.put t r'] → l'.locks (t, key) →
      C.wp p Q E (f [r']) none l' s₂) :
    C.wp p Q E (Prog.locking q >>= f) none l s :=
  wp_updateOne_bind hq key hkey heffect
    (fun l' s' h' hinv' hg _ => hnone l' s' h' hinv' hg)
    fun l' s₁ s₂ r r' h₁ hinv₁ h₂ hinv₂ hlook hpred hwrite hrkey hg _ =>
      hsome l' s₁ s₂ r r' h₁ hinv₁ h₂ hinv₂ hlook hpred hwrite hrkey hg

/-! ## Statements on one row -/

theorem wp_insertOrHalt_bind {t : σ.Table} {r : σ.Row t}
    {f : Unit → Prog σ ε α}
    (h : ∀ l' s', C.Rely p l s s' → C.inv s' →
      (l.view s').conflict t r = none → Grows l l' [.put t r] →
      (∀ x ∈ World.insertRefs t r, l'.locks x) →
      C.wp p Q E (f ()) none l' s') :
    C.wp p Q E (Prog.insertOrHalt t r >>= f) none l s := by
  change C.wp p Q E (Prog.insertRow t r >>= fun e => Prog.bind f _) none l s
  apply wp_insertRow_bind
  · intro s' hrely hinv hnone
    exact h _ s' hrely hinv hnone (Grows.lockAdd l _ _) fun x hx => Or.inl hx
  · intro e s' _ _ _
    exact wp_halt

theorem plain_byKey {t : σ.Table} {k : σ.Key}
    {effect : σ.Row t → Effect (σ.Row t)} : Plain (Prog.byKey k effect) :=
  ⟨rfl, rfl⟩

theorem key_of_byKey {t : σ.Table} {k : σ.Key}
    {effect : σ.Row t → Effect (σ.Row t)} {r : σ.Row t}
    (h : (Prog.byKey k effect).pred r = true) : σ.key r = k := by
  simpa [Prog.byKey] using h

theorem visit_byKey {t : σ.Table} {k : σ.Key}
    {effect : σ.Row t → Effect (σ.Row t)} {db : Store σ} {r : σ.Row t}
    (h : (db t).lookup k = some r) (hlock : effect r = .lock) :
    (Prog.byKey k effect).visit db k = .keep r [] [] := by
  have hkey := Relation.key_of_lookup h
  simp [Scan.visit, h, Prog.byKey, hkey, hlock]

/-- Locking one row by its primary key. -/
theorem wp_lockKey_bind {t : σ.Table} {k : σ.Key}
    {f : List (σ.Row t) → Prog σ ε α}
    (hnone : ∀ l' s', C.Rely p l s s' → C.inv s' → Grows l l' [] →
      (l.view s' t).lookup k = none → C.wp p Q E (f []) none l' s')
    (hsome : ∀ l' s' r, C.Rely p l s s' → C.inv s' → Grows l l' [] →
      (l.view s' t).lookup k = some r → l'.locks (t, k) →
      C.wp p Q E (f [r]) none l' s') :
    C.wp p Q E (Prog.locking (Prog.byKey k fun _ => .lock) >>= f)
      none l s := by
  refine wp_locking_key_bind plain_byKey k (fun r => key_of_byKey) ?_ ?_
  · intro s₁ h₁ hinv₁ hrows
    refine hnone _ s₁ h₁ hinv₁ (Grows.observe l _) ?_
    rw [Relation.lookup_eq_none_iff]
    intro r hr hkey
    simpa [Prog.byKey, hkey] using hrows r hr
  · intro s₁ s₂ _ h₁ _ _ _ h₂ hinv₂
    cases hlook : (l.view s₂ t).lookup k with
    | none =>
        simp only [Scan.visit, hlook]
        exact hnone _ s₂ (h₁.trans h₂) hinv₂ (Grows.observe l _) hlook
    | some r =>
        rw [visit_byKey hlook rfl]
        exact hsome _ s₂ r (h₁.trans h₂) hinv₂
          ((Grows.observe l _).trans (Grows.kept _ _ _ _)) hlook
          (Or.inl List.mem_cons_self)

/-- An `UPDATE` of one row that may violate a constraint of the table. -/
theorem wp_alterKey_bind {t : σ.Table} {k : σ.Key}
    {effect : σ.Row t → Effect (σ.Row t)}
    (heffect : ∀ r, effect r = .reject ∨ ∃ r', effect r = .write r')
    {f : Unit → Prog σ ε α}
    (h : ∀ l' s₁ s₂ r r', C.Rely p l s s₁ → C.inv s₁ →
      C.Rely p l s₁ s₂ → C.inv s₂ → (l.view s₂ t).lookup k = some r →
      effect r = .write r' → σ.key r' = k → Grows l l' [.put t r'] →
      l'.locks (t, k) → C.wp p Q E (f ()) none l' s₂) :
    C.wp p Q E (Prog.alterKey t k effect >>= f) none l s := by
  change C.wp p Q E (Prog.locking (Prog.byKey k effect) >>=
    fun rows => Prog.bind f _) none l s
  refine wp_updateWhere_bind plain_byKey k (fun r => key_of_byKey) heffect
    (fun _ _ _ _ _ => wp_halt) ?_
  intro l' s₁ s₂ r r' h₁ hinv₁ h₂ hinv₂ hlook _ hwrite hkey hgrows hlock
  exact h l' s₁ s₂ r r' h₁ hinv₁ h₂ hinv₂ hlook hwrite hkey hgrows hlock

theorem wp_updateKey_bind {t : σ.Table} {k : σ.Key}
    {g : σ.Row t → σ.Row t} {f : Unit → Prog σ ε α}
    (h : ∀ l' s₁ s₂ r, C.Rely p l s s₁ → C.inv s₁ →
      C.Rely p l s₁ s₂ → C.inv s₂ → (l.view s₂ t).lookup k = some r →
      σ.key (g r) = k → Grows l l' [.put t (g r)] → l'.locks (t, k) →
      C.wp p Q E (f ()) none l' s₂) :
    C.wp p Q E (Prog.updateKey t k g >>= f) none l s := by
  refine wp_alterKey_bind (fun r => Or.inr ⟨g r, rfl⟩) ?_
  intro l' s₁ s₂ r r' h₁ hinv₁ h₂ hinv₂ hlook hwrite hkey hgrows hlock
  cases hwrite
  exact h l' s₁ s₂ r h₁ hinv₁ h₂ hinv₂ hlook hkey hgrows hlock

/-- An `UPDATE` of a row that is held already finds that row. -/
theorem wp_updateHeld_bind {t : σ.Table} {k : σ.Key} {r : σ.Row t}
    {g : σ.Row t → σ.Row t} (hlook : (l.view s t).lookup k = some r)
    (hlock : l.locks (t, k)) {f : Unit → Prog σ ε α}
    (h : ∀ l' s', C.Rely p l s s' → C.inv s' → σ.key (g r) = k →
      Grows l l' [.put t (g r)] → l'.session.calls = l.session.calls →
      C.wp p Q E (f ()) none l' s') :
    C.wp p Q E (Prog.updateKey t k g >>= f) none l s := by
  change C.wp p Q E (Prog.locking (Prog.byKey k fun x => .write (g x)) >>=
    fun rows => Prog.bind f _) none l s
  refine wp_locking_key_bind plain_byKey k (fun r => key_of_byKey)
    (fun _ _ _ _ => wp_halt) ?_
  intro s₁ s₂ _ h₁ _ _ _ h₂ hinv₂
  have hrely := h₁.trans h₂
  have hnow : (l.view s₂ t).lookup k = some r :=
    (hrely.lookup_view_eq hlock).trans hlook
  have hkey := Relation.key_of_lookup hnow
  by_cases hok : σ.key (g r) = k ∧ (l.view s₂).clash t (g r) = none
  · have hvisit : (Prog.byKey k fun x => .write (g x)).visit (l.view s₂) k =
        .keep (g r) [.put t (g r)]
          ((σ.unique (g r)).map fun e => (t, e)) := by
      simp [Scan.visit, hnow, Prog.byKey, hkey, hok]
    simp only [hvisit]
    refine h _ s₂ hrely hinv₂ hok.1
      ((Grows.observe l _).trans (Grows.kept _ _ _ _)) ?_
    exact (Session.calls_observe_read _ rfl).trans
      (Session.calls_observe_read _ rfl)
  · have hvisit : (Prog.byKey k fun x => .write (g x)).visit (l.view s₂) k =
        .failed := by
      simp only [Scan.visit, hnow, Prog.byKey, hkey, decide_true, if_true,
        if_neg hok]
    simp only [hvisit]

/-- A `DELETE` whose predicate pins the primary key. -/
theorem wp_deleteWhere_bind {t : σ.Table} {q : Scan σ t} (hq : Plain q)
    (key : σ.Key) (hkey : ∀ r, q.pred r = true ↔ σ.key r = key)
    (heffect : ∀ r, q.effect r = .delete)
    {f : List (σ.Row t) → Prog σ ε α}
    (hnone : ∀ l' s', C.Rely p l s s' → C.inv s' →
      (l.view s' t).lookup key = none → Grows l l' [] →
      C.wp p Q E (f []) none l' s')
    (hsome : ∀ l' s₁ s₂ r, C.Rely p l s s₁ → C.inv s₁ →
      C.Rely p l s₁ s₂ → C.inv s₂ → (l.view s₂ t).lookup key = some r →
      Grows l l' [.del t key] → l'.locks (t, key) →
      C.wp p Q E (f [r]) none l' s₂) :
    C.wp p Q E (Prog.locking q >>= f) none l s := by
  refine wp_locking_key_bind hq key (fun r => (hkey r).mp) ?_ ?_
  · intro s' hrely hinv hrows
    refine hnone _ s' hrely hinv ?_ (Grows.observe l _)
    rw [Relation.lookup_eq_none_iff]
    intro r hr hrkey
    have hpred := hrows r hr
    rw [(hkey r).mpr hrkey] at hpred
    cases hpred
  · intro s₁ s₂ r₁ hrely₁ hinv₁ _ _ hrely₂ hinv₂
    cases hlook : (l.view s₂ t).lookup key with
    | none =>
        simp only [Scan.visit, hlook]
        exact hnone _ s₂ (hrely₁.trans hrely₂) hinv₂ hlook
          (Grows.observe l _)
    | some r =>
        have hpred := (hkey r).mpr (Relation.key_of_lookup hlook)
        simp only [Scan.visit, hlook, if_pos hpred, heffect]
        exact hsome _ s₁ s₂ r hrely₁ hinv₁ hrely₂ hinv₂ hlook
          ((Grows.observe l _).trans (Grows.kept _ _ _ _))
          (Or.inl List.mem_cons_self)

/-- A `DELETE` of one row, which the statement may have found missing. -/
theorem wp_deleteKey_bind {t : σ.Table} {k : σ.Key} {f : Unit → Prog σ ε α}
    (hnone : ∀ l' s', C.Rely p l s s' → C.inv s' →
      (l.view s' t).lookup k = none → Grows l l' [] →
      C.wp p Q E (f ()) none l' s')
    (hsome : ∀ l' s₁ s₂ r, C.Rely p l s s₁ → C.inv s₁ →
      C.Rely p l s₁ s₂ → C.inv s₂ → (l.view s₂ t).lookup k = some r →
      Grows l l' [.del t k] → l'.locks (t, k) →
      C.wp p Q E (f ()) none l' s₂) :
    C.wp p Q E (Prog.deleteKey t k >>= f) none l s := by
  change C.wp p Q E (Prog.locking (Prog.byKey k fun _ => .delete) >>=
    fun _ => f ()) none l s
  exact wp_deleteWhere_bind plain_byKey k (fun r => by simp [Prog.byKey])
    (fun _ => rfl) hnone hsome

end Contract
end ReadCommitted
