import Workstream.ReadCommitted.Soundness
import Workstream.ReadCommitted.Rules

/-!
# Requests that commit once

What a request commits is described once, for every contract: `Accepts` is all
that a contract has to say about it.  A description refers to the stores that
the request has left behind through `Past`, which is interference under the
locks that it has held since; without interference it is the store on which
the request commits.
-/

namespace ReadCommitted

variable {σ : Schema} {ε α β : Type}

namespace Contract

variable (C : Contract σ) (p : Pid)

/-- `db` was the committed store when `p`, which is at `s` now, took the last
one of `refs` or later. -/
def Past (s : Shared σ) (refs : List σ.Ref) (db : Store σ) : Prop :=
  ∃ used, C.inv ⟨db, used⟩ ∧
    C.Rely p { locks := fun r => r ∈ refs } ⟨db, used⟩ s

/-- The contract accepts the first commit of `p` if it satisfies `G`. -/
def Accepts (G : (List σ.Ref → Store σ → Prop) → Commit σ → Prop) : Prop :=
  ∀ l s c, C.inv s → Makes p l s c → C.assume c →
    Obs.committed ∉ c.session.seen → G (C.Past p s) c →
    C.guar c ∧ C.inv ⟨c.after, s.used⟩

/-- From `l` and `s` the client has come to `l'` and `s'` by writing `ws`. -/
structure Along (l : Local σ) (s : Shared σ) (ws : List (Write σ))
    (l' : Local σ) (s' : Shared σ) : Prop where
  grows : Grows l l' ws
  rely : C.Rely p l s s'

variable {C p} {l l' l'' : Local σ} {s s' s'' : Shared σ}
  {ws vs : List (Write σ)} {refs : List σ.Ref} {db : Store σ}

theorem Along.refl (l : Local σ) (s : Shared σ) : C.Along p l s [] l s :=
  ⟨Grows.refl l, .refl⟩

theorem Along.trans (h : C.Along p l s ws l' s')
    (h' : C.Along p l' s' vs l'' s'') :
    C.Along p l s (ws ++ vs) l'' s'' where
  grows := h.grows.trans h'.grows
  rely := h.rely.trans (h'.rely.of_grows h.grows)

theorem Along.wait (h : C.Along p l s ws l' s') (h' : C.Rely p l' s' s'') :
    C.Along p l s ws l' s'' where
  grows := h.grows
  rely := h.rely.trans (h'.of_grows h.grows)

theorem Along.observe (h : C.Rely p l s s') (o : Obs σ) [Answer o] :
    C.Along p l s [] (l.observe o) s' :=
  ⟨Grows.observe l o, h⟩

theorem Along.draw (h : C.Rely p l s s') (n : ℕ) :
    C.Along p l s [] (l.draw n) s' :=
  ⟨Grows.draw l n, h⟩

theorem Along.insert (h : C.Rely p l s s') (t : σ.Table) (r : σ.Row t) :
    C.Along p l s [.put t r]
      ((l.lock (World.insertRefs t r)).add [.put t r]) s' :=
  ⟨Grows.lockAdd l _ _, h⟩

theorem Along.lookup (h : C.Along p l s ws l' s') {t : σ.Table} {k : σ.Key}
    (hk : l.locks (t, k)) :
    (s'.store t).lookup k = (s.store t).lookup k :=
  h.rely.lookup_eq hk

theorem Along.past (h : C.Along p l s ws l' s') (hinv : C.inv s)
    (hrefs : ∀ r ∈ refs, l.locks r) : C.Past p s' refs s.store := by
  refine ⟨s.used, hinv, h.rely.weaken hrefs ?_⟩
  intro n hn
  cases hn

theorem Along.past_nil (h : C.Along p l s ws l' s') (hinv : C.inv s) :
    C.Past p s' [] s.store :=
  h.past hinv fun r hr => by cases hr

theorem Past.wait (h : C.Past p s refs db) (h' : C.Rely p l s s')
    (hrefs : ∀ r ∈ refs, l.locks r) : C.Past p s' refs db := by
  obtain ⟨used, hinv, hrely⟩ := h
  refine ⟨used, hinv, hrely.trans (h'.weaken hrefs ?_)⟩
  intro n hn
  cases hn

/-- A row that has been locked along the way is committed as it was. -/
theorem Along.committed (h : C.Along p l s ws l' s') {c : Commit σ}
    (hc : Makes p l' s' c) {t : σ.Table} {k : σ.Key} (hk : l.locks (t, k)) :
    (c.before t).lookup k = (s.store t).lookup k := by
  rw [hc.before]
  exact h.lookup hk

/-- What the whole transaction has written. -/
theorem Along.writes (h : C.Along p {} s ws l' s') : l'.session.writes = ws :=
  h.grows.writes

theorem Along.uncommitted (h : C.Along p {} s ws l' s') :
    Obs.committed ∉ l'.session.seen :=
  fun hc => absurd (h.grows.uncommitted hc) List.not_mem_nil

/-! ## Rules -/

/-- An error leaves nothing behind. -/
def Unwritten : ε → Local σ → Shared σ → Prop :=
  fun _ l _ => l.session.writes = [] ∧ Obs.committed ∉ l.session.seen

/-- `prog` is a request all of whose commits are accepted. -/
abbrev Requests (C : Contract σ) (p : Pid) (prog : Prog σ ε α)
    (l : Local σ) (s : Shared σ) : Prop :=
  C.wp p (fun _ _ _ => True) Unwritten prog none l s

theorem unwritten_of_grows {e : ε} (h : Grows {} l []) : Unwritten e l s :=
  ⟨h.writes, fun hc => absurd (h.uncommitted hc) List.not_mem_nil⟩

theorem unwritten_rolledBack {e : ε} (h : Grows {} l ws) :
    Unwritten e l.rolledBack s :=
  ⟨rfl, fun hc => absurd (h.uncommitted hc) List.not_mem_nil⟩

theorem requests_ret (a : α) :
    Requests C p (pure a : Prog σ ε α) l s :=
  wp_ret fun _ _ _ => trivial

variable {G : (List σ.Ref → Store σ → Prop) → Commit σ → Prop}

/-- The commit of a request. -/
theorem requests_commit_bind (hG : C.Accepts p G) {s₀ : Shared σ}
    (h : C.Along p {} s₀ ws l s) {f : Unit → Prog σ ε α}
    (hcommit : ∀ s' c, C.Rely p l s s' → C.inv s' → Makes p l s' c →
      c.session.writes = ws → G (C.Past p s') c)
    (hf : ∀ l s, Requests C p (f ()) l s) :
    Requests C p (Prog.commitNow >>= f) l s := by
  refine wp_commitNow_bind fun s' c h' hinv hc hassume => ?_
  have hfirst : Obs.committed ∉ c.session.seen := by
    rw [hc.session]
    exact h.uncommitted
  have hwrites : c.session.writes = ws := by
    rw [hc.session, h.writes]
  obtain ⟨hguar, hafter⟩ := hG l s' c hinv hc hassume hfirst
    (hcommit s' c h' hinv hc hwrites)
  exact ⟨hguar, hafter, hf _ _⟩

theorem requests_commit (hG : C.Accepts p G) {s₀ : Shared σ}
    (h : C.Along p {} s₀ ws l s)
    (hcommit : ∀ s' c, C.Rely p l s s' → C.inv s' → Makes p l s' c →
      c.session.writes = ws → G (C.Past p s') c) :
    Requests C p (Prog.commitNow : Prog σ ε Unit) l s := by
  rw [← bind_pure (Prog.commitNow (σ := σ) (ε := ε))]
  exact requests_commit_bind hG h hcommit fun _ _ => requests_ret ()

theorem requests_map {x : Prog σ ε β} {g : β → α}
    (h : Requests C p x l s) (hinv : C.inv s) :
    Requests C p (g <$> x) l s :=
  wp_map h (fun _ _ _ _ _ _ _ _ => trivial) hinv

end Contract

/-! ## A request on its own -/

namespace World

open Contract

/-- Client `0` runs `prog`, and nobody else does anything. -/
def solo (s : Store σ) (prog : Prog σ ε α) : World σ ε α :=
  start s fun p => if p = 0 then prog else .halt

end World

/-- The client has answered, has raised an error to its caller, or is gone. -/
inductive Proc.Stopped (P : Proc σ ε α) : Prop where
  | returned (a : α) (h : P.prog = .ret a)
  | raised (e : ε) (h : P.error = some e)
  | gone (h : P.prog = .halt)

/-- `prog` can run to its end on its own, from `s` to `s'`. -/
structure Completes (s : Store σ) (prog : Prog σ ε α) (s' : Store σ) :
    Prop where
  run : ∃ w, Reachable (World.solo s prog) w ∧ (w.procs 0).Stopped ∧
    w.store = s'

namespace Contract

open World

/-- Only `p` commits, once, and keeps `G`. -/
def alone (p : Pid) (G : Commit σ → Prop) : Contract σ where
  inv := fun _ => True
  assume := fun _ => True
  guar := fun c => c.pid = p ∧ Obs.committed ∉ c.session.seen ∧ G c
  inv_draw := fun _ _ _ h => h

/-- Without interference the past is the present. -/
theorem past_alone {p : Pid} {G : Commit σ → Prop} {s : Shared σ} :
    (alone p G).Past p s = fun _ db => db = s.store := by
  funext refs db
  apply propext
  constructor
  · rintro ⟨used, _, hrely⟩
    refine (hrely.induct (P := fun u => db = u.store) rfl ?_)
    intro u v henv hu
    cases henv with
    | commit c hpid _ _ _ _ hguar => exact absurd hguar.1 hpid
    | draw => exact hu
  · rintro rfl
    exact ⟨s.used, trivial, .refl⟩

theorem accepts_alone {p : Pid}
    (G : (List σ.Ref → Store σ → Prop) → Commit σ → Prop) :
    (alone p fun c => G (fun _ db => db = c.before) c).Accepts p G := by
  intro l s c _ hc _ hfirst hG
  rw [past_alone] at hG
  refine ⟨⟨hc.pid, hfirst, ?_⟩, trivial⟩
  change G (fun _ db => db = c.before) c
  rw [hc.before]
  exact hG

end Contract

namespace World

variable {w : World σ ε α}

/-- A client that has committed knows it when it commits again. -/
theorem committed_of_older {s₀ : Store σ} {code : Pid → Prog σ ε α}
    (h : Reachable (start s₀ code) w) (newer : List (Commit σ))
    {older : List (Commit σ)} {c d : Commit σ}
    (hlog : w.log = newer ++ d :: older) (hc : c ∈ older)
    (hpid : c.pid = d.pid) : Obs.committed ∈ d.session.seen := by
  induction h generalizing newer with
  | start => simp [start] at hlog
  | @step w w' p x hprev hstep ih =>
      rcases (change_of_advance hstep).log with ⟨hsame, _⟩ | ⟨_, hnew, _⟩
      · exact ih newer (hsame ▸ hlog)
      · rw [hnew] at hlog
        cases newer with
        | nil =>
            obtain ⟨rfl, rfl⟩ := List.cons.inj hlog
            have hobs := (wellFormed_of_reachable hprev).observed c hc
            rw [hpid] at hobs
            exact hobs
        | cons n newer => exact ih newer (List.cons.inj hlog).2

theorem Change.ids_mono {w' : World σ ε α} {p : Pid} (h : Change w p w')
    (q : Pid) : ∀ n ∈ (w.session q).ids, n ∈ (w'.session q).ids := by
  intro n hn
  by_cases hq : q = p
  · subst q
    rcases h.ids with ⟨hids, _⟩ | ⟨m, _, hids, _⟩
    · rwa [hids]
    · rw [hids]
      exact List.mem_cons_of_mem m hn
  · rwa [h.session_of_ne hq]

theorem Change.seen_suffix {w' : World σ ε α} {p : Pid} (h : Change w p w')
    (q : Pid) : (w.session q).seen <:+ (w'.session q).seen := by
  by_cases hq : q = p
  · subst q
    exact h.seen.1
  · exact h.session_of_ne hq ▸ List.suffix_rfl

/-- What a client has observed when it commits, it keeps. -/
theorem seen_of_log {s₀ : Store σ} {code : Pid → Prog σ ε α}
    (h : Reachable (start s₀ code) w) :
    ∀ c ∈ w.log, c.session.seen <:+ (w.session c.pid).seen := by
  induction h with
  | start => simp [start]
  | @step w w' p x hprev hstep ih =>
      have hchange := change_of_advance hstep
      intro c hc
      rcases hchange.log with ⟨hsame, _⟩ | ⟨_, hnew, _⟩
      · exact (ih c (hsame ▸ hc)).trans (hchange.seen_suffix c.pid)
      · rw [hnew] at hc
        rcases List.mem_cons.mp hc with rfl | hc
        · exact hchange.seen_suffix p
        · exact (ih c hc).trans (hchange.seen_suffix c.pid)

/-- Nothing that has been observed or committed is lost. -/
theorem history_of_reachable {w' : World σ ε α} (h : Reachable w w') :
    w.log <:+ w'.log ∧
      ∀ q, (w.session q).seen <:+ (w'.session q).seen := by
  induction h with
  | start => exact ⟨List.suffix_rfl, fun q => List.suffix_rfl⟩
  | @step u v p x _ hstep ih =>
      obtain ⟨hlog, hseen⟩ := ih
      have hchange := change_of_advance hstep
      refine ⟨hlog.trans ?_, fun q => (hseen q).trans (hchange.seen_suffix q)⟩
      rcases hchange.log with ⟨hsame, _⟩ | ⟨_, hnew, _⟩
      · exact hsame ▸ List.suffix_rfl
      · exact hnew ▸ List.suffix_cons _ _

/-- The identifiers with which a client has committed are its own. -/
theorem ids_of_log {s₀ : Store σ} {code : Pid → Prog σ ε α}
    (h : Reachable (start s₀ code) w) :
    ∀ c ∈ w.log, ∀ n ∈ c.session.ids, n ∈ (w.session c.pid).ids := by
  induction h with
  | start => simp [start]
  | @step w w' p x hprev hstep ih =>
      have hchange := change_of_advance hstep
      intro c hc n hn
      refine hchange.ids_mono c.pid n ?_
      rcases hchange.log with ⟨hsame, _⟩ | ⟨_, hnew, _⟩
      · exact ih c (hsame ▸ hc) n hn
      · rw [hnew] at hc
        rcases List.mem_cons.mp hc with rfl | hc
        · exact hn
        · exact ih c hc n hn

/-- Clients that commit once commit with different identifiers. -/
theorem disjoint_ids {s₀ : Store σ} {code : Pid → Prog σ ε α}
    (h : Reachable (start s₀ code) w)
    (hfirst : ∀ c ∈ w.log, Obs.committed ∉ c.session.seen) :
    w.log.Pairwise fun d c => ∀ n ∈ d.session.ids, n ∉ c.session.ids := by
  induction h with
  | start => exact List.Pairwise.nil
  | @step w w' p x hprev hstep ih =>
      rcases (change_of_advance hstep).log with ⟨hsame, _⟩ | ⟨_, hnew, _⟩
      · rw [hsame] at hfirst ⊢
        exact ih hfirst
      · rw [hnew] at hfirst ⊢
        have hwf := wellFormed_of_reachable hprev
        refine List.pairwise_cons.mpr ⟨fun c hc n hn hnc => ?_,
          ih fun c hc => hfirst c (List.mem_cons_of_mem _ hc)⟩
        have hpid : p ≠ c.pid := by
          rintro rfl
          exact hfirst _ List.mem_cons_self (hwf.observed c hc)
        exact hwf.idsDisjoint p c.pid hpid n hn (ids_of_log hprev c hc n hnc)

end World

section Solo

open Contract World

variable {s s' : Store σ} {prog : Prog σ ε α}
  {G : (List σ.Ref → Store σ → Prop) → Commit σ → Prop}

/-- A request on its own commits nothing, or once and on the store on which
it has started. -/
theorem solo_log
    (hprog : ∀ (C : Contract σ) p u, C.Accepts p G → C.inv u →
      Requests C p prog {} u)
    {w : World σ ε α} (h : Reachable (solo s prog) w) :
    w.log = [] ∧ w.store = s ∨ ∃ c, w.log = [c] ∧
      G (fun _ db => db = s) c ∧ c.before = s ∧ c.after = w.store := by
  have hcode : ∀ p, (alone 0 fun c => G (fun _ db => db = c.before) c).wp p
      (fun _ _ _ => True) Unwritten (if p = 0 then prog else .halt) none {}
        ⟨s, []⟩ := by
    intro p
    by_cases hp : p = 0
    · subst p
      rw [if_pos rfl]
      exact hprog _ 0 _ (accepts_alone G) trivial
    · rw [if_neg hp]
      exact wp_halt
  have hsound := sound (Q := fun _ _ _ _ => True) (E := fun _ => Unwritten)
    trivial hcode h fun _ _ => trivial
  have hchain := (wellFormed_of_reachable h).chain
  match hlog : w.log with
  | [] =>
      rw [hlog] at hchain
      exact Or.inl ⟨rfl, hchain⟩
  | [c] =>
      rw [hlog] at hchain
      obtain ⟨hafter, hchain⟩ := hchain
      have hbefore : c.before = s := hchain
      have hG : G (fun _ db => db = c.before) c :=
        (hsound.guar c (by simp [hlog])).2.2
      rw [hbefore] at hG
      exact Or.inr ⟨c, rfl, hG, hbefore, hafter.symm⟩
  | d :: c :: older =>
      have hd := hsound.guar d (by simp [hlog])
      have hc := hsound.guar c (by simp [hlog])
      exact absurd (committed_of_older h [] hlog List.mem_cons_self
        (hc.1.trans hd.1.symm)) hd.2.1

theorem Completes.cases (h : Completes s prog s')
    (hprog : ∀ (C : Contract σ) p u, C.Accepts p G → C.inv u →
      Requests C p prog {} u) :
    s' = s ∨ ∃ c, G (fun _ db => db = s) c ∧ c.before = s ∧ c.after = s' := by
  obtain ⟨w, hreach, _, rfl⟩ := h.run
  rcases solo_log hprog hreach with ⟨_, hstore⟩ | ⟨c, _, hc⟩
  · exact Or.inl hstore
  · exact Or.inr ⟨c, hc⟩

end Solo

/-! ## One request after the other -/

/-- A request that was completed, and the stores before and after it. -/
structure Turn (σ : Schema) (ρ : Type) where
  request : ρ
  before : Store σ
  after : Store σ

/-- Completed requests, newest first, lead from `s₀` to `s`. -/
def Turns {ρ : Type} (serve : ρ → Prog σ ε α) (s₀ : Store σ) :
    List (Turn σ ρ) → Store σ → Prop
  | [], s => s = s₀
  | t :: ts, s => s = t.after ∧ Completes t.before (serve t.request) t.after ∧
      Turns serve s₀ ts t.before

section Turns

variable {ρ : Type} {serve : ρ → Prog σ ε α} {s₀ s : Store σ}
  {ts : List (Turn σ ρ)}
  {G : ρ → (List σ.Ref → Store σ → Prop) → Commit σ → Prop}

/-- The turn of a request has done nothing, or what the request commits. -/
def Turn.Does (t : Turn σ ρ) (G : (List σ.Ref → Store σ → Prop) →
    Commit σ → Prop) : Prop :=
  t.after = t.before ∨ ∃ c, G (fun _ db => db = t.before) c ∧
    c.before = t.before ∧ c.after = t.after

/-- Induction along completed requests. -/
theorem Turns.induction (h : Turns serve s₀ ts s)
    (hserve : ∀ r (C : Contract σ) p u, C.Accepts p (G r) → C.inv u →
      Contract.Requests C p (serve r) {} u)
    {P : List (Turn σ ρ) → Store σ → Prop} (hnil : P [] s₀)
    (hcons : ∀ t ts, P ts t.before → t.Does (G t.request) →
      P (t :: ts) t.after) : P ts s := by
  induction ts generalizing s with
  | nil => exact h ▸ hnil
  | cons t ts ih =>
      obtain ⟨rfl, hcompletes, hts⟩ := h
      exact hcons t ts (ih hts) (hcompletes.cases (hserve t.request))

/-- Turns up to `t` and turns from there on. -/
theorem Turns.split {t : Turn σ ρ} {newer older : List (Turn σ ρ)}
    (h : Turns serve s₀ (newer ++ t :: older) s) :
    Turns serve s₀ (t :: older) t.after ∧ Turns serve t.after newer s := by
  induction newer generalizing s with
  | nil => exact ⟨⟨rfl, h.2⟩, h.1⟩
  | cons n newer ih =>
      obtain ⟨holder, hnewer⟩ := ih h.2.2
      exact ⟨holder, h.1, h.2.1, hnewer⟩

end Turns

/-! ## Runs on given inputs -/

namespace World

/-- The client of a world of its own has stopped. -/
def stopped (w : World σ ε α) : Bool :=
  match (w.procs 0).prog with
  | .ret _ => true
  | .halt => true
  | .raise _ => (w.procs 0).guard.isNone
  | _ => false

/-- Where a schedule leads the client to. -/
def outcome (s : Store σ) (prog : Prog σ ε α) (xs : List (Input σ)) :
    Store σ :=
  match (solo s prog).run (xs.map fun x => (0, x)) with
  | some w => w.store
  | none => s

end World

open World in
theorem completes_outcome {s : Store σ} {prog : Prog σ ε α}
    {xs : List (Input σ)}
    (h : ((solo s prog).run (xs.map fun x => (0, x))).any stopped = true) :
    Completes s prog (outcome s prog xs) := by
  obtain ⟨w, hrun, hstopped⟩ := (Option.any_eq_true _ _).mp h
  refine ⟨w, Reachable.start.run hrun, ?_, by rw [outcome, hrun]⟩
  unfold stopped at hstopped
  split at hstopped
  · next a hprog => exact .returned a hprog
  · next hprog => exact .gone hprog
  · next e hprog =>
      refine .raised e ?_
      rw [Option.isNone_iff_eq_none] at hstopped
      simp [Proc.error, hprog, hstopped]
  · cases hstopped

end ReadCommitted
