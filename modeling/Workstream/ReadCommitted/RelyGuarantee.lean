import Mathlib.Logic.Relation
import Workstream.ReadCommitted.Invariants

/-!
# Rely-guarantee reasoning about clients

A contract states an invariant of the committed store, what every commit
guarantees to the other clients, and what may be assumed of commits.  The
weakest precondition `wp` of a program is taken under interference: between
two statements other clients may commit anything that the contract lets them,
as long as they hold neither our locks nor our identifiers.  Clients are
verified one at a time, and `sound` puts any number of them together.
-/

namespace ReadCommitted

variable {σ : Schema} {ε α β : Type}

/-- The state that all clients share. -/
structure Shared (σ : Schema) where
  store : Store σ
  used : List ℕ

/-- The state that a client keeps to itself. -/
structure Local (σ : Schema) where
  session : Session σ := {}
  locks : σ.Ref → Prop := fun _ => False

namespace Local

variable (l : Local σ)

def view (s : Shared σ) : Store σ := l.session.view s.store

def observe (o : Obs σ) : Local σ :=
  { l with session := l.session.observe o }

def add (ws : List (Write σ)) : Local σ :=
  { l with session := l.session.add ws }

def draw (n : ℕ) : Local σ :=
  { l with session := l.session.draw n }

def lock (refs : List σ.Ref) : Local σ :=
  { l with locks := fun r => r ∈ refs ∨ l.locks r }

def rolledBack : Local σ where
  session := l.session.discard

def committed : Local σ where
  session := l.session.discard.observe .committed

end Local

/-- What the clients of a database promise each other. -/
structure Contract (σ : Schema) where
  inv : Shared σ → Prop
  assume : Commit σ → Prop
  guar : Commit σ → Prop
  inv_draw : ∀ s n, n ∉ s.used → inv s → inv { s with used := n :: s.used }

namespace Contract

variable (C : Contract σ) (p : Pid)

/-- What another client may do while `p` is in local state `l`. -/
inductive Env (l : Local σ) : Shared σ → Shared σ → Prop where
  | commit {used : List ℕ} (c : Commit σ) (hpid : c.pid ≠ p)
      (hinv : C.inv ⟨c.before, used⟩)
      (hlocks : ∀ r, c.Held r → ¬ l.locks r)
      (hids : ∀ n ∈ c.session.ids, n ∉ l.session.ids)
      (hframed : c.Framed) (hguar : C.guar c) :
      Env l ⟨c.before, used⟩ ⟨c.after, used⟩
  | draw (s : Shared σ) (n : ℕ) (hn : n ∉ s.used) :
      Env l s { s with used := n :: s.used }

def Rely (l : Local σ) : Shared σ → Shared σ → Prop :=
  Relation.ReflTransGen (C.Env p l)

/-- `P` holds now and stays true under interference. -/
def Always (l : Local σ) (s : Shared σ) (P : Shared σ → Prop) : Prop :=
  ∀ s', C.Rely p l s s' → C.inv s' → P s'

variable {C p}

theorem Always.mono {l : Local σ} {s : Shared σ} {P P' : Shared σ → Prop}
    (h : C.Always p l s P) (hP : ∀ s', C.inv s' → P s' → P' s') :
    C.Always p l s P' := by
  intro s' hrely hinv
  exact hP s' hinv (h s' hrely hinv)

theorem Always.rely {l : Local σ} {s s' : Shared σ} {P : Shared σ → Prop}
    (h : C.Always p l s P) (hrely : C.Rely p l s s') : C.Always p l s' P := by
  intro s'' hrely' hinv
  exact h s'' (hrely.trans hrely') hinv

theorem Always.now {l : Local σ} {s : Shared σ} {P : Shared σ → Prop}
    (h : C.Always p l s P) (hinv : C.inv s) : P s :=
  h s .refl hinv

theorem Rely.refl {l : Local σ} {s : Shared σ} : C.Rely p l s s :=
  Relation.ReflTransGen.refl

theorem Rely.trans {l : Local σ} {s₁ s₂ s₃ : Shared σ}
    (h : C.Rely p l s₁ s₂) (h' : C.Rely p l s₂ s₃) : C.Rely p l s₁ s₃ :=
  Relation.ReflTransGen.trans h h'

/-- A property that every step of another client preserves survives any
interference. -/
theorem Rely.induct {l : Local σ} {s s' : Shared σ} {P : Shared σ → Prop}
    (h : C.Rely p l s s') (hP : P s)
    (hstep : ∀ u v, C.Env p l u v → P u → P v) : P s' := by
  induction h with
  | refl => exact hP
  | tail _ henv ih => exact hstep _ _ henv ih

/-- Nobody touches a row that is locked by us. -/
theorem Rely.lookup_eq {l : Local σ} {s s' : Shared σ}
    (h : C.Rely p l s s') {t : σ.Table} {k : σ.Key} (hk : l.locks (t, k)) :
    (s'.store t).lookup k = (s.store t).lookup k := by
  refine h.induct (P := fun u => (u.store t).lookup k = (s.store t).lookup k)
    rfl ?_
  intro u v henv hu
  cases henv with
  | commit c _ _ hlocks _ hframed =>
      rw [hframed.lookup_eq fun hheld => hlocks _ hheld hk]
      exact hu
  | draw => exact hu

/-- The same, through our own writes. -/
theorem Rely.lookup_view_eq {l : Local σ} {s s' : Shared σ}
    (h : C.Rely p l s s') {t : σ.Table} {k : σ.Key} (hk : l.locks (t, k)) :
    (l.view s' t).lookup k = (l.view s t).lookup k :=
  Store.lookup_view_congr (h.lookup_eq hk)

end Contract

/-! ## Weakest preconditions -/

/-- What has to hold when a statement fails: nothing, unless a handler takes
over. -/
abbrev Guard (σ : Schema) : Type := Option (Local σ → Shared σ → Prop)

def Fails (H : Guard σ) (l : Local σ) (s : Shared σ) : Prop :=
  match H with
  | none => True
  | some h => h l.rolledBack s

@[simp] theorem fails_none (l : Local σ) (s : Shared σ) :
    Fails none l s := trivial

/-- Under the invariant `I`, a handler may be replaced by one that asks for
less. -/
inductive Guard.Le (I : Shared σ → Prop) : Guard σ → Guard σ → Prop where
  | none : Le I none none
  | some {h h' : Local σ → Shared σ → Prop}
      (hle : ∀ l s, I s → h l s → h' l s) : Le I (some h) (some h')

theorem Fails.mono {I : Shared σ → Prop} {H H' : Guard σ} {l : Local σ}
    {s : Shared σ} (hF : Fails H l s) (hH : Guard.Le I H H') (hI : I s) :
    Fails H' l s := by
  cases hH with
  | none => trivial
  | some hle => exact hle _ _ hI hF

/-- Guards that may stand in for one another while a program goes on. -/
structure Guard.Simulates (I : Shared σ → Prop)
    (R : Guard σ → Guard σ → Prop) : Prop where
  some : ∀ {h h' : Local σ → Shared σ → Prop},
    (∀ l s, I s → h l s → h' l s) → R (some h) (some h')
  none : R none none
  not_none : ∀ {h}, ¬ R (Option.some h) Option.none
  fails : ∀ {H H' l s}, R H H' → I s → Fails H l s → Fails H' l s

theorem Guard.simulates_le (I : Shared σ → Prop) :
    Guard.Simulates I (Guard.Le I) where
  some := .some
  none := .none
  not_none := by
    intro h hle
    cases hle
  fails := fun hle hI hF => hF.mono hle hI

/-- A handler that may run in any state stands in for none. -/
inductive Guard.Ready (I : Shared σ → Prop) : Guard σ → Guard σ → Prop where
  | le {H H' : Guard σ} (h : Guard.Le I H H') : Ready I H H'
  | ready {h : Local σ → Shared σ → Prop}
      (hready : ∀ (l : Local σ) (s : Shared σ), I s → h l.rolledBack s) :
      Ready I none (some h)

theorem Guard.simulates_ready (I : Shared σ → Prop) :
    Guard.Simulates I (Guard.Ready I) where
  some := fun h => .le (.some h)
  none := .le .none
  not_none := by
    rintro h (hle | _)
    cases hle
  fails := by
    rintro H H' l s (hle | hready) hI hF
    · exact hF.mono hle hI
    · exact hready l s hI

namespace Contract

variable (C : Contract σ) (p : Pid)

/-- Visiting the remaining candidates of a locking statement. -/
def wpVisit {t : σ.Table} (q : Scan σ t) (H : Guard σ)
    (post : List (σ.Row t) → Local σ → Shared σ → Prop) :
    List σ.Key → List (σ.Row t) → Local σ → Shared σ → Prop
  | [], acc, l, s => C.Always p l s fun s' => Fails H l s' ∧ post acc l s'
  | key :: todo, acc, l, s =>
      C.Always p l s fun s' => Fails H l s' ∧
        if q.full acc then post acc l s'
        else
          (q.skipLocked = true → wpVisit q H post todo acc l s') ∧
            match q.visit (l.view s') key with
            | .skip => wpVisit q H post todo acc l s'
            | .failed => True
            | .keep r ws refs =>
                wpVisit q H post todo (acc ++ [r])
                  (((l.lock ((t, key) :: refs)).add ws).observe (.kept t r))
                  s'

/-- The commit that `p` makes in local state `l` and shared state `s`. -/
structure Makes (l : Local σ) (s : Shared σ) (c : Commit σ) : Prop where
  pid : c.pid = p
  session : c.session = l.session
  before : c.before = s.store
  held : ∀ r, c.Held r ↔ l.locks r
  framed : c.Framed
  ids : ∀ n ∈ c.session.ids, n ∈ s.used

/-- `prog` may run from `l` and `s`: it keeps the contract, returns only with
`Q` and without a handler, and raises only with `E`. -/
def wp (Q : α → Local σ → Shared σ → Prop)
    (E : ε → Local σ → Shared σ → Prop) :
    Prog σ ε α → Guard σ → Local σ → Shared σ → Prop
  | .ret a, H, l, s => H = none ∧ C.Always p l s (Q a l)
  | .raise e, H, l, s =>
      C.Always p l s fun s' =>
        match H with
        | none => E e l s'
        | some h => h l.rolledBack s'
  | .halt, H, l, s => C.Always p l s (Fails H l)
  | .query k, H, l, s =>
      C.Always p l s fun s' => Fails H l s' ∧
        wp Q E (k (l.view s')) H (l.observe (.saw (l.view s'))) s'
  | .scan _ q k, H, l, s =>
      C.Always p l s fun s' => Fails H l s' ∧
        ∀ keys, q.Visits (l.view s') keys →
          C.wpVisit p q H (fun rows l s => wp Q E (k rows) H l s) keys []
            (l.observe (.scanning (l.view s'))) s'
  | .visit _ q todo acc k, H, l, s =>
      C.wpVisit p q H (fun rows l s => wp Q E (k rows) H l s) todo acc l s
  | .insert t r k, H, l, s =>
      C.Always p l s fun s' => Fails H l s' ∧
        match (l.view s').conflict t r with
        | some e => wp Q E (k (some e)) H l s'
        | none =>
            wp Q E (k none) H
              ((l.lock (World.insertRefs t r)).add [.put t r]) s'
  | .fresh k, H, l, s =>
      C.Always p l s fun s' => Fails H l s' ∧
        ∀ n, n ∉ s'.used →
          wp Q E (k n) H (l.draw n) { s' with used := n :: s'.used }
  | .call c k, H, l, s =>
      C.Always p l s fun s' => Fails H l s' ∧
        ∀ n, wp Q E (k n) H (l.observe (.answered c n)) s'
  | .commit k, H, l, s =>
      C.Always p l s fun s' => Fails H l s' ∧
        ∀ c, Makes p l s' c → C.assume c →
          C.guar c ∧ C.inv ⟨c.after, s'.used⟩ ∧
            Fails H l.committed ⟨c.after, s'.used⟩ ∧
            wp Q E k H l.committed ⟨c.after, s'.used⟩
  | .rollback k, H, l, s =>
      C.Always p l s fun s' => Fails H l s' ∧ wp Q E k H l.rolledBack s'
  | .guarded h k, H, l, s =>
      C.Always p l s fun s' => Fails H l s' ∧
        wp Q E k (some fun l s => wp Q E h none l s) l s'
  | .unguard k, H, l, s =>
      C.Always p l s fun s' => Fails H l s' ∧ wp Q E k none l s'

variable {C p}

/-- A client without a handler may stop. -/
theorem wp_halt {Q : α → Local σ → Shared σ → Prop}
    {E : ε → Local σ → Shared σ → Prop} {l : Local σ} {s : Shared σ} :
    C.wp p Q E .halt none l s :=
  fun _ _ _ => trivial

theorem wpVisit_rely {t : σ.Table} {q : Scan σ t} {H : Guard σ}
    {post : List (σ.Row t) → Local σ → Shared σ → Prop}
    {todo : List σ.Key} {acc : List (σ.Row t)} {l : Local σ}
    {s s' : Shared σ} (h : C.wpVisit p q H post todo acc l s)
    (hrely : C.Rely p l s s') : C.wpVisit p q H post todo acc l s' := by
  cases todo with
  | nil => exact Always.rely h hrely
  | cons key todo => exact Always.rely h hrely

section Rules

variable {Q Q' : α → Local σ → Shared σ → Prop}
  {E : ε → Local σ → Shared σ → Prop} {H H' : Guard σ} {l : Local σ}
  {s s' : Shared σ}

/-- A weakest precondition survives interference. -/
theorem wp_rely {prog : Prog σ ε α} (h : C.wp p Q E prog H l s)
    (hrely : C.Rely p l s s') : C.wp p Q E prog H l s' := by
  cases prog with
  | ret a => exact ⟨h.1, h.2.rely hrely⟩
  | visit t q todo acc k => exact wpVisit_rely h hrely
  | _ =>
      rw [wp] at h ⊢
      exact h.rely hrely

/-- Client `p` may be judged by `D` instead of `C`: the others promise at least
as much, and what `p` promises is implied. -/
structure Refines (C D : Contract σ) (p : Pid) : Prop where
  inv : ∀ s, D.inv s ↔ C.inv s
  assume : ∀ c, D.assume c → C.assume c
  guar : ∀ c, D.guar c → C.guar c
  keeps : ∀ c, c.pid = p → D.assume c → C.guar c → D.guar c

theorem Refines.refl (C : Contract σ) (p : Pid) : C.Refines C p where
  inv := fun _ => Iff.rfl
  assume := fun _ h => h
  guar := fun _ h => h
  keeps := fun _ _ _ h => h

variable {D : Contract σ}

/-- Others that promise more interfere less. -/
theorem rely_mono (hinv : ∀ s, D.inv s → C.inv s)
    (hguar : ∀ c, D.guar c → C.guar c) (h : D.Rely p l s s') :
    C.Rely p l s s' := by
  refine Relation.ReflTransGen.mono (fun u v henv => ?_) _ _ h
  cases henv with
  | commit c hpid hbefore hlocks hids hframed hpromise =>
      exact .commit c hpid (hinv _ hbefore) hlocks hids hframed
        (hguar c hpromise)
  | draw _ n hn => exact .draw _ n hn

theorem Refines.rely (hD : C.Refines D p) (h : D.Rely p l s s') :
    C.Rely p l s s' :=
  rely_mono (fun s => (hD.inv s).mp) hD.guar h

theorem Always.refine (hD : C.Refines D p) {P P' : Shared σ → Prop}
    (h : C.Always p l s P) (hP : ∀ s', C.inv s' → P s' → P' s') :
    D.Always p l s P' := by
  intro s' hrely hinv
  have hinv' := (hD.inv s').mp hinv
  exact hP s' hinv' (h s' (hD.rely hrely) hinv')

theorem wpVisit_refine (hD : C.Refines D p) {t : σ.Table} {q : Scan σ t}
    {post post' : List (σ.Row t) → Local σ → Shared σ → Prop}
    {todo : List σ.Key} {acc : List (σ.Row t)}
    (h : C.wpVisit p q H post todo acc l s)
    (hfails : ∀ l s, C.inv s → Fails H l s → Fails H' l s)
    (hpost : ∀ rows l s, C.inv s → post rows l s → post' rows l s) :
    D.wpVisit p q H' post' todo acc l s := by
  induction todo generalizing acc l s with
  | nil =>
      exact Always.refine hD h fun s' hinv hs =>
        ⟨hfails _ _ hinv hs.1, hpost acc l s' hinv hs.2⟩
  | cons key todo ih =>
      refine Always.refine hD h fun s' hinv hs => ⟨hfails _ _ hinv hs.1, ?_⟩
      have hrest := hs.2
      by_cases hfull : q.full acc = true
      · rw [if_pos hfull] at hrest ⊢
        exact hpost acc l s' hinv hrest
      · rw [if_neg hfull] at hrest ⊢
        refine ⟨fun hskip => ih (hrest.1 hskip), ?_⟩
        have hvisit := hrest.2
        cases hout : q.visit (l.view s') key with
        | skip =>
            rw [hout] at hvisit
            exact ih hvisit
        | failed => trivial
        | keep r ws refs =>
            rw [hout] at hvisit
            exact ih hvisit

/-- Another contract, and weaker postconditions. -/
theorem wp_refine (hD : C.Refines D p)
    {E' : ε → Local σ → Shared σ → Prop} {prog : Prog σ ε α}
    (h : C.wp p Q E prog H l s) (hH : Guard.Le C.inv H H')
    (hQ : ∀ a l s, C.inv s → Q a l s → Q' a l s)
    (hE : ∀ e l s, C.inv s → E e l s → E' e l s) (hinv : C.inv s) :
    D.wp p Q' E' prog H' l s := by
  induction prog generalizing H H' l s with
  | ret a =>
      obtain ⟨rfl, hret⟩ := h
      cases hH
      exact ⟨rfl, hret.refine hD fun s' hinv' hs => hQ _ _ _ hinv' hs⟩
  | raise e =>
      rw [wp] at *
      cases hH with
      | none => exact h.refine hD fun s' hinv' hs => hE _ _ _ hinv' hs
      | some hle => exact h.refine hD fun s' hinv' hs => hle _ _ hinv' hs
  | halt =>
      rw [wp] at *
      exact h.refine hD fun s' hinv' hs => hs.mono hH hinv'
  | query k ih =>
      rw [wp] at *
      exact h.refine hD fun s' hinv' hs =>
        ⟨hs.1.mono hH hinv', ih _ hs.2 hH hinv'⟩
  | scan t q k ih =>
      rw [wp] at *
      exact h.refine hD fun s' hinv' hs =>
        ⟨hs.1.mono hH hinv', fun keys hkeys =>
          wpVisit_refine hD (hs.2 keys hkeys) (fun _ _ hi hF => hF.mono hH hi)
            fun rows l s hi hrows => ih rows hrows hH hi⟩
  | visit t q todo acc k ih =>
      rw [wp] at *
      exact wpVisit_refine hD h (fun _ _ hi hF => hF.mono hH hi)
        fun rows l s hi hrows => ih rows hrows hH hi
  | insert t r k ih =>
      rw [wp] at *
      refine h.refine hD fun s' hinv' hs => ⟨hs.1.mono hH hinv', ?_⟩
      have hrest := hs.2
      cases hc : (l.view s').conflict t r with
      | some e =>
          rw [hc] at hrest
          exact ih _ hrest hH hinv'
      | none =>
          rw [hc] at hrest
          exact ih _ hrest hH hinv'
  | fresh k ih =>
      rw [wp] at *
      exact h.refine hD fun s' hinv' hs =>
        ⟨hs.1.mono hH hinv', fun n hn =>
          ih n (hs.2 n hn) hH (C.inv_draw s' n hn hinv')⟩
  | call c k ih =>
      rw [wp] at *
      exact h.refine hD fun s' hinv' hs =>
        ⟨hs.1.mono hH hinv', fun n => ih n (hs.2 n) hH hinv'⟩
  | commit k ih =>
      rw [wp] at *
      refine h.refine hD fun s' hinv' hs =>
        ⟨hs.1.mono hH hinv', fun c hc hassume => ?_⟩
      obtain ⟨hguar, hafter, hfails, hk⟩ := hs.2 c hc (hD.assume c hassume)
      exact ⟨hD.keeps c hc.pid hassume hguar, (hD.inv _).mpr hafter,
        hfails.mono hH hafter, ih hk hH hafter⟩
  | rollback k ih =>
      rw [wp] at *
      exact h.refine hD fun s' hinv' hs =>
        ⟨hs.1.mono hH hinv', ih hs.2 hH hinv'⟩
  | guarded g k ihg ihk =>
      rw [wp] at *
      exact h.refine hD fun s' hinv' hs =>
        ⟨hs.1.mono hH hinv', ihk hs.2
          (.some fun l s hi hg => ihg hg .none hi) hinv'⟩
  | unguard k ih =>
      rw [wp] at *
      exact h.refine hD fun s' hinv' hs =>
        ⟨hs.1.mono hH hinv', ih hs.2 .none hinv'⟩

/-- Weaker postconditions. -/
theorem wp_mono {E' : ε → Local σ → Shared σ → Prop} {prog : Prog σ ε α}
    (h : C.wp p Q E prog H l s) (hH : Guard.Le C.inv H H')
    (hQ : ∀ a l s, C.inv s → Q a l s → Q' a l s)
    (hE : ∀ e l s, C.inv s → E e l s → E' e l s) (hinv : C.inv s) :
    C.wp p Q' E' prog H' l s :=
  wp_refine (.refl C p) h hH hQ hE hinv

/-- Sequencing: the first program has to end where the second may start. -/
theorem wp_bind_simulates {R : Guard σ → Guard σ → Prop}
    (hR : Guard.Simulates C.inv R) {x : Prog σ ε β} {f : β → Prog σ ε α}
    {P : β → Local σ → Shared σ → Prop}
    (hret : ∀ b l s H', R none H' → C.inv s → P b l s →
      C.wp p Q E (f b) H' l s)
    (h : C.wp p P E x H l s) (hH : R H H') (hinv : C.inv s) :
    C.wp p Q E (x.bind f) H' l s := by
  induction x generalizing H H' l s with
  | ret b =>
      obtain ⟨rfl, hpost⟩ := h
      exact hret b l s H' hH hinv (hpost.now hinv)
  | raise e =>
      rw [wp] at h
      rw [Prog.bind, wp]
      refine h.mono fun s' hinv' hs => ?_
      cases H with
      | none =>
          cases H' with
          | none => exact hs
          | some g => exact hR.fails hH hinv' trivial
      | some g =>
          cases H' with
          | none => exact absurd hH hR.not_none
          | some g' => exact hR.fails (l := l) hH hinv' hs
  | halt =>
      rw [wp] at h
      rw [Prog.bind, wp]
      exact h.mono fun s' hinv' hs => hR.fails hH hinv' hs
  | query k ih =>
      rw [wp] at h
      rw [Prog.bind, wp]
      exact h.mono fun s' hinv' hs =>
        ⟨hR.fails hH hinv' hs.1, ih _ hs.2 hH hinv'⟩
  | scan t q k ih =>
      rw [wp] at h
      rw [Prog.bind, wp]
      exact h.mono fun s' hinv' hs =>
        ⟨hR.fails hH hinv' hs.1, fun keys hkeys =>
          wpVisit_refine (.refl C p) (hs.2 keys hkeys)
            (fun _ _ hi hF => hR.fails hH hi hF)
            fun rows l s hi hrows => ih rows hrows hH hi⟩
  | visit t q todo acc k ih =>
      rw [wp] at h
      rw [Prog.bind, wp]
      exact wpVisit_refine (.refl C p) h (fun _ _ hi hF => hR.fails hH hi hF)
        fun rows l s hi hrows => ih rows hrows hH hi
  | insert t r k ih =>
      rw [wp] at h
      rw [Prog.bind, wp]
      refine h.mono fun s' hinv' hs => ⟨hR.fails hH hinv' hs.1, ?_⟩
      have hrest := hs.2
      cases hc : (l.view s').conflict t r with
      | some e =>
          rw [hc] at hrest
          exact ih _ hrest hH hinv'
      | none =>
          rw [hc] at hrest
          exact ih _ hrest hH hinv'
  | fresh k ih =>
      rw [wp] at h
      rw [Prog.bind, wp]
      exact h.mono fun s' hinv' hs =>
        ⟨hR.fails hH hinv' hs.1, fun n hn =>
          ih n (hs.2 n hn) hH (C.inv_draw s' n hn hinv')⟩
  | call c k ih =>
      rw [wp] at h
      rw [Prog.bind, wp]
      exact h.mono fun s' hinv' hs =>
        ⟨hR.fails hH hinv' hs.1, fun n => ih n (hs.2 n) hH hinv'⟩
  | commit k ih =>
      rw [wp] at h
      rw [Prog.bind, wp]
      refine h.mono fun s' hinv' hs =>
        ⟨hR.fails hH hinv' hs.1, fun c hc hassume => ?_⟩
      obtain ⟨hguar, hafter, hfails, hk⟩ := hs.2 c hc hassume
      exact ⟨hguar, hafter, hR.fails hH hafter hfails, ih hk hH hafter⟩
  | rollback k ih =>
      rw [wp] at h
      rw [Prog.bind, wp]
      exact h.mono fun s' hinv' hs =>
        ⟨hR.fails hH hinv' hs.1, ih hs.2 hH hinv'⟩
  | guarded g k ihg ihk =>
      rw [wp] at h
      rw [Prog.bind, wp]
      exact h.mono fun s' hinv' hs =>
        ⟨hR.fails hH hinv' hs.1, ihk hs.2
          (hR.some fun l s hi hg => ihg hg hR.none hi) hinv'⟩
  | unguard k ih =>
      rw [wp] at h
      rw [Prog.bind, wp]
      exact h.mono fun s' hinv' hs =>
        ⟨hR.fails hH hinv' hs.1, ih hs.2 hR.none hinv'⟩

theorem wp_bind {x : Prog σ ε β} {f : β → Prog σ ε α}
    (h : C.wp p (fun b l s => C.wp p Q E (f b) none l s) E x none l s)
    (hinv : C.inv s) : C.wp p Q E (x.bind f) none l s := by
  refine wp_bind_simulates (Guard.simulates_le C.inv) ?_ h .none hinv
  intro b l s H' hle _ hb
  cases hle
  exact hb

/-- A body whose handler may run in any state. -/
theorem wp_attempt_bind {body handler : Prog σ ε β} {f : β → Prog σ ε α}
    (hbody : ∀ s', C.Rely p l s s' → C.inv s' →
      C.wp p (fun b l s => C.wp p Q E (f b) none l s) E body none l s')
    (hhandler : ∀ (l : Local σ) s, C.inv s →
      C.wp p Q E (handler.bind f) none l.rolledBack s) :
    C.wp p Q E ((Prog.attempt body handler).bind f) none l s := by
  change C.wp p Q E (.guarded (handler.bind f)
    ((body.bind fun a => .unguard (.ret a)).bind f)) none l s
  intro s' hrely hinv
  refine ⟨trivial, ?_⟩
  rw [Prog.bind_bind]
  refine wp_bind_simulates (Guard.simulates_ready C.inv) ?_ (hbody s' hrely hinv)
    (.ready hhandler) hinv
  intro b l s H' hready hinv hb
  have hfails : ∀ s', C.inv s' → Fails H' l s' := fun s' hinv' =>
    (Guard.simulates_ready C.inv).fails hready hinv' trivial
  exact fun s' hrely hinv' => ⟨hfails s' hinv', wp_rely hb hrely⟩

end Rules

end Contract

end ReadCommitted
