import Workstream.ReadCommitted.Discipline

/-!
# References between rows

A row may name others, in tables from which nothing is deleted.  A program is
checked with the names that it knows to be there: it learns them from what it
reads, and may only insert rows that name what it knows.  No foreign key is
checked by the store; the names are good in every state of every run all the
same.
-/

namespace ReadCommitted

variable {σ : Schema} {ε α β : Type}

/-- What rows name. -/
structure References (σ : Schema) where
  refs : {t : σ.Table} → σ.Row t → List σ.Ref
  lasting : σ.Table → Bool
  lasts : ∀ {t : σ.Table} (r : σ.Row t), ∀ x ∈ refs r, lasting x.1 = true

namespace Store

/-- There is such a row. -/
def Present (s : Store σ) (x : σ.Ref) : Prop :=
  (s x.1).lookup x.2 ≠ none

theorem present_of_mem {s : Store σ} {t : σ.Table} {r : σ.Row t}
    (h : r ∈ (s t).rows) : s.Present (t, σ.key r) := by
  rw [Present, Relation.lookup_key h]
  exact Option.some_ne_none r

/-- What is not deleted is there after writes as well. -/
theorem Present.view {s : Store σ} {x : σ.Ref} (h : s.Present x)
    (ws : List (Write σ)) (hdel : .del x.1 x.2 ∉ ws) :
    (Store.view ws s).Present x := by
  intro hnone
  rcases lookup_view_none hnone with hold | hdeleted
  · exact h hold
  · exact hdel hdeleted

/-- What writes show depends on the rows that they do not touch. -/
theorem Present.view_congr {s s' : Store σ} {x : σ.Ref} {ws : List (Write σ)}
    (h : (Store.view ws s).Present x) (hs : s.Present x → s'.Present x) :
    (Store.view ws s').Present x := by
  by_cases hmem : ∃ w ∈ ws, w.ref = (x.1, x.2)
  · rwa [Present, ← lookup_view_of_mem s s' hmem]
  · push Not at hmem
    rw [Present, lookup_view_of_not_mem hmem] at h ⊢
    exact hs h

end Store

namespace References

variable (R : References σ)

/-- All that rows name is there. -/
def Intact (s : Store σ) : Prop :=
  ∀ (t : σ.Table) (r : σ.Row t), r ∈ (s t).rows → ∀ x ∈ R.refs r, s.Present x

/-- What a client knows that has read these rows. -/
def facts {t : σ.Table} (rows : List (σ.Row t)) : List σ.Ref :=
  rows.flatMap fun r =>
    R.refs r ++ if R.lasting t = true then [(t, σ.key r)] else []

/-! ## Checking a program -/

/-- What a locking statement does to the rows that it picks leaves their names
good, for a client that knows `F`. -/
def Settles {t : σ.Table} (q : Scan σ t) (F : List σ.Ref) : Prop :=
  ∀ r, q.pred r = true →
    match q.effect r with
    | .lock => True
    | .write r' => ∀ x ∈ R.refs r', x ∈ R.refs r ∨ x ∈ F
    | .delete => R.lasting t = false
    | .reject => True

/-- With the names `F` the program may go on, and returns with `Q`. -/
def Upholds (Q : List σ.Ref → α → Prop) : Prog σ ε α → List σ.Ref → Prop
  | .ret a, F => Q F a
  | .raise _, _ => True
  | .halt, _ => True
  | .query k, F =>
      ∀ s, R.Intact s → (∀ x ∈ F, s.Present x) → ∃ new : List σ.Ref,
        (∀ x ∈ new, R.lasting x.1 = true ∧ s.Present x) ∧
          Upholds Q (k s) (new ++ F)
  | .scan _ q k, F =>
      R.Settles q F ∧
        ∀ rows, q.Picks rows → Upholds Q (k rows) (R.facts rows ++ F)
  | .visit _ q _ acc k, F =>
      R.Settles q F ∧ q.Picks acc ∧ ∀ rows, q.Picks rows →
        Upholds Q (k (acc ++ rows)) (R.facts rows ++ F)
  | .insert t r k, F =>
      (∀ x ∈ R.refs r, x ∈ F) ∧ (∀ e, Upholds Q (k (some e)) F) ∧
        Upholds Q (k none)
          ((if R.lasting t = true then [(t, σ.key r)] else []) ++ F)
  | .fresh k, F => ∀ n, Upholds Q (k n) F
  | .call _ k, F => ∀ n, Upholds Q (k n) F
  | .commit k, F => Upholds Q k F
  | .rollback k, _ => Upholds Q k []
  | .guarded handler k, F => Upholds Q handler [] ∧ Upholds Q k F
  | .unguard k, F => Upholds Q k F

section Rules

variable {R} {Q : List σ.Ref → α → Prop} {P : List σ.Ref → β → Prop}
  {F G : List σ.Ref}

theorem Settles.more {t : σ.Table} {q : Scan σ t} (h : R.Settles q F)
    (hFG : ∀ x ∈ F, x ∈ G) : R.Settles q G := by
  intro r hr
  have hr := h r hr
  cases heffect : q.effect r with
  | lock => trivial
  | write r' =>
      rw [heffect] at hr
      exact fun x hx => (hr x hx).imp_right (hFG x)
  | delete =>
      rw [heffect] at hr
      exact hr
  | reject => trivial

theorem append_more {E : List σ.Ref} (hFG : ∀ x ∈ F, x ∈ G) :
    ∀ x ∈ E ++ F, x ∈ E ++ G := by
  intro x hx
  rcases List.mem_append.mp hx with hx | hx
  · exact List.mem_append_left _ hx
  · exact List.mem_append_right _ (hFG x hx)

/-- It does no harm to know more. -/
theorem Upholds.more (hQ : ∀ F G a, (∀ x ∈ F, x ∈ G) → Q F a → Q G a)
    {prog : Prog σ ε α} (h : R.Upholds Q prog F) (hFG : ∀ x ∈ F, x ∈ G) :
    R.Upholds Q prog G := by
  induction prog generalizing F G with
  | ret a => exact hQ F G a hFG h
  | raise | halt => trivial
  | query k ih =>
      intro s hintact hG
      obtain ⟨new, hnew, hk⟩ := h s hintact fun x hx => hG x (hFG x hx)
      exact ⟨new, hnew, ih s hk (append_more hFG)⟩
  | scan t q k ih =>
      exact ⟨h.1.more hFG,
        fun rows hrows => ih rows (h.2 rows hrows) (append_more hFG)⟩
  | visit t q todo acc k ih =>
      exact ⟨h.1.more hFG, h.2.1, fun rows hrows =>
        ih (acc ++ rows) (h.2.2 rows hrows) (append_more hFG)⟩
  | insert t r k ih =>
      exact ⟨fun x hx => hFG x (h.1 x hx),
        fun e => ih (some e) (h.2.1 e) hFG, ih none h.2.2 (append_more hFG)⟩
  | fresh k ih => exact fun n => ih n (h n) hFG
  | call c k ih => exact fun n => ih n (h n) hFG
  | commit k ih => exact ih h hFG
  | rollback k ih => exact h
  | guarded g k _ ihk => exact ⟨h.1, ihk h.2 hFG⟩
  | unguard k ih => exact ih h hFG

@[simp] theorem upholds_bind (x : Prog σ ε β) (g : β → Prog σ ε α) :
    R.Upholds Q (x >>= g) F ↔
      R.Upholds (fun F b => R.Upholds Q (g b) F) x F := by
  change R.Upholds Q (x.bind g) F ↔ _
  induction x generalizing F with
  | ret | raise | halt => exact Iff.rfl
  | query k ih =>
      exact forall_congr' fun s => forall_congr' fun _ => forall_congr' fun _ =>
        exists_congr fun new => and_congr_right fun _ => ih s
  | scan t q k ih =>
      exact and_congr_right fun _ =>
        forall_congr' fun rows => forall_congr' fun _ => ih rows
  | visit t q todo acc k ih =>
      exact and_congr_right fun _ => and_congr_right fun _ =>
        forall_congr' fun rows => forall_congr' fun _ => ih (acc ++ rows)
  | insert t r k ih =>
      exact and_congr_right fun _ =>
        and_congr (forall_congr' fun e => ih (some e)) (ih none)
  | fresh k ih => exact forall_congr' fun n => ih n
  | call c k ih => exact forall_congr' fun n => ih n
  | commit k ih => exact ih
  | rollback k ih => exact ih
  | guarded h k ihh ihk => exact and_congr ihh ihk
  | unguard k ih => exact ih

@[simp] theorem upholds_map (g : β → α) (x : Prog σ ε β) :
    R.Upholds Q (g <$> x) F ↔ R.Upholds (fun F b => Q F (g b)) x F :=
  upholds_bind x fun b => pure (g b)

theorem Upholds.mono {Q' : List σ.Ref → α → Prop} {prog : Prog σ ε α}
    (h : R.Upholds Q prog F) (hQ : ∀ F a, Q F a → Q' F a) :
    R.Upholds Q' prog F := by
  induction prog generalizing F with
  | ret a => exact hQ F a h
  | raise | halt => trivial
  | query k ih =>
      intro s hintact hF
      obtain ⟨new, hnew, hk⟩ := h s hintact hF
      exact ⟨new, hnew, ih s hk⟩
  | scan t q k ih =>
      exact ⟨h.1, fun rows hrows => ih rows (h.2 rows hrows)⟩
  | visit t q todo acc k ih =>
      exact ⟨h.1, h.2.1,
        fun rows hrows => ih (acc ++ rows) (h.2.2 rows hrows)⟩
  | insert t r k ih =>
      exact ⟨h.1, fun e => ih (some e) (h.2.1 e), ih none h.2.2⟩
  | fresh k ih => exact fun n => ih n (h n)
  | call c k ih => exact fun n => ih n (h n)
  | commit k ih => exact ih h
  | rollback k ih => exact ih h
  | guarded g k ihg ihk => exact ⟨ihg h.1, ihk h.2⟩
  | unguard k ih => exact ih h

@[simp] theorem upholds_pure (a : α) :
    R.Upholds (ε := ε) Q (pure a) F ↔ Q F a := Iff.rfl

@[simp] theorem upholds_ret (a : α) :
    R.Upholds (ε := ε) Q (.ret a) F ↔ Q F a := Iff.rfl

@[simp] theorem upholds_raise (e : ε) :
    R.Upholds Q (.raise e) F ↔ True := Iff.rfl

@[simp] theorem upholds_halt :
    R.Upholds (ε := ε) Q .halt F ↔ True := Iff.rfl

@[simp] theorem upholds_ite (c : Prop) [Decidable c] (x y : Prog σ ε α) :
    R.Upholds Q (if c then x else y) F ↔
      (c → R.Upholds Q x F) ∧ (¬c → R.Upholds Q y F) := by
  split <;> simp [*]

/-- A statement teaches what it shows to be there. -/
theorem upholds_select {q : Store σ → β} :
    R.Upholds (ε := ε) P (Prog.select q) F ↔
      ∀ s, R.Intact s → (∀ x ∈ F, s.Present x) → ∃ new : List σ.Ref,
        (∀ x ∈ new, R.lasting x.1 = true ∧ s.Present x) ∧
          P (new ++ F) (q s) := Iff.rfl

/-- A statement from which nothing is learned. -/
theorem upholds_read {q : Store σ → β} (h : ∀ s, P F (q s)) :
    R.Upholds (ε := ε) P (Prog.select q) F :=
  fun s _ _ => ⟨[], by simp, h s⟩

@[simp] theorem upholds_scan {t : σ.Table} (q : Scan σ t)
    (k : List (σ.Row t) → Prog σ ε α) :
    R.Upholds Q (.scan t q k) F ↔ R.Settles q F ∧ ∀ rows, q.Picks rows →
      R.Upholds Q (k rows) (R.facts rows ++ F) := Iff.rfl

@[simp] theorem upholds_insert {t : σ.Table} (r : σ.Row t)
    (k : Option σ.Key → Prog σ ε α) :
    R.Upholds Q (.insert t r k) F ↔ (∀ x ∈ R.refs r, x ∈ F) ∧
      (∀ e, R.Upholds Q (k (some e)) F) ∧ R.Upholds Q (k none)
        ((if R.lasting t = true then [(t, σ.key r)] else []) ++ F) := Iff.rfl

@[simp] theorem upholds_insertOrHalt {t : σ.Table} (r : σ.Row t)
    {P : List σ.Ref → Unit → Prop} :
    R.Upholds (ε := ε) P (Prog.insertOrHalt t r) F ↔
      (∀ x ∈ R.refs r, x ∈ F) ∧
        P ((if R.lasting t = true then [(t, σ.key r)] else []) ++ F) () :=
  and_congr_right fun _ => and_iff_right fun _ => trivial

@[simp] theorem settles_lock {t : σ.Table} (pred : σ.Row t → Bool)
    (skipLocked : Bool) (limit : Option ℕ) (order : σ.Row t → σ.Row t → Bool) :
    R.Settles ⟨pred, fun _ => .lock, skipLocked, limit, order⟩ F ↔ True :=
  iff_true_intro fun _ _ => trivial

@[simp] theorem settles_write {t : σ.Table} (pred : σ.Row t → Bool)
    (g : σ.Row t → σ.Row t) (skipLocked : Bool) (limit : Option ℕ)
    (order : σ.Row t → σ.Row t → Bool) :
    R.Settles ⟨pred, fun r => .write (g r), skipLocked, limit, order⟩ F ↔
      ∀ r, pred r = true → ∀ x ∈ R.refs (g r), x ∈ R.refs r ∨ x ∈ F := Iff.rfl

@[simp] theorem settles_byKey_lock {t : σ.Table} (k : σ.Key) :
    R.Settles (Prog.byKey (t := t) k fun _ => .lock) F ↔ True :=
  iff_true_intro fun _ _ => trivial

/-- A statement on a row by its primary key goes on where there are rows. -/
theorem upholds_alterKey {t : σ.Table} {k : σ.Key}
    {effect : σ.Row t → Effect (σ.Row t)} {P : List σ.Ref → Unit → Prop}
    (hsettles : R.Settles (Prog.byKey k effect) F)
    (h : ∀ (r : σ.Row t) rows, P (R.facts (r :: rows) ++ F) ()) :
    R.Upholds (ε := ε) P (Prog.alterKey t k effect) F := by
  refine ⟨hsettles, fun rows _ => ?_⟩
  cases rows with
  | nil => trivial
  | cons r rows => exact h r rows

@[simp] theorem upholds_updateKey {t : σ.Table} (k : σ.Key)
    (g : σ.Row t → σ.Row t) {P : List σ.Ref → Unit → Prop} :
    R.Upholds (ε := ε) P (Prog.updateKey t k g) F ↔
      (∀ r, σ.key r = k → ∀ x ∈ R.refs (g r), x ∈ R.refs r ∨ x ∈ F) ∧
        ∀ (r : σ.Row t) rows, P (R.facts (r :: rows) ++ F) () := by
  have hsettles : R.Settles (Prog.byKey k fun r => .write (g r)) F ↔
      ∀ r, σ.key r = k → ∀ x ∈ R.refs (g r), x ∈ R.refs r ∨ x ∈ F :=
    forall_congr' fun r => by simp only [Prog.byKey, decide_eq_true_eq]
  refine ⟨fun h => ⟨hsettles.mp h.1, fun r rows => ?_⟩, fun h => ?_⟩
  · apply h.2 (r :: rows)
    intro hlock
    cases hlock r
  · exact upholds_alterKey (hsettles.mpr h.1) h.2

@[simp] theorem upholds_deleteKey {t : σ.Table} (k : σ.Key)
    {P : List σ.Ref → Unit → Prop} :
    R.Upholds (ε := ε) P (Prog.deleteKey t k) F ↔
      (∀ r : σ.Row t, σ.key r = k → R.lasting t = false) ∧
        ∀ rows, P (R.facts (t := t) rows ++ F) () := by
  have hsettles : R.Settles (Prog.byKey (t := t) k fun _ => .delete) F ↔
      ∀ r : σ.Row t, σ.key r = k → R.lasting t = false :=
    forall_congr' fun r => by simp only [Prog.byKey, decide_eq_true_eq]
  refine and_congr hsettles ⟨fun h rows => ?_, fun h rows _ => h rows⟩
  apply h rows
  intro hlock r _
  cases hlock r

@[simp] theorem upholds_freshId {P : List σ.Ref → ℕ → Prop} :
    R.Upholds (ε := ε) P Prog.freshId F ↔ ∀ n, P F n := Iff.rfl

@[simp] theorem upholds_callOut (c : σ.Call) {P : List σ.Ref → ℕ → Prop} :
    R.Upholds (ε := ε) P (Prog.callOut c) F ↔ ∀ n, P F n := Iff.rfl

@[simp] theorem upholds_commitNow {P : List σ.Ref → Unit → Prop} :
    R.Upholds (ε := ε) P Prog.commitNow F ↔ P F () := Iff.rfl

@[simp] theorem upholds_rollbackNow {P : List σ.Ref → Unit → Prop} :
    R.Upholds (ε := ε) P Prog.rollbackNow F ↔ P [] () := Iff.rfl

@[simp] theorem upholds_ensure (c : Bool) (e : ε)
    {P : List σ.Ref → Unit → Prop} :
    R.Upholds P (Prog.ensure c e) F ↔ (c = true → P F ()) := by
  cases c with
  | true => simp [Prog.ensure]
  | false => simp [Prog.ensure]

@[simp] theorem upholds_require (o : Option β) (e : ε) :
    R.Upholds P (Prog.require o e) F ↔ ∀ b, o = some b → P F b := by
  cases o with
  | none => simp [Prog.require]
  | some b => simp [Prog.require]

/-- A program that keeps to a discipline, if this adds only rows that name
nothing and alters no names. -/
theorem upholds_of_follows {φ : Type} {A : Discipline σ ε φ}
    {S : Standing σ φ → α → Prop} {prog : Prog σ ε α} {f : Standing σ φ}
    (h : A.Follows S prog f)
    (hadds : ∀ {t : σ.Table} (r : σ.Row t), A.adds r → R.refs r = [])
    (halters : ∀ {t : σ.Table} (r r' : σ.Row t), A.alters r r' →
      ∀ x ∈ R.refs r', x ∈ R.refs r)
    (herases : ∀ {t : σ.Table} (r : σ.Row t), A.erases r →
      R.lasting t = false) (F : List σ.Ref) :
    R.Upholds (fun _ _ => True) prog F := by
  have hsettles : ∀ {t : σ.Table} {q : Scan σ t} (F : List σ.Ref),
      A.Allows q → R.Settles q F := by
    intro t q F hallows r hr
    have hallowed := hallows r hr
    cases heffect : q.effect r with
    | write r' =>
        rw [heffect] at hallowed
        exact fun x hx => .inl (halters r r' hallowed x hx)
    | delete =>
        rw [heffect] at hallowed
        exact herases r hallowed
    | _ => trivial
  induction prog generalizing f F with
  | ret | raise | halt => trivial
  | query k ih => exact fun s _ _ => ⟨[], by simp, ih s (h s) _⟩
  | scan t q k ih =>
      exact ⟨hsettles F h.1, fun rows hrows => ih rows (h.2 rows hrows) _⟩
  | visit t q todo acc k ih =>
      exact ⟨hsettles F h.1, h.2.1, fun rows hrows =>
        ih (acc ++ rows) (h.2.2 (acc ++ rows) (h.2.1.append hrows)) _⟩
  | insert t r k ih =>
      exact ⟨by simp [hadds r h.1], fun e => ih (some e) (h.2.1 e) F,
        ih none h.2.2 _⟩
  | fresh k ih => exact fun n => ih n (h n) F
  | call c k ih => exact fun n => ih n (h.2 n) F
  | commit k ih => exact ih h.2 F
  | rollback k ih => exact ih h []
  | guarded g k ihg ihk => exact ⟨ihg (h.2.1 f.phase) [], ihk h.2.2 F⟩
  | unguard k ih => exact ih h F

end Rules

/-! ## Soundness -/

open World

/-- What a client knows, and what it has written, is true. -/
structure Tied (s : Store σ) (P : Proc σ ε α) : Prop where
  sure : ∃ F : List σ.Ref,
    (∀ x ∈ F, R.lasting x.1 = true ∧ (P.session.view s).Present x) ∧
      R.Upholds (fun _ _ => True) P.prog F
  handler : ∀ g, P.guard = some g → R.Upholds (fun _ _ => True) g []
  puts : ∀ (t : σ.Table) (r : σ.Row t), .put t r ∈ P.session.writes →
    ∀ x ∈ R.refs r, (P.session.view s).Present x
  dels : ∀ (t : σ.Table) (k : σ.Key), .del t k ∈ P.session.writes →
    R.lasting t = false

namespace Tied

variable {R} {s : Store σ} {P : Proc σ ε α}

/-- The writes of a client leave what lasts. -/
theorem present (h : Tied R s P) {x : σ.Ref} (hlasting : R.lasting x.1 = true)
    (hx : s.Present x) : (P.session.view s).Present x := by
  apply hx.view
  intro hdel
  rw [h.dels x.1 x.2 hdel] at hlasting
  cases hlasting

/-- A client sees an intact store. -/
theorem intact (h : Tied R s P) (hs : R.Intact s) :
    R.Intact (P.session.view s) := by
  intro t r hr x hx
  have hlook := Relation.lookup_key hr
  rcases Store.lookup_view_cases hlook with hold | hput
  · exact h.present (R.lasts r x hx)
      (hs t r (Relation.mem_of_lookup hold) x hx)
  · exact h.puts t r hput x hx

/-- Others have committed. -/
theorem others (h : Tied R s P) {s' : Store σ}
    (hs : ∀ x, R.lasting x.1 = true → s.Present x → s'.Present x) :
    Tied R s' P := by
  obtain ⟨F, hF, hupholds⟩ := h.sure
  have hview : ∀ x, R.lasting x.1 = true →
      (P.session.view s).Present x → (P.session.view s').Present x :=
    fun x hlasting hx => hx.view_congr (hs x hlasting)
  exact ⟨⟨F, fun x hx => ⟨(hF x hx).1, hview x (hF x hx).1 (hF x hx).2⟩,
      hupholds⟩,
    h.handler, fun t r hr x hx => hview x (R.lasts r x hx) (h.puts t r hr x hx),
    h.dels⟩

/-- A client without writes that knows nothing. -/
theorem fresh {prog : Prog σ ε α} {guard : Option (Prog σ ε α)}
    {d : Session σ} (hd : d.writes = [])
    (hprog : R.Upholds (fun _ _ => True) prog [])
    (hguard : ∀ g, guard = some g → R.Upholds (fun _ _ => True) g []) :
    Tied R s { prog, guard, session := d } where
  sure := ⟨[], by simp, hprog⟩
  handler := hguard
  puts := by
    change ∀ (t : σ.Table) (r : σ.Row t), .put t r ∈ d.writes → _
    simp [hd]
  dels := by
    change ∀ (t : σ.Table) (k : σ.Key), .del t k ∈ d.writes → _
    simp [hd]

end Tied

variable {R} {w w' : World σ ε α} {p : Pid}

theorem tied_setProc (h : Tied R w.store (w.procs p)) {prog : Prog σ ε α}
    {guard : Option (Prog σ ε α)} {d : Session σ}
    (hd : d.writes = (w.session p).writes)
    (hprog : ∀ F : List σ.Ref,
      (∀ x ∈ F, R.lasting x.1 = true ∧ (w.view p).Present x) →
      R.Upholds (fun _ _ => True) (w.procs p).prog F →
      ∃ G : List σ.Ref,
        (∀ x ∈ G, R.lasting x.1 = true ∧ (w.view p).Present x) ∧
          R.Upholds (fun _ _ => True) prog G)
    (hguard : ∀ g, guard = some g → R.Upholds (fun _ _ => True) g []) :
    Tied R w.store ((w.setProc p { prog, guard, session := d }).procs p) := by
  have hproc : (w.setProc p { prog, guard, session := d }).procs p =
      { prog, guard, session := d } := by
    simp [setProc]
  have hview : d.view w.store = w.view p := by
    unfold Session.view World.view
    rw [hd]
    rfl
  obtain ⟨F, hF, hupholds⟩ := h.sure
  obtain ⟨G, hG, hprog⟩ := hprog F hF hupholds
  rw [hproc]
  refine ⟨⟨G, ?_, hprog⟩, hguard, ?_, ?_⟩
  · change ∀ x ∈ G, R.lasting x.1 = true ∧ (d.view w.store).Present x
    rw [hview]
    exact hG
  · change ∀ (t : σ.Table) (r : σ.Row t), .put t r ∈ d.writes →
      ∀ x ∈ R.refs r, (d.view w.store).Present x
    rw [hview, hd]
    exact h.puts
  · change ∀ (t : σ.Table) (k : σ.Key), .del t k ∈ d.writes → _
    rw [hd]
    exact h.dels

/-- A statement that writes one row. -/
theorem tied_write (h : Tied R w.store (w.procs p)) {x : Write σ}
    {refs : List σ.Ref} {prog : Prog σ ε α} {d : Session σ}
    (hd : d.writes = (w.session p).writes ++ [x])
    (hput : ∀ (t : σ.Table) (r : σ.Row t), x = .put t r →
      ∀ y ∈ R.refs r, (w.view p).Present y)
    (hdel : ∀ (t : σ.Table) (k : σ.Key), x = .del t k → R.lasting t = false)
    {G : List σ.Ref} (hG : ∀ y ∈ G,
      R.lasting y.1 = true ∧ ((w.view p).write x).Present y)
    (hprog : R.Upholds (fun _ _ => True) prog G) :
    Tied R w.store ((w.lockAndResume p refs prog d).procs p) := by
  have hproc : (w.lockAndResume p refs prog d).procs p =
      { prog, guard := (w.procs p).guard, session := d } := by
    simp [lockAndResume, World.resume, setProc]
  have hview : d.view w.store = (w.view p).write x := by
    unfold Session.view
    rw [hd, Store.view_append]
    rfl
  have hlasts : ∀ y : σ.Ref, R.lasting y.1 = true → (w.view p).Present y →
      ((w.view p).write x).Present y := by
    intro y hlasting hy
    apply hy.view [x]
    intro hmem
    rw [hdel y.1 y.2 (List.mem_singleton.mp hmem).symm] at hlasting
    cases hlasting
  rw [hproc]
  refine ⟨⟨G, ?_, hprog⟩, h.handler, ?_, ?_⟩
  · change ∀ y ∈ G, R.lasting y.1 = true ∧ (d.view w.store).Present y
    rw [hview]
    exact hG
  · change ∀ (t : σ.Table) (r : σ.Row t), .put t r ∈ d.writes →
      ∀ y ∈ R.refs r, (d.view w.store).Present y
    rw [hview, hd]
    intro t r hmem y hy
    apply hlasts y (R.lasts r y hy)
    rcases List.mem_append.mp hmem with hmem | hmem
    · exact h.puts t r hmem y hy
    · exact hput t r (List.mem_singleton.mp hmem).symm y hy
  · change ∀ (t : σ.Table) (k : σ.Key), .del t k ∈ d.writes → _
    rw [hd]
    intro t k hmem
    rcases List.mem_append.mp hmem with hmem | hmem
    · exact h.dels t k hmem
    · exact hdel t k (List.mem_singleton.mp hmem).symm

theorem tied_fresh {prog : Prog σ ε α} {guard : Option (Prog σ ε α)}
    (hprog : R.Upholds (fun _ _ => True) prog [])
    (hguard : ∀ g, guard = some g → R.Upholds (fun _ _ => True) g []) :
    Tied R w.store ((w.rolledBack p prog guard).procs p) := by
  have hproc : (w.rolledBack p prog guard).procs p =
      { prog, guard, session := (w.session p).discard } := by
    simp [rolledBack, setProc]
  rw [hproc]
  exact Tied.fresh rfl hprog hguard

theorem tied_failed (h : Tied R w.store (w.procs p)) :
    Tied R w.store ((w.failed p).procs p) := by
  apply tied_fresh
  · cases hg : (w.procs p).guard with
    | none => trivial
    | some g => exact h.handler g hg
  · simp

/-- What one more row lets a client know. -/
theorem facts_cons {t : σ.Table} (r : σ.Row t) (rows : List (σ.Row t)) :
    R.facts (r :: rows) = (R.refs r ++
      if R.lasting t = true then [(t, σ.key r)] else []) ++ R.facts rows := rfl

theorem lasting_of_mem_facts {t : σ.Table} {rows : List (σ.Row t)}
    {x : σ.Ref} (h : x ∈ R.facts rows) : R.lasting x.1 = true := by
  obtain ⟨r, _, hx⟩ := List.mem_flatMap.mp h
  rcases List.mem_append.mp hx with hx | hx
  · exact R.lasts r x hx
  · split at hx
    · next hlasting =>
        rw [List.mem_singleton.mp hx]
        exact hlasting
    · cases hx

/-- What a client is sure of that knows a row. -/
theorem sure_of_facts {t : σ.Table} {r : σ.Row t} {F : List σ.Ref}
    {v : Store σ} (hrefs : ∀ y ∈ R.refs r, v.Present y)
    (hr : R.lasting t = true → v.Present (t, σ.key r))
    (hF : ∀ y ∈ F, R.lasting y.1 = true ∧ v.Present y) :
    ∀ y ∈ R.facts [r] ++ F, R.lasting y.1 = true ∧ v.Present y := by
  intro y hy
  rcases List.mem_append.mp hy with hfact | hy
  · refine ⟨lasting_of_mem_facts hfact, ?_⟩
    rw [facts_cons, facts, List.flatMap_nil, List.append_nil,
      List.mem_append] at hfact
    rcases hfact with hy | hy
    · exact hrefs y hy
    · split at hy
      · next hlasting =>
          rw [List.mem_singleton.mp hy]
          exact hr hlasting
      · cases hy
  · exact hF y hy

/-- A client knows the rest of the rows once it has visited the first. -/
theorem upholds_keep {t : σ.Table} {q : Scan σ t} {F : List σ.Ref}
    {acc : List (σ.Row t)} {k : List (σ.Row t) → Prog σ ε α} {r : σ.Row t}
    (hr : q.Picks [r])
    (hk : ∀ rows, q.Picks rows →
      R.Upholds (fun _ _ => True) (k (acc ++ rows)) (R.facts rows ++ F))
    (rows : List (σ.Row t)) (hpicks : q.Picks rows) :
    R.Upholds (fun _ _ => True) (k (acc ++ [r] ++ rows))
      (R.facts rows ++ (R.facts [r] ++ F)) := by
  have hrows := hk (r :: rows) (hr.append hpicks)
  rw [List.append_cons] at hrows
  apply hrows.more (fun _ _ _ _ _ => trivial)
  intro x hx
  simp only [facts, List.flatMap_cons, List.flatMap_nil, List.append_nil,
    List.mem_append] at hx ⊢
  tauto

/-- A row that is there keeps its names good. -/
theorem tied_keep (h : Tied R w.store (w.procs p)) (hs : R.Intact w.store)
    {t : σ.Table} {q : Scan σ t} {key : σ.Key} {todo : List σ.Key}
    {acc : List (σ.Row t)} {k : List (σ.Row t) → Prog σ ε α} {r : σ.Row t}
    {ws : List (Write σ)} {refs refs' : List σ.Ref} {F : List σ.Ref}
    (hF : ∀ x ∈ F, R.lasting x.1 = true ∧ (w.view p).Present x)
    (hsettles : R.Settles q F) (hacc : q.Picks acc)
    (hk : ∀ rows, q.Picks rows →
      R.Upholds (fun _ _ => True) (k (acc ++ rows)) (R.facts rows ++ F))
    (hvisit : q.visit (w.view p) key = .keep r ws refs) :
    Tied R w.store ((w.lockAndResume p refs'
      (.visit t q todo (acc ++ [r]) k)
      (((w.session p).add ws).observe (.kept t r))).procs p) := by
  have hintact : R.Intact (w.view p) := h.intact hs
  have hprog : R.Upholds (fun _ _ => True) (.visit t q todo (acc ++ [r]) k)
      (R.facts [r] ++ F) := by
    have hr : q.Picks [r] := Scan.picks_of_visit hvisit
    refine ⟨hsettles.more fun x hx => List.mem_append_right _ hx,
      hacc.append hr, ?_⟩
    exact upholds_keep hr hk
  unfold Scan.visit at hvisit
  cases hlook : (w.view p t).lookup key with
  | none => simp [hlook] at hvisit
  | some x =>
      have hmem := Relation.mem_of_lookup hlook
      have hxkey := Relation.key_of_lookup hlook
      have hxrefs : ∀ y ∈ R.refs x, (w.view p).Present y := hintact t x hmem
      by_cases hpred : q.pred x = true
      · have hx := hsettles x hpred
        simp only [hlook, if_pos hpred] at hvisit
        cases heffect : q.effect x with
        | lock =>
            simp only [heffect] at hvisit
            cases hvisit
            refine tied_setProc h (by simp [Session.add, Session.observe])
              (fun _ _ _ => ⟨_, ?_, hprog⟩) h.handler
            exact sure_of_facts hxrefs (fun _ => Store.present_of_mem hmem) hF
        | delete =>
            simp only [heffect] at hvisit hx
            cases hvisit
            have hdel : ∀ (u : σ.Table) (j : σ.Key), Write.del t key =
                .del u j → R.lasting u = false := by
              rintro u j ⟨⟩
              exact hx
            refine tied_write h rfl (by rintro _ _ ⟨⟩) hdel ?_ hprog
            intro y hy
            have hy' : R.lasting y.1 = true ∧ (w.view p).Present y :=
              sure_of_facts hxrefs (fun _ => Store.present_of_mem hmem) hF y hy
            refine ⟨hy'.1, hy'.2.view [.del t key] ?_⟩
            intro hmem
            have hyt := hdel y.1 y.2 (List.mem_singleton.mp hmem).symm
            rw [hyt] at hy'
            cases hy'.1
        | reject =>
            simp only [heffect] at hvisit
            cases hvisit
        | write r' =>
            simp only [heffect] at hvisit hx
            split at hvisit
            · next hok =>
                cases hvisit
                have hrefs : ∀ y ∈ R.refs r, (w.view p).Present y :=
                  fun y hy => (hx y hy).elim (hxrefs y) fun hy => (hF y hy).2
                refine tied_write h rfl ?_ (by rintro _ _ ⟨⟩) ?_ hprog
                · rintro _ _ ⟨⟩
                  exact hrefs
                · have hwrite : ∀ y, (w.view p).Present y →
                      ((w.view p).write (.put t r)).Present y := fun y hy =>
                    hy.view [.put t r] (by simp)
                  refine sure_of_facts (fun y hy => hwrite y (hrefs y hy)) ?_
                    fun y hy => ⟨(hF y hy).1, hwrite y (hF y hy).2⟩
                  intro _
                  rw [Store.Present, Store.write_put_self,
                    Relation.lookup_put_self]
                  exact Option.some_ne_none r
            · cases hvisit
      · simp [hlook, hpred] at hvisit

theorem tied_visitOne (h : Tied R w.store (w.procs p))
    (hs : R.Intact w.store) {t : σ.Table} {q : Scan σ t} {key : σ.Key}
    {todo : List σ.Key} {acc : List (σ.Row t)}
    {k : List (σ.Row t) → Prog σ ε α} {F : List σ.Ref}
    (hF : ∀ x ∈ F, R.lasting x.1 = true ∧ (w.view p).Present x)
    (hsettles : R.Settles q F) (hacc : q.Picks acc)
    (hk : ∀ rows, q.Picks rows →
      R.Upholds (fun _ _ => True) (k (acc ++ rows)) (R.facts rows ++ F))
    (hstep : w.visitOne p q key todo acc k = some w') :
    Tied R w'.store (w'.procs p) := by
  have hskip : Tied R w.store
      ((w.resume p (.visit t q todo acc k) (w.session p)).procs p) :=
    tied_setProc h rfl (fun _ _ _ => ⟨F, hF, hsettles, hacc, hk⟩) h.handler
  unfold visitOne at hstep
  split at hstep
  · cases hvisit : q.visit (w.view p) key with
    | skip =>
        simp only [hvisit, Option.some.injEq] at hstep
        subst hstep
        exact hskip
    | failed =>
        simp only [hvisit, Option.some.injEq] at hstep
        subst hstep
        exact tied_failed h
    | keep r ws refs =>
        simp only [hvisit] at hstep
        split at hstep
        · cases hstep
          exact tied_keep h hs hF hsettles hacc hk hvisit
        · cases hstep
  · split at hstep
    · cases hstep
      exact hskip
    · cases hstep

theorem tied_committed (h : Tied R w.store (w.procs p)) {F : List σ.Ref}
    (hF : ∀ x ∈ F, R.lasting x.1 = true ∧ (w.view p).Present x)
    {k : Prog σ ε α} (hk : R.Upholds (fun _ _ => True) k F) :
    Tied R (w.view p) ((w.committed p k).procs p) := by
  have hproc : (w.committed p k).procs p =
      { prog := k, guard := (w.procs p).guard
        session := (w.session p).discard.observe .committed } := by
    simp [World.committed, World.resume, setProc]
  rw [hproc]
  refine ⟨⟨F, hF, hk⟩, h.handler, ?_, ?_⟩
  · intro t r hr
    cases hr
  · intro t k hr
    cases hr

/-- What ties a client to the store now ties it after its next statement. -/
theorem tied_advance (h : Tied R w.store (w.procs p)) (hs : R.Intact w.store)
    {x : Input σ} (hstep : w.advance p x = some w') :
    Tied R w'.store (w'.procs p) := by
  obtain ⟨F, hF, hupholds⟩ := h.sure
  change ∀ y ∈ F, R.lasting y.1 = true ∧ (w.view p).Present y at hF
  have hintact : R.Intact (w.view p) := h.intact hs
  unfold advance at hstep
  generalize hprog : (w.procs p).prog = prog at hstep hupholds
  have hcrash : Tied R w.store ((w.rolledBack p .halt none).procs p) :=
    tied_fresh trivial (by simp)
  unfold perform at hstep
  split at hstep
  all_goals try cases hstep
  all_goals try exact hcrash
  all_goals try exact tied_failed h
  · obtain ⟨new, hnew, hk⟩ := hupholds _ hintact fun y hy => (hF y hy).2
    refine tied_setProc h rfl (fun _ _ _ => ⟨_, fun y hy => ?_, hk⟩) h.handler
    exact (List.mem_append.mp hy).elim (hnew y) (hF y)
  · split at hstep
    · cases hstep
      refine tied_setProc h rfl (fun _ _ _ => ⟨F, hF, ?_⟩) h.handler
      exact ⟨hupholds.1, Scan.picks_nil _, hupholds.2⟩
    · cases hstep
  · obtain ⟨hsettles, hacc, hk⟩ := hupholds
    have hdone := hk [] (Scan.picks_nil _)
    rw [List.append_nil] at hdone
    split at hstep
    · cases hstep
      exact tied_setProc h rfl (fun _ _ _ => ⟨F, hF, hdone⟩) h.handler
    · split at hstep
      · cases hstep
        exact tied_setProc h rfl (fun _ _ _ => ⟨F, hF, hdone⟩) h.handler
      · exact tied_visitOne h hs hF hsettles hacc hk hstep
  · next t r k =>
      obtain ⟨hrefs, hsome, hnone⟩ := hupholds
      split at hstep
      · split at hstep
        · cases hstep
          exact tied_setProc h rfl (fun _ _ _ => ⟨F, hF, hsome _⟩) h.handler
        · cases hstep
          refine tied_write h rfl ?_ (by rintro _ _ ⟨⟩) ?_ hnone
          · rintro _ _ ⟨⟩
            exact fun y hy => (hF y (hrefs y hy)).2
          · intro y hy
            rcases List.mem_append.mp hy with hy | hy
            · split at hy
              · next hlasting =>
                  obtain rfl := List.mem_singleton.mp hy
                  refine ⟨hlasting, ?_⟩
                  rw [Store.Present, Store.write_put_self,
                    Relation.lookup_put_self]
                  exact Option.some_ne_none r
              · cases hy
            · exact ⟨(hF y hy).1, (hF y hy).2.view [.put t r] (by simp)⟩
      · cases hstep
  · split at hstep
    · cases hstep
    · cases hstep
      exact tied_setProc h rfl (fun _ _ _ => ⟨F, hF, hupholds _⟩) h.handler
  · exact tied_setProc h rfl (fun _ _ _ => ⟨F, hF, hupholds _⟩) h.handler
  · exact tied_committed h hF hupholds
  · next k =>
      exact tied_failed (w := w.committed p k) (tied_committed h hF hupholds)
  · exact tied_fresh (w := w) hupholds h.handler
  · next g k =>
      refine tied_setProc h rfl (fun _ _ _ => ⟨F, hF, hupholds.2⟩) ?_
      intro g' hg'
      rw [← Option.some.inj hg']
      exact hupholds.1
  · exact tied_setProc h rfl (fun _ _ _ => ⟨F, hF, hupholds⟩) (by simp)

/-- The store is intact, and every client knows it. -/
structure Sound (R : References σ) (w : World σ ε α) : Prop where
  intact : R.Intact w.store
  clients : ∀ p, Tied R w.store (w.procs p)

/-- Clients that are checked one at a time leave no dangling name behind, in
any run from an intact store. -/
theorem sound_of_reachable {s₀ : Store σ} {code : Pid → Prog σ ε α}
    (hcode : ∀ p, R.Upholds (fun _ _ => True) (code p) [])
    (hs₀ : R.Intact s₀) (hreach : Reachable (World.start s₀ code) w) :
    Sound R w := by
  induction hreach with
  | start => exact ⟨hs₀, fun p => Tied.fresh rfl (hcode p) (by simp)⟩
  | @step w w' p x hprev hstep ih =>
      have hchange := change_of_advance hstep
      have hmoved := tied_advance (ih.clients p) ih.intact hstep
      have hothers : ∀ q, q ≠ p → w'.procs q = w.procs q := fun q hq =>
        (hchange.others hq).1
      rcases hchange.log with ⟨_, hstore⟩ | ⟨_, _, hstore⟩
      · rw [hstore] at hmoved
        refine ⟨hstore ▸ ih.intact, fun q => ?_⟩
        rw [hstore]
        by_cases hq : q = p
        · exact hq ▸ hmoved
        · exact hothers q hq ▸ ih.clients q
      · refine ⟨hstore ▸ (ih.clients p).intact ih.intact, fun q => ?_⟩
        by_cases hq : q = p
        · exact hq ▸ hmoved
        · rw [hothers q hq, hstore]
          exact (ih.clients q).others fun y hlasting hy =>
            (ih.clients p).present hlasting hy

end References

end ReadCommitted
