import Mathlib.Data.List.Find
import Workstream.ReadCommitted.Twins

/-!
# Rows out of sight

Two stores that differ in hidden rows.  A request whose statements touch no
hidden row, and whose new rows clash with none, treats the two alike: the rows
in sight change in the same way, and the hidden ones stay.
-/

namespace ReadCommitted

variable {σ : Schema} {ε α β : Type}

/-- Two stores with hidden rows; the tables in `same` are equal in both, hidden
rows included. -/
structure Curtain (σ : Schema) where
  hidden : (t : σ.Table) → σ.Row t → Bool
  left : Store σ
  right : Store σ
  same : σ.Table → Prop

namespace Curtain

variable (c : Curtain σ)

/-- A hidden row of one of the two stores. -/
structure Behind (t : σ.Table) (x : σ.Row t) : Prop where
  hidden : c.hidden t x = true
  mem : x ∈ (c.left t).rows ∨ x ∈ (c.right t).rows

/-- The two stores as a request leaves them. -/
structure Aligned (v v' : Store σ) : Prop where
  agree : ∀ t, (v' t).rows.filter (fun r => !c.hidden t r) =
    (v t).rows.filter fun r => !c.hidden t r
  kept : ∀ t, (v t).rows.filter (c.hidden t) =
    (c.left t).rows.filter (c.hidden t)
  kept' : ∀ t, (v' t).rows.filter (c.hidden t) =
    (c.right t).rows.filter (c.hidden t)
  same : ∀ t, c.same t → v' t = v t
  unique : v.Unique
  unique' : v'.Unique

/-- No hidden row has the key `k`. -/
def Clear (t : σ.Table) (k : σ.Key) : Prop :=
  ∀ x, c.Behind t x → σ.key x ≠ k

/-- `r` shares no unique entry with a hidden row that one of the stores might
lack. -/
def Apart (t : σ.Table) (r : σ.Row t) : Prop :=
  c.same t ∨ ∀ x, c.Behind t x → ∀ e ∈ σ.unique r, e ∉ σ.unique x

variable {c} {v v' : Store σ} {t : σ.Table} {r x : σ.Row t} {k : σ.Key}

namespace Aligned

theorem behind (h : c.Aligned v v') (hx : x ∈ (v t).rows)
    (hhidden : c.hidden t x = true) : c.Behind t x := by
  have hmem : x ∈ (c.left t).rows.filter (c.hidden t) :=
    h.kept t ▸ List.mem_filter.mpr ⟨hx, hhidden⟩
  exact ⟨hhidden, Or.inl (List.mem_filter.mp hmem).1⟩

theorem behind' (h : c.Aligned v v') (hx : x ∈ (v' t).rows)
    (hhidden : c.hidden t x = true) : c.Behind t x := by
  have hmem : x ∈ (c.right t).rows.filter (c.hidden t) :=
    h.kept' t ▸ List.mem_filter.mpr ⟨hx, hhidden⟩
  exact ⟨hhidden, Or.inr (List.mem_filter.mp hmem).1⟩

theorem mem_or (h : c.Aligned v v') (hx : c.Behind t x) :
    x ∈ (v t).rows ∨ x ∈ (v' t).rows := by
  rcases hx.mem with hmem | hmem
  · have hfilter : x ∈ (v t).rows.filter (c.hidden t) :=
      h.kept t ▸ List.mem_filter.mpr ⟨hmem, hx.hidden⟩
    exact Or.inl (List.mem_filter.mp hfilter).1
  · have hfilter : x ∈ (v' t).rows.filter (c.hidden t) :=
      h.kept' t ▸ List.mem_filter.mpr ⟨hmem, hx.hidden⟩
    exact Or.inr (List.mem_filter.mp hfilter).1

/-- Both stores have the same rows in sight. -/
theorem mem_iff (h : c.Aligned v v') (hx : c.hidden t x = false) :
    x ∈ (v' t).rows ↔ x ∈ (v t).rows := by
  have hfilter : x ∈ (v' t).rows.filter (fun r => !c.hidden t r) ↔
      x ∈ (v t).rows.filter fun r => !c.hidden t r := by
    rw [h.agree t]
  simpa [List.mem_filter, hx] using hfilter

/-- The key of a row in sight is no hidden row's. -/
theorem clear_of_mem (h : c.Aligned v v') (hx : x ∈ (v t).rows)
    (hsight : c.hidden t x = false) : c.Clear t (σ.key x) := by
  intro y hy hkey
  have hyx : y = x := by
    rcases h.mem_or hy with hmem | hmem
    · exact (v t).eq_of_key_eq hmem hx hkey
    · exact (v' t).eq_of_key_eq hmem ((h.mem_iff hsight).mpr hx) hkey
  have hhidden := hy.hidden
  rw [hyx, hsight] at hhidden
  cases hhidden

/-- The rows under a key that no hidden row has are in sight. -/
theorem sight (h : c.Aligned v v') (hk : c.Clear t k) (hx : x ∈ (v t).rows)
    (hkey : σ.key x = k) : c.hidden t x = false := by
  by_contra hhidden
  exact hk x (h.behind hx (by simpa using hhidden)) hkey

theorem sight' (h : c.Aligned v v') (hk : c.Clear t k)
    (hx : x ∈ (v' t).rows) (hkey : σ.key x = k) : c.hidden t x = false := by
  by_contra hhidden
  exact hk x (h.behind' hx (by simpa using hhidden)) hkey

/-! ## Reads -/

/-- A key that no hidden row has is looked up with the same result. -/
theorem lookup_eq (h : c.Aligned v v') (hk : c.Clear t k) :
    (v' t).lookup k = (v t).lookup k := by
  apply Option.ext
  intro x
  rw [Relation.lookup_eq_some_iff, Relation.lookup_eq_some_iff]
  constructor
  · rintro ⟨hx, hkey⟩
    exact ⟨(h.mem_iff (h.sight' hk hx hkey)).mp hx, hkey⟩
  · rintro ⟨hx, hkey⟩
    exact ⟨(h.mem_iff (h.sight hk hx hkey)).mpr hx, hkey⟩

/-- Rows of which none is hidden are found in both. -/
theorem filter_eq (h : c.Aligned v v') {p : σ.Row t → Bool}
    (hp : ∀ x, c.Behind t x → p x = false) :
    (v' t).rows.filter p = (v t).rows.filter p := by
  have hsight : ∀ rows : List (σ.Row t),
      (∀ x ∈ rows, c.hidden t x = true → c.Behind t x) →
      (rows.filter fun r => !c.hidden t r).filter p = rows.filter p := by
    intro rows hrows
    rw [List.filter_filter]
    apply List.filter_congr
    intro x hx
    by_cases hhidden : c.hidden t x = true
    · simp [hp x (hrows x hx hhidden)]
    · simp [hhidden]
  rw [← hsight (v' t).rows fun x hx => h.behind' hx,
    ← hsight (v t).rows fun x hx => h.behind hx, h.agree t]

theorem any_eq (h : c.Aligned v v') {p : σ.Row t → Bool}
    (hp : ∀ x, c.Behind t x → p x = false) :
    (v' t).rows.any p = (v t).rows.any p := by
  rw [Bool.eq_iff_iff, List.any_eq_true, List.any_eq_true]
  have hmem : ∀ x, x ∈ (v' t).rows.filter p ↔ x ∈ (v t).rows.filter p := by
    intro x
    rw [h.filter_eq hp]
  simpa only [List.mem_filter] using exists_congr hmem

theorem clash_eq (h : c.Aligned v v') (hr : c.Apart t r) :
    v'.clash t r = v.clash t r := by
  rcases hr with hsame | hr
  · simp only [Store.clash, h.same t hsame]
  · unfold Store.clash
    refine List.find?_congr fun e he => ?_
    apply h.any_eq
    intro x hx
    simp [hr x hx e he]

theorem conflict_eq (h : c.Aligned v v')
    (hk : c.same t ∨ c.Clear t (σ.key r)) (hr : c.Apart t r) :
    v'.conflict t r = v.conflict t r := by
  have hlookup : (v' t).lookup (σ.key r) = (v t).lookup (σ.key r) := by
    rcases hk with hsame | hclear
    · rw [h.same t hsame]
    · exact h.lookup_eq hclear
  rw [Store.conflict, Store.conflict, hlookup, h.clash_eq hr]

/-! ## Writes -/

theorem filter_put {R : Relation σ t} {p : σ.Row t → Bool}
    (hr : p r = true) (hp : ∀ y ∈ R.rows, σ.key y = σ.key r → p y = true) :
    (R.put r).rows.filter p =
      if σ.key r ∈ (R.rows.filter p).map σ.key then
        (R.rows.filter p).map fun x => if σ.key x = σ.key r then r else x
      else R.rows.filter p ++ [r] := by
  have hkeys : σ.key r ∈ (R.rows.filter p).map σ.key ↔
      σ.key r ∈ R.rows.map σ.key := by
    simp only [List.mem_map, List.mem_filter]
    constructor
    · rintro ⟨y, ⟨hy, _⟩, hkey⟩
      exact ⟨y, hy, hkey⟩
    · rintro ⟨y, hy, hkey⟩
      exact ⟨y, ⟨hy, hp y hy hkey⟩, hkey⟩
  simp only [hkeys]
  by_cases hmem : σ.key r ∈ R.rows.map σ.key
  · rw [if_pos hmem, Relation.put_rows_of_mem hmem, List.filter_map]
    refine congrArg _ (List.filter_congr fun y hy => ?_)
    by_cases hkey : σ.key y = σ.key r
    · simp [hkey, hr, hp y hy hkey]
    · simp [hkey]
  · have hnone : R.lookup (σ.key r) = none := by
      simpa [Relation.lookup_eq_none_iff] using hmem
    rw [if_neg hmem, Relation.put_rows_of_not_mem hnone, List.filter_append]
    simp [hr]

theorem filter_put_of_not {R : Relation σ t} {p : σ.Row t → Bool}
    (hr : p r = false) (hp : ∀ y ∈ R.rows, σ.key y = σ.key r → p y = false) :
    (R.put r).rows.filter p = R.rows.filter p := by
  by_cases hmem : σ.key r ∈ R.rows.map σ.key
  · rw [Relation.put_rows_of_mem hmem, List.filter_map]
    have hcongr : R.rows.filter (p ∘ fun x =>
        if σ.key x = σ.key r then r else x) = R.rows.filter p := by
      apply List.filter_congr
      intro y hy
      by_cases hkey : σ.key y = σ.key r
      · simp [hkey, hr, hp y hy hkey]
      · simp [hkey]
    rw [hcongr]
    refine (List.map_congr_left fun y hy => ?_).trans (List.map_id _)
    obtain ⟨hy, hpy⟩ := List.mem_filter.mp hy
    apply if_neg
    intro hkey
    rw [hp y hy hkey] at hpy
    cases hpy
  · have hnone : R.lookup (σ.key r) = none := by
      simpa [Relation.lookup_eq_none_iff] using hmem
    rw [Relation.put_rows_of_not_mem hnone, List.filter_append]
    simp [hr]

/-- A table is replaced in both, with the same hidden rows. -/
theorem replace (h : c.Aligned v v') {u u' : Store σ}
    (hrest : ∀ a, a ≠ t → u a = v a) (hrest' : ∀ a, a ≠ t → u' a = v' a)
    (hagree : (u' t).rows.filter (fun r => !c.hidden t r) =
      (u t).rows.filter fun r => !c.hidden t r)
    (hkept : (u t).rows.filter (c.hidden t) = (v t).rows.filter (c.hidden t))
    (hkept' : (u' t).rows.filter (c.hidden t) =
      (v' t).rows.filter (c.hidden t))
    (hsame : v' t = v t → u' t = u t) (hunique : u.Unique)
    (hunique' : u'.Unique) : c.Aligned u u' where
  agree := by
    intro a
    by_cases hat : a = t
    · subst a
      exact hagree
    · rw [hrest a hat, hrest' a hat]
      exact h.agree a
  kept := by
    intro a
    by_cases hat : a = t
    · subst a
      exact hkept.trans (h.kept t)
    · rw [hrest a hat]
      exact h.kept a
  kept' := by
    intro a
    by_cases hat : a = t
    · subst a
      exact hkept'.trans (h.kept' t)
    · rw [hrest' a hat]
      exact h.kept' a
  same := by
    intro a ha
    by_cases hat : a = t
    · subst a
      exact hsame (h.same t ha)
    · rw [hrest a hat, hrest' a hat]
      exact h.same a ha
  unique := hunique
  unique' := hunique'

/-- A row in sight is written, under a key that no hidden row has. -/
theorem put (h : c.Aligned v v') (hr : c.hidden t r = false)
    (hk : c.Clear t (σ.key r)) (hclash : v.clash t r = none)
    (hclash' : v'.clash t r = none) :
    c.Aligned (v.write (.put t r)) (v'.write (.put t r)) := by
  refine h.replace (fun a => Store.write_put_of_ne v r)
    (fun a => Store.write_put_of_ne v' r) ?_ ?_ ?_ (fun hsame => ?_)
    (h.unique.put hclash) (h.unique'.put hclash')
  · rw [Store.write_put_self, Store.write_put_self,
      filter_put (by simp [hr]) fun y hy hkey => by simp [h.sight' hk hy hkey],
      filter_put (by simp [hr]) fun y hy hkey => by simp [h.sight hk hy hkey],
      h.agree]
  · rw [Store.write_put_self]
    exact filter_put_of_not hr fun y hy hkey => h.sight hk hy hkey
  · rw [Store.write_put_self]
    exact filter_put_of_not hr fun y hy hkey => h.sight' hk hy hkey
  · rw [Store.write_put_self, Store.write_put_self, hsame]

theorem filter_del_of_not {R : Relation σ t} {p : σ.Row t → Bool}
    (hp : ∀ y ∈ R.rows, σ.key y = k → p y = false) :
    (R.del k).rows.filter p = R.rows.filter p := by
  rw [Relation.del, List.filter_filter]
  apply List.filter_congr
  intro y hy
  by_cases hkey : σ.key y = k
  · simp [hp y hy hkey]
  · simp [hkey]

/-- A row is deleted under a key that no hidden row has. -/
theorem del (h : c.Aligned v v') (hk : c.Clear t k) :
    c.Aligned (v.write (.del t k)) (v'.write (.del t k)) := by
  have hcomm : ∀ (R : Relation σ t) (p : σ.Row t → Bool),
      (R.del k).rows.filter p =
        (R.rows.filter p).filter fun x => σ.key x ≠ k := by
    intro R p
    rw [Relation.del, List.filter_filter, List.filter_filter]
    exact List.filter_congr fun _ _ => Bool.and_comm _ _
  refine h.replace (fun a => Store.write_del_of_ne v k)
    (fun a => Store.write_del_of_ne v' k) ?_ ?_ ?_ (fun hsame => ?_)
    (h.unique.del k) (h.unique'.del k)
  · rw [Store.write_del_self, Store.write_del_self, hcomm, hcomm, h.agree]
  · rw [Store.write_del_self]
    exact filter_del_of_not fun y hy hkey => h.sight hk hy hkey
  · rw [Store.write_del_self]
    exact filter_del_of_not fun y hy hkey => h.sight' hk hy hkey
  · rw [Store.write_del_self, Store.write_del_self, hsame]

/-- A row in sight is inserted. -/
theorem insert (h : c.Aligned v v') (hr : c.hidden t r = false)
    (hconflict : v.conflict t r = none) (hconflict' : v'.conflict t r = none) :
    c.Aligned (v.write (.put t r)) (v'.write (.put t r)) := by
  have hnone := Store.lookup_of_conflict_none hconflict
  have hnone' := Store.lookup_of_conflict_none hconflict'
  refine h.put hr (fun x hx => ?_) (Store.clash_of_conflict_none hconflict)
    (Store.clash_of_conflict_none hconflict')
  rcases h.mem_or hx with hmem | hmem
  · exact Relation.lookup_eq_none_iff.mp hnone x hmem
  · exact Relation.lookup_eq_none_iff.mp hnone' x hmem

/-- A row that only repeats the unique entries of the row that it replaces. -/
theorem clash_eq_none {s : Store σ} (h : s.Unique) (hx : x ∈ (s t).rows)
    (hkey : σ.key r = σ.key x) (hr : ∀ e ∈ σ.unique r, e ∈ σ.unique x) :
    s.clash t r = none := by
  apply Store.clash_eq_none_iff.mpr
  intro e he y hy hey
  rw [hkey]
  exact h t y hy x hx e hey (hr e he)

end Aligned

/-! ## Locking statements -/

/-- A row in sight that may replace `x`. -/
structure Replaces (c : Curtain σ) {t : σ.Table} (x r : σ.Row t) : Prop where
  sight : c.hidden t r = false
  apart : c.Apart t r ∨ ∀ e ∈ σ.unique r, e ∈ σ.unique x

/-- A statement that matches no hidden row, and writes rows in sight. -/
structure InSight (c : Curtain σ) {t : σ.Table} (q : Scan σ t) : Prop where
  pred : ∀ x, c.Behind t x → q.pred x = false
  write : ∀ x r, c.hidden t x = false → q.pred x = true →
    q.effect x = .write r → c.Replaces x r

theorem Replaces.clash_eq (hr : c.Replaces x r) (h : c.Aligned v v')
    (hx : x ∈ (v t).rows) (hx' : x ∈ (v' t).rows)
    (hkey : σ.key r = σ.key x) : v'.clash t r = v.clash t r := by
  rcases hr.apart with hapart | hsub
  · exact h.clash_eq hapart
  · rw [Aligned.clash_eq_none h.unique hx hkey hsub,
      Aligned.clash_eq_none h.unique' hx' hkey hsub]

namespace InSight

variable {q : Scan σ t}

/-- A row that a visit finds and that matches is in sight. -/
theorem sight (hq : c.InSight q) (h : c.Aligned v v')
    (hx : (v t).lookup k = some x) (hpred : q.pred x = true) :
    c.hidden t x = false := by
  by_contra hhidden
  rw [hq.pred x (h.behind (Relation.mem_of_lookup hx) (by simpa using hhidden))]
    at hpred
  cases hpred

theorem visit_eq (hq : c.InSight q) (h : c.Aligned v v') (k : σ.Key) :
    q.visit v' k = q.visit v k := by
  rcases Contract.visit_cases q v k with ⟨hskip, hgone⟩ | ⟨x, hx, hpred⟩
  · rcases Contract.visit_cases q v' k with ⟨hskip', -⟩ | ⟨x, hx, hpred⟩
    · rw [hskip, hskip']
    · have hsight : c.hidden t x = false := by
        by_contra hhidden
        have hbehind := h.behind' (Relation.mem_of_lookup hx)
          (by simpa using hhidden)
        rw [hq.pred x hbehind] at hpred
        cases hpred
      have hmem := (h.mem_iff hsight).mp (Relation.mem_of_lookup hx)
      have hlook := Relation.lookup_key hmem
      rw [Relation.key_of_lookup hx] at hlook
      rw [hgone x hlook] at hpred
      cases hpred
  · have hsight := hq.sight h hx hpred
    have hclear := h.clear_of_mem (Relation.mem_of_lookup hx) hsight
    rw [Relation.key_of_lookup hx] at hclear
    have hx' : (v' t).lookup k = some x := (h.lookup_eq hclear).trans hx
    simp only [Scan.visit, hx, hx', if_pos hpred]
    cases heffect : q.effect x with
    | write r =>
        by_cases hkey : σ.key r = k
        · have hclash := (hq.write x r hsight hpred heffect).clash_eq h
            (Relation.mem_of_lookup hx) (Relation.mem_of_lookup hx')
            (hkey.trans (Relation.key_of_lookup hx).symm)
          simp only [hclash]
        · simp only [hkey, false_and]
    | _ => rfl

theorem alike (hq : c.InSight q) : q.Alike c.Aligned where
  visits := by
    intro v v' h keys
    have hcandidates : q.candidates v' = q.candidates v :=
      congrArg (List.map σ.key) (h.filter_eq hq.pred)
    unfold Scan.Visits
    rw [hcandidates]
    apply and_congr_right
    intro hperm
    have hrows : keys.filterMap (v' t).lookup =
        keys.filterMap (v t).lookup := by
      apply List.filterMap_congr
      intro k hk
      obtain ⟨x, hx, rfl⟩ := List.mem_map.mp (hperm.mem_iff.mp hk)
      obtain ⟨hmem, hpred⟩ := List.mem_filter.mp hx
      exact h.lookup_eq (h.clear_of_mem hmem
        (hq.sight h (Relation.lookup_key hmem) hpred))
    rw [hrows]
  visit := fun v v' k h => hq.visit_eq h k
  keep := by
    intro v v' k r ws refs h hvisit
    rcases Contract.visit_cases q v k with ⟨hskip, -⟩ | ⟨x, hx, hpred⟩
    · rw [hskip] at hvisit
      cases hvisit
    have hsight := hq.sight h hx hpred
    have hclear := h.clear_of_mem (Relation.mem_of_lookup hx) hsight
    rw [Relation.key_of_lookup hx] at hclear
    simp only [Scan.visit, hx, if_pos hpred] at hvisit
    cases heffect : q.effect x with
    | lock =>
        rw [heffect] at hvisit
        cases hvisit
        exact h
    | delete =>
        rw [heffect] at hvisit
        cases hvisit
        exact h.del hclear
    | reject =>
        rw [heffect] at hvisit
        cases hvisit
    | write r' =>
        simp only [heffect] at hvisit
        split at hvisit
        · next hok =>
            cases hvisit
            have hr := hq.write x r hsight hpred heffect
            have hx' : (v' t).lookup k = some x :=
              (h.lookup_eq hclear).trans hx
            refine h.put hr.sight (hok.1 ▸ hclear) hok.2 ?_
            rw [hr.clash_eq h (Relation.mem_of_lookup hx)
              (Relation.mem_of_lookup hx')
              (hok.1.trans (Relation.key_of_lookup hx).symm)]
            exact hok.2
        · cases hvisit

/-- What `SELECT ... FOR UPDATE` returns. -/
theorem returns (hq : c.InSight q) (hlock : ∀ x, q.effect x = .lock)
    (h : q.Returns c.Aligned r) :
    q.pred r = true ∧ c.hidden t r = false ∧ c.Clear t (σ.key r) := by
  obtain ⟨v, v', k, ws, refs, halign, hvisit⟩ := h
  rcases Contract.visit_lock_cases hlock v k with hskip | ⟨x, hx, hpred, hkeep⟩
  · rw [hskip] at hvisit
    cases hvisit
  · rw [hkeep] at hvisit
    cases hvisit
    have hsight := hq.sight halign hx hpred
    exact ⟨hpred, hsight,
      halign.clear_of_mem (Relation.mem_of_lookup hx) hsight⟩

end InSight

/-! ## Rules -/

section Rules

variable {N : ℕ → Prop}

open Prog

theorem alike_insertRow_bind (hr : c.hidden t r = false)
    (hk : c.same t ∨ c.Clear t (σ.key r)) (hapart : c.Apart t r)
    {f : Option σ.Key → Prog σ ε α} (h : ∀ e, (f e).Alike c.Aligned N) :
    (insertRow t r >>= f).Alike c.Aligned N := by
  refine Prog.alike_insertRow_bind
    (fun v v' halign => halign.conflict_eq hk hapart)
    (fun v v' halign hnone => halign.insert hr hnone ?_) h
  exact (halign.conflict_eq hk hapart).trans hnone

theorem alike_insertOrHalt (hr : c.hidden t r = false)
    (hk : c.same t ∨ c.Clear t (σ.key r)) (hapart : c.Apart t r) :
    (insertOrHalt t r : Prog σ ε Unit).Alike c.Aligned N := by
  refine Prog.alike_insertOrHalt
    (fun v v' halign => halign.conflict_eq hk hapart)
    fun v v' halign hnone => halign.insert hr hnone ?_
  exact (halign.conflict_eq hk hapart).trans hnone

theorem inSight_byKey {effect : σ.Row t → Effect (σ.Row t)}
    (hk : c.Clear t k)
    (hwrite : ∀ x r, c.hidden t x = false → σ.key x = k →
      effect x = .write r → c.Replaces x r) :
    c.InSight (byKey k effect) where
  pred := fun x hx => decide_eq_false (hk x hx)
  write := fun x r hx hpred => hwrite x r hx (of_decide_eq_true hpred)

end Rules

end Curtain
end ReadCommitted
