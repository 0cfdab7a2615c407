import Mathlib.Data.List.Sort
import Mathlib.Data.List.TakeDrop
import Mathlib.Order.Basic

/-!
# Pages after a key

A page holds the least rows after a cursor.  One row more than its limit is
looked for, and if there is one, the key of the last row of the page becomes
the next cursor.
-/

namespace Keyset

variable {ρ κ : Type} [LinearOrder κ]

structure Page (ρ κ : Type) where
  items : List ρ
  next : Option κ

/-- The key comes after the cursor, if there is one. -/
def After (cursor : Option κ) (k : κ) : Prop :=
  ∀ c ∈ cursor, c < k

instance (cursor : Option κ) (k : κ) : Decidable (After cursor k) :=
  match cursor with
  | none => .isTrue fun _ h => by cases h
  | some c => decidable_of_iff (c < k) (by simp [After])

/-- The rows after the cursor, in the order of their keys. -/
def found (key : ρ → κ) (rows : List ρ) (cursor : Option κ) : List ρ :=
  (rows.filter fun r => After cursor (key r)).mergeSort
    fun a b => key a ≤ key b

def page (key : ρ → κ) (rows : List ρ) (cursor : Option κ) (limit : ℕ) :
    Page ρ κ :=
  let ahead := (found key rows cursor).take (limit + 1)
  { items := ahead.take limit
    next := if limit < ahead.length then (ahead.take limit).getLast?.map key
      else none }

section Page

variable {key : ρ → κ} {rows : List ρ} {cursor : Option κ} {limit : ℕ}

theorem after_some {c k : κ} : After (some c) k ↔ c < k := by
  simp [After]

theorem After.trans {k k' : κ} (h : After cursor k) (h' : k < k') :
    After cursor k' :=
  fun c hc => (h c hc).trans h'

theorem found_perm :
    (found key rows cursor).Perm (rows.filter fun r => After cursor (key r)) :=
  List.mergeSort_perm _ _

theorem mem_found {r : ρ} :
    r ∈ found key rows cursor ↔ r ∈ rows ∧ After cursor (key r) := by
  rw [found_perm.mem_iff, List.mem_filter, decide_eq_true_eq]

theorem found_le : (found key rows cursor).Pairwise (key · ≤ key ·) := by
  suffices hsorted : (found key rows cursor).Pairwise
      fun a b => decide (key a ≤ key b) = true from
    hsorted.imp fun h => of_decide_eq_true h
  refine List.pairwise_mergeSort ?_ ?_ _
  · intro a b c hab hbc
    simp only [decide_eq_true_eq] at hab hbc ⊢
    exact hab.trans hbc
  · intro a b
    simpa using le_total (key a) (key b)

/-- Rows with different keys are strictly ordered. -/
theorem found_lt (hkeys : (rows.map key).Nodup) :
    (found key rows cursor).Pairwise (key · < key ·) := by
  have hsub : ((rows.filter fun r => After cursor (key r)).map key).Nodup :=
    hkeys.sublist (List.filter_sublist.map key)
  have hnodup : ((found key rows cursor).map key).Nodup :=
    (found_perm.map key).nodup_iff.mpr hsub
  have hne : (found key rows cursor).Pairwise (key · ≠ key ·) :=
    List.pairwise_map.mp hnodup
  exact (found_le.and hne).imp fun h => lt_of_le_of_ne h.1 h.2

theorem page_items :
    (page key rows cursor limit).items =
      (found key rows cursor).take limit := by
  simp [page, List.take_take]

theorem page_next :
    (page key rows cursor limit).next =
      if limit < (found key rows cursor).length then
        ((found key rows cursor).take limit).getLast?.map key
      else none := by
  simp [page, List.take_take]

theorem after_of_mem_items {x : ρ}
    (h : x ∈ (page key rows cursor limit).items) : After cursor (key x) := by
  rw [page_items] at h
  exact (mem_found.mp (List.mem_of_mem_take h)).2

/-- The next cursor is the key of the last row of the page, and there are
rows behind it. -/
theorem page_next_some {c : κ}
    (h : (page key rows cursor limit).next = some c) :
    limit < (found key rows cursor).length ∧
      ∃ x, (page key rows cursor limit).items.getLast? = some x ∧
        key x = c := by
  rw [page_next] at h
  rw [page_items]
  split at h
  · next hlimit => exact ⟨hlimit, Option.map_eq_some_iff.mp h⟩
  · cases h

theorem getLast_of_next {c : κ}
    (h : (page key rows cursor limit).next = some c) :
    (page key rows cursor limit).items.getLast?.map key = some c := by
  obtain ⟨_, x, hx, rfl⟩ := page_next_some h
  rw [hx, Option.map_some]

theorem page_next_none (hlimit : 1 ≤ limit) :
    (page key rows cursor limit).next = none ↔
      (found key rows cursor).length ≤ limit := by
  rw [page_next]
  constructor
  · intro h
    by_contra hlt
    have hlt' : limit < (found key rows cursor).length := by omega
    rw [if_pos hlt', Option.map_eq_none_iff, List.getLast?_eq_none_iff,
      List.take_eq_nil_iff] at h
    rcases h with h | h
    · omega
    · simp [h] at hlt'
  · intro h
    rw [if_neg (by omega)]

/-- The rows beyond the last one of the first `n` are the others. -/
theorem filter_beyond {l : List ρ} (hl : l.Pairwise (key · < key ·)) {n : ℕ}
    {x : ρ} (hx : (l.take n).getLast? = some x) :
    l.filter (fun r => key x < key r) = l.drop n := by
  have hsplit := List.take_append_drop n l
  rw [← hsplit, List.pairwise_append] at hl
  obtain ⟨htake, _, hacross⟩ := hl
  obtain ⟨ys, hys⟩ := List.getLast?_eq_some_iff.mp hx
  have hlast : ∀ y ∈ l.take n, ¬ key x < key y := by
    intro y hy
    rw [hys] at htake hy
    rcases List.mem_append.mp hy with hy | hy
    · have hlt := (List.pairwise_append.mp htake).2.2 y hy x (by simp)
      exact hlt.asymm
    · rw [List.mem_singleton.mp hy]
      exact lt_irrefl _
  have hbeyond : ∀ y ∈ l.drop n, key x < key y := by
    intro y hy
    exact hacross x (List.mem_of_getLast? hx) y hy
  calc l.filter (fun r => key x < key r)
      = (l.take n ++ l.drop n).filter fun r => key x < key r := by
        rw [hsplit]
    _ = l.drop n := by
        rw [List.filter_append, List.filter_eq_nil_iff.mpr (by simpa using hlast),
          List.filter_eq_self.mpr (by simpa using hbeyond), List.nil_append]

theorem items_lt (hkeys : (rows.map key).Nodup) :
    (page key rows cursor limit).items.Pairwise (key · < key ·) := by
  rw [page_items]
  exact (found_lt hkeys).sublist (List.take_sublist _ _)

/-- The next cursor is the greatest key of the page. -/
theorem le_next (hkeys : (rows.map key).Nodup) {c : κ} {x : ρ}
    (h : (page key rows cursor limit).next = some c)
    (hx : x ∈ (page key rows cursor limit).items) : key x ≤ c := by
  obtain ⟨_, z, hz, rfl⟩ := page_next_some h
  obtain ⟨zs, hzs⟩ := List.getLast?_eq_some_iff.mp hz
  have hsorted : (page key rows cursor limit).items.Pairwise
      (key · < key ·) := items_lt hkeys
  rw [hzs] at hx hsorted
  rcases List.mem_append.mp hx with hx | hx
  · exact ((List.pairwise_append.mp hsorted).2.2 x hx z (by simp)).le
  · rw [List.mem_singleton.mp hx]

/-- What is not beyond the next cursor is on the page. -/
theorem mem_items_of_not_lt (hkeys : (rows.map key).Nodup) {c : κ} {r : ρ}
    (h : (page key rows cursor limit).next = some c)
    (hr : r ∈ found key rows cursor) (hc : ¬ c < key r) :
    r ∈ (page key rows cursor limit).items := by
  obtain ⟨_, x, hx, rfl⟩ := page_next_some h
  rw [page_items] at hx ⊢
  rw [← List.take_append_drop limit (found key rows cursor),
    List.mem_append] at hr
  rcases hr with hr | hr
  · exact hr
  · rw [← filter_beyond (found_lt hkeys) hx, List.mem_filter,
      decide_eq_true_eq] at hr
    exact absurd hr.2 hc

/-- On the same rows the next page goes on where the page ends. -/
theorem found_next (hkeys : (rows.map key).Nodup) {c : κ}
    (h : (page key rows cursor limit).next = some c) :
    found key rows (some c) = (found key rows cursor).drop limit := by
  obtain ⟨_, x, hx, rfl⟩ := page_next_some h
  rw [page_items] at hx
  have hxmem := List.mem_of_mem_take (List.mem_of_getLast? hx)
  have hxafter := (mem_found.mp hxmem).2
  have hsorted : (found key rows cursor).Pairwise (key · < key ·) :=
    found_lt hkeys
  have hrows : rows.filter (fun r => After (some (key x)) (key r)) =
      (rows.filter fun r => After cursor (key r)).filter
        fun r => key x < key r := by
    rw [List.filter_filter]
    refine List.filter_congr fun r _ => ?_
    have hiff : After (some (key x)) (key r) ↔
        key x < key r ∧ After cursor (key r) := by
      rw [after_some]
      exact ⟨fun h => ⟨h, hxafter.trans h⟩, And.left⟩
    simp [hiff]
  have hperm : (found key rows (some (key x))).Perm
      ((found key rows cursor).drop limit) := by
    rw [← filter_beyond hsorted hx]
    refine found_perm.trans ?_
    rw [hrows]
    exact (found_perm.filter _).symm
  refine hperm.eq_of_pairwise (fun a b _ _ hab hba => absurd hab hba.asymm)
    (found_lt hkeys) (hsorted.sublist (List.drop_sublist _ _))

/-! ## Images -/

variable {τ : Type} {f : ρ → τ}

theorem found_map {key : τ → κ} :
    found key (rows.map f) cursor =
      (found (fun r => key (f r)) rows cursor).map f := by
  have hsort := List.map_mergeSort (f := f)
    (r := fun a b => decide (key (f a) ≤ key (f b)))
    (s := fun a b => decide (key a ≤ key b))
    (l := rows.filter fun r => After cursor (key (f r))) fun _ _ _ _ => rfl
  rw [found, found, hsort, List.filter_map]
  rfl

/-- A page of the images of rows holds the images of the rows of a page. -/
theorem page_map {key : τ → κ} :
    page key (rows.map f) cursor limit =
      { items := (page (fun r => key (f r)) rows cursor limit).items.map f
        next := (page (fun r => key (f r)) rows cursor limit).next } := by
  simp only [page, found_map, ← List.map_take, List.length_map,
    List.getLast?_map, Option.map_map]
  rfl

end Page

end Keyset
