import Workstream.Keyset.Page

/-!
# Walks over the pages

The rows change between the pages, but a row keeps its key.  Whatever happens,
a walk goes forward through the keys and misses none of those that are there
all the time.
-/

namespace Keyset

variable {ρ κ : Type}

/-- The rows that are there when a page is read, and the page. -/
structure Visit (ρ κ : Type) where
  rows : List ρ
  page : Page ρ κ

/-- The rows that a walk has returned. -/
def returned (visits : List (Visit ρ κ)) : List ρ :=
  visits.flatMap fun v => v.page.items

/-- The last page has no next cursor. -/
def Finished (visits : List (Visit ρ κ)) : Prop :=
  ∃ v, visits.getLast? = some v ∧ v.page.next = none

/-- The rows are different at every moment. -/
def Distinct (key : ρ → κ) (visits : List (Visit ρ κ)) : Prop :=
  ∀ v ∈ visits, (v.rows.map key).Nodup

theorem returned_cons (v : Visit ρ κ) (visits : List (Visit ρ κ)) :
    returned (v :: visits) = v.page.items ++ returned visits := rfl

theorem returned_singleton (v : Visit ρ κ) : returned [v] = v.page.items :=
  List.append_nil _

theorem Distinct.tail {key : ρ → κ} {v : Visit ρ κ} {visits : List (Visit ρ κ)}
    (h : Distinct key (v :: visits)) : Distinct key visits :=
  fun x hx => h x (List.mem_cons_of_mem v hx)

theorem Finished.tail {v : Visit ρ κ} {visits : List (Visit ρ κ)} {c : κ}
    (h : Finished (v :: visits)) (hnext : v.page.next = some c) :
    Finished visits := by
  obtain ⟨x, hx, hlast⟩ := h
  cases visits with
  | nil =>
      have hvx : some v = some x := hx
      obtain rfl := Option.some.inj hvx
      rw [hnext] at hlast
      cases hlast
  | cons u visits => exact ⟨x, hx, hlast⟩

section Walk

variable [LinearOrder κ] {key : ρ → κ}

/-- A walk from page to page; it may stop before its last page. -/
inductive Walk (key : ρ → κ) : Option κ → List (Visit ρ κ) → Prop where
  | nil (cursor : Option κ) : Walk key cursor []
  | last (cursor : Option κ) (rows : List ρ) (limit : ℕ) (hlimit : 1 ≤ limit)
      (hnext : (page key rows cursor limit).next = none) :
      Walk key cursor [⟨rows, page key rows cursor limit⟩]
  | next (cursor : Option κ) (rows : List ρ) (limit : ℕ) (c : κ)
      (visits : List (Visit ρ κ)) (hlimit : 1 ≤ limit)
      (hnext : (page key rows cursor limit).next = some c)
      (hrest : Walk key (some c) visits) :
      Walk key cursor (⟨rows, page key rows cursor limit⟩ :: visits)

variable {cursor : Option κ} {visits : List (Visit ρ κ)}

theorem Walk.after (h : Walk key cursor visits) :
    ∀ x ∈ returned visits, After cursor (key x) := by
  induction h with
  | nil cursor => simp [returned]
  | last cursor rows limit hlimit hnext =>
      intro x hx
      rw [returned_singleton] at hx
      exact after_of_mem_items hx
  | next cursor rows limit c visits hlimit hnext hrest ih =>
      intro x hx
      rw [returned_cons, List.mem_append] at hx
      rcases hx with hx | hx
      · exact after_of_mem_items hx
      · obtain ⟨_, y, hy, rfl⟩ := page_next_some hnext
        have hyafter := after_of_mem_items (List.mem_of_getLast? hy)
        exact hyafter.trans (after_some.mp (ih x hx))

/-- A page shows rows that are there. -/
theorem Walk.sound (h : Walk key cursor visits) :
    ∀ v ∈ visits, ∀ x ∈ v.page.items, x ∈ v.rows := by
  have hpage : ∀ {cursor : Option κ} {rows : List ρ} {limit : ℕ} {x : ρ},
      x ∈ (page key rows cursor limit).items → x ∈ rows := by
    intro cursor rows limit x hx
    rw [page_items] at hx
    exact (mem_found.mp (List.mem_of_mem_take hx)).1
  induction h with
  | nil cursor => simp
  | last cursor rows limit hlimit hnext =>
      intro v hv x hx
      rw [List.mem_singleton.mp hv] at hx ⊢
      exact hpage hx
  | next cursor rows limit c visits hlimit hnext hrest ih =>
      intro v hv x hx
      rcases List.mem_cons.mp hv with rfl | hv
      · exact hpage hx
      · exact ih v hv x hx

theorem Walk.mem_rows (h : Walk key cursor visits) :
    ∀ x ∈ returned visits, ∃ v ∈ visits, x ∈ v.rows := by
  intro x hx
  obtain ⟨v, hv, hxv⟩ := List.mem_flatMap.mp hx
  exact ⟨v, hv, h.sound v hv x hxv⟩

/-- A walk goes forward. -/
theorem Walk.pairwise (h : Walk key cursor visits)
    (hkeys : Distinct key visits) :
    (returned visits).Pairwise (key · < key ·) := by
  induction h with
  | nil cursor => exact List.Pairwise.nil
  | last cursor rows limit hlimit hnext =>
      rw [returned_singleton]
      exact items_lt (hkeys _ List.mem_cons_self)
  | next cursor rows limit c visits hlimit hnext hrest ih =>
      have hrows := hkeys _ List.mem_cons_self
      rw [returned_cons, List.pairwise_append]
      refine ⟨items_lt hrows, ih hkeys.tail, ?_⟩
      intro x hx y hy
      have hxc := le_next hrows hnext hx
      have hcy := after_some.mp (hrest.after y hy)
      exact hxc.trans_lt hcy

/-- A key that is there all the time is returned by the end of the walk. -/
theorem Walk.complete (h : Walk key cursor visits)
    (hkeys : Distinct key visits) (hfinished : Finished visits) {k : κ}
    (hafter : After cursor k)
    (hthere : ∀ v ∈ visits, ∃ r ∈ v.rows, key r = k) :
    ∃ x ∈ returned visits, key x = k := by
  induction h with
  | nil cursor =>
      obtain ⟨v, hv, _⟩ := hfinished
      cases hv
  | last cursor rows limit hlimit hnext =>
      obtain ⟨r, hr, rfl⟩ := hthere _ List.mem_cons_self
      have hmem : r ∈ found key rows cursor := mem_found.mpr ⟨hr, hafter⟩
      have hlength := (page_next_none hlimit).mp hnext
      refine ⟨r, ?_, rfl⟩
      rw [returned_singleton, page_items, List.take_of_length_le hlength]
      exact hmem
  | next cursor rows limit c visits hlimit hnext hrest ih =>
      by_cases hck : c < k
      · obtain ⟨x, hx, hk⟩ := ih hkeys.tail (hfinished.tail hnext)
          (after_some.mpr hck)
          fun v hv => hthere v (List.mem_cons_of_mem _ hv)
        exact ⟨x, List.mem_append_right _ hx, hk⟩
      · obtain ⟨r, hr, rfl⟩ := hthere _ List.mem_cons_self
        have hrows := hkeys _ List.mem_cons_self
        have hmem : r ∈ found key rows cursor := mem_found.mpr ⟨hr, hafter⟩
        have hpage := mem_items_of_not_lt hrows hnext hmem hck
        exact ⟨r, List.mem_append_left _ hpage, rfl⟩

/-- If nothing changes, the pages put together are what is found, from the
start. -/
theorem Walk.constant (h : Walk key cursor visits) {rows : List ρ}
    (hrows : (rows.map key).Nodup) (hsame : ∀ v ∈ visits, v.rows = rows) :
    returned visits <+: found key rows cursor ∧
      (Finished visits → returned visits = found key rows cursor) := by
  induction h with
  | nil cursor =>
      refine ⟨List.nil_prefix, ?_⟩
      rintro ⟨v, hv, _⟩
      cases hv
  | last cursor rows' limit hlimit hnext =>
      obtain rfl : rows' = rows := hsame _ List.mem_cons_self
      have hlength := (page_next_none hlimit).mp hnext
      have hall : returned [Visit.mk rows' (page key rows' cursor limit)] =
          found key rows' cursor := by
        rw [returned_singleton, page_items, List.take_of_length_le hlength]
      exact ⟨hall ▸ List.prefix_rfl, fun _ => hall⟩
  | next cursor rows' limit c visits hlimit hnext hrest ih =>
      obtain rfl : rows' = rows := hsame _ List.mem_cons_self
      obtain ⟨hfront, hall⟩ := ih fun v hv =>
        hsame v (List.mem_cons_of_mem _ hv)
      have hgoes := found_next hrows hnext
      have hsplit := List.take_append_drop limit (found key rows' cursor)
      rw [returned_cons, page_items]
      rw [hgoes] at hfront hall
      constructor
      · have hpages := (List.prefix_append_right_inj
          ((found key rows' cursor).take limit)).mpr hfront
        rwa [hsplit] at hpages
      · intro hfinished
        rw [hall (hfinished.tail hnext), hsplit]

/-- Every page but the last one has a row. -/
theorem Walk.length_le (h : Walk key cursor visits) :
    visits.length ≤ (returned visits).length ∨ Finished visits := by
  induction h with
  | nil cursor => simp
  | last cursor rows limit hlimit hnext => exact Or.inr ⟨_, rfl, hnext⟩
  | next cursor rows limit c visits hlimit hnext hrest ih =>
      have hpos : 1 ≤ (page key rows cursor limit).items.length := by
        obtain ⟨_, x, hx, _⟩ := page_next_some hnext
        exact List.length_pos_of_mem (List.mem_of_getLast? hx)
      rcases ih with hlength | ⟨v, hv, hlast⟩
      · left
        rw [returned_cons, List.length_append, List.length_cons]
        dsimp only
        omega
      · refine Or.inr ⟨v, ?_, hlast⟩
        rw [List.getLast?_cons, hv]
        rfl

/-- If nothing changes, a walk ends. -/
theorem Walk.finished (h : Walk key cursor visits) {rows : List ρ}
    (hrows : (rows.map key).Nodup) (hsame : ∀ v ∈ visits, v.rows = rows)
    (hlength : (found key rows cursor).length < visits.length) :
    Finished visits := by
  have hfront := (h.constant hrows hsame).1.length_le
  rcases h.length_le with hle | hfinished
  · omega
  · exact hfinished

end Walk

end Keyset
