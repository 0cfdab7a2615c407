import Mathlib.Data.List.Nodup
import Mathlib.Data.List.Permutation
import Mathlib.Logic.Function.Basic

/-!
# Relational stores

A store assigns to every table of a schema a finite list of rows with
pairwise distinct primary keys.  A transaction changes a store through a list
of writes, each of which names the one row that it touches; what the other
rows look like afterwards is therefore decided by a frame lemma.
-/

namespace ReadCommitted

/-- Tables, rows and primary keys of a database, together with the entries
that a row makes in unique indexes and the external calls of its clients. -/
structure Schema where
  Table : Type
  Key : Type
  Call : Type
  Row : Table → Type
  key : {t : Table} → Row t → Key
  unique : {t : Table} → Row t → List Key
  [tableEq : DecidableEq Table]
  [keyEq : DecidableEq Key]
  [rowEq : ∀ t, DecidableEq (Row t)]

attribute [instance] Schema.tableEq Schema.keyEq Schema.rowEq

variable {σ : Schema} {t : σ.Table}

/-- What a row lock is taken on: a row, or an entry of a unique index. -/
abbrev Schema.Ref (σ : Schema) : Type := σ.Table × σ.Key

theorem length_le_one {β : Type} {xs : List β} (hnodup : xs.Nodup)
    (hsame : ∀ x ∈ xs, ∀ y ∈ xs, x = y) : xs.length ≤ 1 := by
  match xs, hnodup, hsame with
  | [], _, _ => exact Nat.zero_le 1
  | [_], _, _ => exact le_refl 1
  | x :: y :: _, hnodup, hsame =>
      have hxy : x = y := hsame x (by simp) y (by simp)
      simp [hxy] at hnodup

/-- A list without duplicates that has one element. -/
theorem eq_singleton {β : Type} {xs : List β} (hnodup : xs.Nodup) {b : β}
    (hmem : ∀ x, x ∈ xs ↔ x = b) : xs = [b] := by
  have hperm : xs.Perm [b] :=
    (List.perm_ext_iff_of_nodup hnodup (List.nodup_singleton b)).mpr
      fun x => by rw [hmem, List.mem_singleton]
  exact List.perm_singleton.mp hperm

/-! ## One table -/

/-- The rows of one table; no two of them share a primary key. -/
structure Relation (σ : Schema) (t : σ.Table) where
  rows : List (σ.Row t)
  nodup : (rows.map σ.key).Nodup

namespace Relation

@[ext] theorem ext {R S : Relation σ t} (h : R.rows = S.rows) : R = S := by
  cases R
  cases S
  simp_all

def empty (t : σ.Table) : Relation σ t where
  rows := []
  nodup := List.nodup_nil

@[simp] theorem empty_rows : (empty (σ := σ) t).rows = [] := rfl

/-- The row with primary key `k`, if there is one. -/
def lookup (R : Relation σ t) (k : σ.Key) : Option (σ.Row t) :=
  R.rows.find? fun r => σ.key r = k

theorem eq_of_key_eq (R : Relation σ t) {x y : σ.Row t}
    (hx : x ∈ R.rows) (hy : y ∈ R.rows) (h : σ.key x = σ.key y) : x = y :=
  List.inj_on_of_nodup_map R.nodup hx hy h

theorem nodup_rows (R : Relation σ t) : R.rows.Nodup :=
  List.Nodup.of_map σ.key R.nodup

theorem lookup_eq_some_iff {R : Relation σ t} {k : σ.Key} {r : σ.Row t} :
    R.lookup k = some r ↔ r ∈ R.rows ∧ σ.key r = k := by
  constructor
  · intro h
    exact ⟨List.mem_of_find?_eq_some h,
      by simpa using List.find?_some h⟩
  · rintro ⟨hr, rfl⟩
    cases hfind : R.lookup (σ.key r) with
    | none =>
        have := List.find?_eq_none.mp hfind r hr
        simp at this
    | some x =>
        have hx : x ∈ R.rows := List.mem_of_find?_eq_some hfind
        have hkey : σ.key x = σ.key r := by
          simpa using List.find?_some hfind
        rw [R.eq_of_key_eq hx hr hkey]

theorem lookup_eq_none_iff {R : Relation σ t} {k : σ.Key} :
    R.lookup k = none ↔ ∀ r ∈ R.rows, σ.key r ≠ k := by
  simp [lookup]

theorem lookup_key {R : Relation σ t} {r : σ.Row t} (h : r ∈ R.rows) :
    R.lookup (σ.key r) = some r :=
  lookup_eq_some_iff.mpr ⟨h, rfl⟩

theorem mem_of_lookup {R : Relation σ t} {k : σ.Key} {r : σ.Row t}
    (h : R.lookup k = some r) : r ∈ R.rows :=
  (lookup_eq_some_iff.mp h).1

theorem key_of_lookup {R : Relation σ t} {k : σ.Key} {r : σ.Row t}
    (h : R.lookup k = some r) : σ.key r = k :=
  (lookup_eq_some_iff.mp h).2

/-- A row that is added was not there. -/
theorem lookup_of_append {R S : Relation σ t} {r : σ.Row t}
    (h : S.rows = R.rows ++ [r]) : R.lookup (σ.key r) = none := by
  have hnodup := S.nodup
  rw [h, List.map_append, List.map_singleton] at hnodup
  rw [lookup_eq_none_iff]
  intro x hx hkey
  have hdisjoint := List.disjoint_of_nodup_append hnodup
  exact hdisjoint (List.mem_map_of_mem hx) (hkey ▸ List.mem_singleton_self _)

theorem filterMap_lookup {R : Relation σ t} {rows : List (σ.Row t)}
    (h : ∀ r ∈ rows, r ∈ R.rows) :
    (rows.map σ.key).filterMap R.lookup = rows := by
  rw [List.filterMap_map]
  calc
    rows.filterMap (R.lookup ∘ σ.key) = rows.filterMap some := by
      apply List.filterMap_congr
      intro r hr
      exact lookup_key (h r hr)
    _ = rows := List.filterMap_some

/-- Replace the row with the key of `r`; a new key goes to the end. -/
def put (R : Relation σ t) (r : σ.Row t) : Relation σ t where
  rows :=
    if σ.key r ∈ R.rows.map σ.key then
      R.rows.map fun x => if σ.key x = σ.key r then r else x
    else R.rows ++ [r]
  nodup := by
    split
    · have hkeys :
          (R.rows.map fun x => if σ.key x = σ.key r then r else x).map σ.key =
            R.rows.map σ.key := by
        rw [List.map_map]
        apply List.map_congr_left
        intro x _
        by_cases hx : σ.key x = σ.key r <;> simp [hx]
      rw [hkeys]
      exact R.nodup
    · next hnew =>
        rw [List.map_append, List.map_singleton]
        exact R.nodup.append (List.nodup_singleton _)
          (by simpa [List.disjoint_singleton] using hnew)

theorem put_rows_of_mem {R : Relation σ t} {r : σ.Row t}
    (h : σ.key r ∈ R.rows.map σ.key) :
    (R.put r).rows =
      R.rows.map fun x => if σ.key x = σ.key r then r else x := by
  simp only [put, if_pos h]

theorem put_rows_of_not_mem {R : Relation σ t} {r : σ.Row t}
    (h : R.lookup (σ.key r) = none) :
    (R.put r).rows = R.rows ++ [r] := by
  have hnew : σ.key r ∉ R.rows.map σ.key := by
    simpa [lookup_eq_none_iff] using h
  simp only [put, if_neg hnew]

theorem mem_put {R : Relation σ t} {r x : σ.Row t} :
    x ∈ (R.put r).rows ↔ x = r ∨ x ∈ R.rows ∧ σ.key x ≠ σ.key r := by
  by_cases h : σ.key r ∈ R.rows.map σ.key
  · rw [put_rows_of_mem h, List.mem_map]
    obtain ⟨y, hy, hkey⟩ := List.mem_map.mp h
    constructor
    · rintro ⟨z, hz, rfl⟩
      by_cases hzr : σ.key z = σ.key r
      · exact Or.inl (by simp [hzr])
      · exact Or.inr (by simp [hzr, hz])
    · rintro (rfl | ⟨hx, hxr⟩)
      · exact ⟨y, hy, by simp [hkey]⟩
      · exact ⟨x, hx, by simp [hxr]⟩
  · have hnone : R.lookup (σ.key r) = none := by
      simpa [lookup_eq_none_iff] using h
    rw [put_rows_of_not_mem hnone, List.mem_append, List.mem_singleton]
    constructor
    · rintro (hx | rfl)
      · exact Or.inr ⟨hx, lookup_eq_none_iff.mp hnone x hx⟩
      · exact Or.inl rfl
    · rintro (rfl | ⟨hx, _⟩)
      · exact Or.inr rfl
      · exact Or.inl hx

/-- Drop the row with key `k`. -/
def del (R : Relation σ t) (k : σ.Key) : Relation σ t where
  rows := R.rows.filter fun x => σ.key x ≠ k
  nodup := R.nodup.sublist (List.filter_sublist.map σ.key)

theorem mem_del {R : Relation σ t} {k : σ.Key} {x : σ.Row t} :
    x ∈ (R.del k).rows ↔ x ∈ R.rows ∧ σ.key x ≠ k := by
  simp [del]

@[simp] theorem lookup_put_self (R : Relation σ t) (r : σ.Row t) :
    (R.put r).lookup (σ.key r) = some r :=
  lookup_eq_some_iff.mpr ⟨mem_put.mpr (Or.inl rfl), rfl⟩

theorem lookup_put_of_ne {R : Relation σ t} {r : σ.Row t} {k : σ.Key}
    (h : σ.key r ≠ k) : (R.put r).lookup k = R.lookup k := by
  apply Option.ext
  intro x
  rw [lookup_eq_some_iff, lookup_eq_some_iff, mem_put]
  constructor
  · rintro ⟨rfl | ⟨hx, _⟩, hk⟩
    · exact absurd hk h
    · exact ⟨hx, hk⟩
  · rintro ⟨hx, rfl⟩
    exact ⟨Or.inr ⟨hx, fun he => h he.symm⟩, rfl⟩

/-- A row that is put, seen by key. -/
theorem lookup_put (R : Relation σ t) (r : σ.Row t) (k : σ.Key) :
    (R.put r).lookup k = if k = σ.key r then some r else R.lookup k := by
  by_cases hk : k = σ.key r
  · rw [if_pos hk, hk, lookup_put_self]
  · rw [if_neg hk, lookup_put_of_ne fun heq => hk heq.symm]

theorem lookup_del_of_ne {R : Relation σ t} {k j : σ.Key} (h : j ≠ k) :
    (R.del j).lookup k = R.lookup k := by
  apply Option.ext
  intro x
  rw [lookup_eq_some_iff, lookup_eq_some_iff, mem_del]
  constructor
  · rintro ⟨⟨hx, _⟩, hk⟩
    exact ⟨hx, hk⟩
  · rintro ⟨hx, rfl⟩
    exact ⟨⟨hx, fun he => h he.symm⟩, rfl⟩

@[simp] theorem lookup_del_self (R : Relation σ t) (k : σ.Key) :
    (R.del k).lookup k = none := by
  rw [lookup_eq_none_iff]
  intro r hr
  exact (mem_del.mp hr).2

end Relation

/-! ## All tables -/

/-- One relation for every table. -/
def Store (σ : Schema) : Type :=
  (t : σ.Table) → Relation σ t

/-- A change of one row. -/
inductive Write (σ : Schema) where
  | put (t : σ.Table) (r : σ.Row t)
  | del (t : σ.Table) (k : σ.Key)

/-- The row that a write touches. -/
def Write.ref : Write σ → σ.Ref
  | .put t r => (t, σ.key r)
  | .del t k => (t, k)

namespace Store

def empty (σ : Schema) : Store σ :=
  fun t => Relation.empty t

def write (s : Store σ) : Write σ → Store σ
  | .put t r => Function.update s t ((s t).put r)
  | .del t k => Function.update s t ((s t).del k)

/-- The store as seen through a list of writes, oldest write first. -/
def view (ws : List (Write σ)) (s : Store σ) : Store σ :=
  ws.foldl write s

@[simp] theorem view_nil (s : Store σ) : view [] s = s := rfl

@[simp] theorem view_cons (w : Write σ) (ws : List (Write σ)) (s : Store σ) :
    view (w :: ws) s = view ws (s.write w) := rfl

theorem view_append (ws vs : List (Write σ)) (s : Store σ) :
    view (ws ++ vs) s = view vs (view ws s) :=
  List.foldl_append

@[simp] theorem write_put_self (s : Store σ) (t : σ.Table) (r : σ.Row t) :
    s.write (.put t r) t = (s t).put r :=
  Function.update_self t _ _

@[simp] theorem write_del_self (s : Store σ) (t : σ.Table) (k : σ.Key) :
    s.write (.del t k) t = (s t).del k :=
  Function.update_self t _ _

theorem write_put_of_ne (s : Store σ) {t u : σ.Table} (r : σ.Row u)
    (h : t ≠ u) : s.write (.put u r) t = s t :=
  Function.update_of_ne h _ _

theorem write_del_of_ne (s : Store σ) {t u : σ.Table} (k : σ.Key)
    (h : t ≠ u) : s.write (.del u k) t = s t :=
  Function.update_of_ne h _ _

/-- A write leaves every row alone but the one that it names. -/
theorem lookup_write_of_ne {s : Store σ} {w : Write σ} {k : σ.Key}
    (h : w.ref ≠ (t, k)) : (s.write w t).lookup k = (s t).lookup k := by
  cases w with
  | put u r =>
      by_cases htu : t = u
      · subst u
        rw [write_put_self]
        exact Relation.lookup_put_of_ne fun he => h (by simp [Write.ref, he])
      · rw [write_put_of_ne s r htu]
  | del u j =>
      by_cases htu : t = u
      · subst u
        rw [write_del_self]
        exact Relation.lookup_del_of_ne fun he => h (by simp [Write.ref, he])
      · rw [write_del_of_ne s j htu]

/-- The frame rule for a whole list of writes. -/
theorem lookup_view_of_not_mem {ws : List (Write σ)} {s : Store σ} {k : σ.Key}
    (h : ∀ w ∈ ws, w.ref ≠ (t, k)) :
    (view ws s t).lookup k = (s t).lookup k := by
  induction ws generalizing s with
  | nil => rfl
  | cons w ws ih =>
      rw [view_cons, ih fun v hv => h v (List.mem_cons_of_mem w hv)]
      exact lookup_write_of_ne (h w List.mem_cons_self)

/-- Writes to other tables leave a table alone. -/
theorem view_of_table_ne {ws : List (Write σ)} {s : Store σ}
    (h : ∀ w ∈ ws, w.ref.1 ≠ t) : view ws s t = s t := by
  induction ws generalizing s with
  | nil => rfl
  | cons w ws ih =>
      rw [view_cons, ih fun v hv => h v (List.mem_cons_of_mem w hv)]
      have hne := h w List.mem_cons_self
      cases w with
      | put u r => exact write_put_of_ne s r fun htu => hne htu.symm
      | del u k => exact write_del_of_ne s k fun htu => hne htu.symm

/-- What writes make of a row depends on that row alone. -/
theorem lookup_view_congr {ws : List (Write σ)} {s s' : Store σ} {k : σ.Key}
    (h : (s t).lookup k = (s' t).lookup k) :
    (view ws s t).lookup k = (view ws s' t).lookup k := by
  induction ws generalizing s s' with
  | nil => exact h
  | cons w ws ih =>
      rw [view_cons, view_cons]
      apply ih
      by_cases href : w.ref = (t, k)
      · match w, href with
        | .put u r, href =>
            obtain ⟨rfl, rfl⟩ := Prod.mk.inj href
            simp only [write_put_self, Relation.lookup_put_self]
        | .del u j, href =>
            obtain ⟨rfl, rfl⟩ := Prod.mk.inj href
            simp only [write_del_self, Relation.lookup_del_self]
      · rw [lookup_write_of_ne href, lookup_write_of_ne href, h]

/-- A row that is put and not touched again is there. -/
theorem lookup_view_put (ws : List (Write σ)) {vs : List (Write σ)}
    {s : Store σ} {r : σ.Row t} (h : ∀ w ∈ vs, w.ref ≠ (t, σ.key r)) :
    (view (ws ++ .put t r :: vs) s t).lookup (σ.key r) = some r := by
  rw [view_append, view_cons, lookup_view_of_not_mem h, write_put_self,
    Relation.lookup_put_self]

/-- A row seen through a list of writes is an old one or was put there. -/
theorem lookup_view_cases {ws : List (Write σ)} {s : Store σ} {k : σ.Key}
    {r : σ.Row t} (h : (view ws s t).lookup k = some r) :
    (s t).lookup k = some r ∨ .put t r ∈ ws := by
  induction ws generalizing s with
  | nil => exact Or.inl h
  | cons w ws ih =>
      rw [view_cons] at h
      rcases ih h with hold | hput
      · by_cases href : w.ref = (t, k)
        · match w, href with
          | .put u r', href =>
              obtain ⟨rfl, hkey⟩ := Prod.mk.inj href
              rw [write_put_self, ← hkey, Relation.lookup_put_self] at hold
              rw [Option.some.inj hold]
              exact Or.inr List.mem_cons_self
          | .del u j, href =>
              obtain ⟨rfl, rfl⟩ := Prod.mk.inj href
              rw [write_del_self, Relation.lookup_del_self] at hold
              cases hold
        · rw [lookup_write_of_ne href] at hold
          exact Or.inl hold
      · exact Or.inr (List.mem_cons_of_mem w hput)

/-- A row that is missing through a list of writes was missing before, or is
deleted by one of them. -/
theorem lookup_view_none {ws : List (Write σ)} {s : Store σ} {k : σ.Key}
    (h : (view ws s t).lookup k = none) :
    (s t).lookup k = none ∨ .del t k ∈ ws := by
  induction ws generalizing s with
  | nil => exact Or.inl h
  | cons w ws ih =>
      rw [view_cons] at h
      rcases ih h with hnone | hdel
      · by_cases href : w.ref = (t, k)
        · match w, href with
          | .put u r', href =>
              obtain ⟨rfl, hkey⟩ := Prod.mk.inj href
              rw [write_put_self, ← hkey, Relation.lookup_put_self] at hnone
              cases hnone
          | .del u j, href =>
              obtain ⟨rfl, rfl⟩ := Prod.mk.inj href
              exact Or.inr List.mem_cons_self
        · rw [lookup_write_of_ne href] at hnone
          exact Or.inl hnone
      · exact Or.inr (List.mem_cons_of_mem w hdel)

/-- The last write of a row decides, if every write of it is a `put`. -/
theorem lookup_view_last {ws : List (Write σ)} {s : Store σ} {k : σ.Key}
    (hput : ∀ w ∈ ws, w.ref = (t, k) → ∃ r, w = .put t r)
    (hmem : ∃ w ∈ ws, w.ref = (t, k)) :
    ∃ r, .put t r ∈ ws ∧ σ.key r = k ∧ (view ws s t).lookup k = some r := by
  induction ws using List.reverseRecOn with
  | nil => simp at hmem
  | append_singleton ws w ih =>
      rw [view_append, view_cons, view_nil]
      by_cases href : w.ref = (t, k)
      · obtain ⟨r, rfl⟩ := hput w (by simp) href
        have hkey : σ.key r = k := (Prod.mk.inj href).2
        refine ⟨r, by simp, hkey, ?_⟩
        rw [write_put_self, ← hkey, Relation.lookup_put_self]
      · obtain ⟨x, hx, hxref⟩ := hmem
        have hxws : x ∈ ws := by
          rcases List.mem_append.mp hx with hx | hx
          · exact hx
          · rw [List.mem_singleton.mp hx] at hxref
            exact absurd hxref href
        obtain ⟨r, hr, hkey, hlook⟩ :=
          ih (fun v hv => hput v (List.mem_append_left _ hv)) ⟨x, hxws, hxref⟩
        refine ⟨r, List.mem_append_left _ hr, hkey, ?_⟩
        rw [lookup_write_of_ne href]
        exact hlook

/-- A list of writes that replaces rows `r` by `g r`. -/
theorem lookup_view_map {g : σ.Row t → σ.Row t} {ws : List (Write σ)}
    {s : Store σ}
    (h : ∀ w ∈ ws, ∃ r, w = .put t (g r) ∧ σ.key (g r) = σ.key r ∧
      (s t).lookup (σ.key r) = some r) (k : σ.Key) :
    (∀ w ∈ ws, w.ref ≠ (t, k)) ∧
        (view ws s t).lookup k = (s t).lookup k ∨
      ∃ r, (s t).lookup k = some r ∧
        (view ws s t).lookup k = some (g r) := by
  by_cases hmem : ∃ w ∈ ws, w.ref = (t, k)
  · have hput : ∀ w ∈ ws, w.ref = (t, k) → ∃ r, w = .put t r := by
      intro w hw _
      obtain ⟨r, hr, _⟩ := h w hw
      exact ⟨g r, hr⟩
    obtain ⟨r', hr', hkey, hlook⟩ := lookup_view_last (s := s) hput hmem
    obtain ⟨r, heq, hgkey, hold⟩ := h _ hr'
    obtain rfl : r' = g r := eq_of_heq (Write.put.inj heq).2
    rw [hkey] at hgkey
    exact Or.inr ⟨r, hgkey ▸ hold, hlook⟩
  · push Not at hmem
    exact Or.inl ⟨hmem, lookup_view_of_not_mem hmem⟩

/-- The key under which a unique index already holds an entry of `r` for
another row. -/
def clash (s : Store σ) (t : σ.Table) (r : σ.Row t) : Option σ.Key :=
  (σ.unique r).find? fun e =>
    (s t).rows.any fun x => σ.key x ≠ σ.key r ∧ e ∈ σ.unique x

/-- The entry that stops `r` from being inserted. -/
def conflict (s : Store σ) (t : σ.Table) (r : σ.Row t) : Option σ.Key :=
  match (s t).lookup (σ.key r) with
  | some _ => some (σ.key r)
  | none => s.clash t r

theorem conflict_eq_clash {s : Store σ} {r : σ.Row t}
    (h : (s t).lookup (σ.key r) = none) : s.conflict t r = s.clash t r := by
  simp [conflict, h]

theorem lookup_of_conflict_none {s : Store σ} {r : σ.Row t}
    (h : s.conflict t r = none) : (s t).lookup (σ.key r) = none := by
  cases hl : (s t).lookup (σ.key r) with
  | none => rfl
  | some x => simp [conflict, hl] at h

/-! ## Unique indexes -/

/-- No two rows of a table share an entry of a unique index. -/
def Unique (s : Store σ) : Prop :=
  ∀ t, ∀ x ∈ (s t).rows, ∀ y ∈ (s t).rows,
    ∀ e ∈ σ.unique x, e ∈ σ.unique y → σ.key x = σ.key y

theorem unique_empty : (empty σ).Unique := by
  intro t x hx
  cases hx

theorem clash_eq_none_iff {s : Store σ} {r : σ.Row t} :
    s.clash t r = none ↔ ∀ e ∈ σ.unique r, ∀ x ∈ (s t).rows,
      e ∈ σ.unique x → σ.key x = σ.key r := by
  simp only [clash, List.find?_eq_none, List.any_eq_true, decide_eq_true_eq,
    not_exists, not_and]
  refine forall₂_congr fun e _ => forall₂_congr fun x _ => ?_
  exact ⟨fun h hex => by_contra fun hne => h hne hex,
    fun h hne hex => hne (h hex)⟩

theorem Unique.put {s : Store σ} (h : s.Unique) {r : σ.Row t}
    (hr : s.clash t r = none) : (s.write (.put t r)).Unique := by
  have hclash := clash_eq_none_iff.mp hr
  intro u x hx y hy e hex hey
  by_cases hut : u = t
  · subst hut
    rw [write_put_self, Relation.mem_put] at hx hy
    rcases hx with rfl | ⟨hx, hxr⟩
    · rcases hy with rfl | ⟨hy, hyr⟩
      · rfl
      · exact absurd (hclash e hex y hy hey) hyr
    · rcases hy with rfl | ⟨hy, _⟩
      · exact hclash e hey x hx hex
      · exact h u x hx y hy e hex hey
  · rw [write_put_of_ne s r hut] at hx hy
    exact h u x hx y hy e hex hey

theorem Unique.del {s : Store σ} (h : s.Unique) (k : σ.Key) :
    (s.write (.del t k)).Unique := by
  intro u x hx y hy e hex hey
  by_cases hut : u = t
  · subst hut
    rw [write_del_self, Relation.mem_del] at hx hy
    exact h u x hx.1 y hy.1 e hex hey
  · rw [write_del_of_ne s k hut] at hx hy
    exact h u x hx y hy e hex hey

theorem clash_of_conflict_none {s : Store σ} {r : σ.Row t}
    (h : s.conflict t r = none) : s.clash t r = none := by
  simpa [conflict, lookup_of_conflict_none h] using h

/-- What writes make of a row that they touch does not depend on the store. -/
theorem lookup_view_of_mem {ws : List (Write σ)} (s s' : Store σ) {k : σ.Key}
    (h : ∃ w ∈ ws, w.ref = (t, k)) :
    (view ws s t).lookup k = (view ws s' t).lookup k := by
  induction ws generalizing s s' with
  | nil => simp at h
  | cons w ws ih =>
      rw [view_cons, view_cons]
      by_cases hrest : ∃ v ∈ ws, v.ref = (t, k)
      · exact ih _ _ hrest
      · push Not at hrest
        obtain ⟨v, hv, href⟩ := h
        obtain rfl : v = w := by
          rcases List.mem_cons.mp hv with hvw | hvw
          · exact hvw
          · exact absurd href (hrest v hvw)
        apply lookup_view_congr
        match v, href with
        | .put u r, href =>
            obtain ⟨rfl, rfl⟩ := Prod.mk.inj href
            simp only [write_put_self, Relation.lookup_put_self]
        | .del u j, href =>
            obtain ⟨rfl, rfl⟩ := Prod.mk.inj href
            simp only [write_del_self, Relation.lookup_del_self]

end Store

end ReadCommitted
