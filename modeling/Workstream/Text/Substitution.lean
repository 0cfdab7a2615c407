import Workstream.Text.Pattern

/-!
# Substitution of the leftmost matches

A text is searched from the left.  A match keeps its front, and a mark stands
for the part that it hides; the search goes on behind it, so that no two of the
matches taken have a position in common.
-/

namespace Text

variable {α : Type}

structure Match (α : Type) where
  kept : List α
  hidden : List α
  rest : List α

/-- A search at the front of a text that always moves on. -/
structure Finder (α : Type) where
  find : List α → Option (Match α)
  split : ∀ text m, find text = some m → text = m.kept ++ m.hidden ++ m.rest
  kept_ne_nil : ∀ text m, find text = some m → m.kept ≠ []

inductive Segment (α : Type) where
  | copied (cs : List α)
  | replaced (cs : List α)

/-- The elements that a segment stands for, each with whether it is hidden. -/
def Segment.marked : Segment α → List (Bool × α)
  | copied cs => cs.map (Prod.mk false)
  | replaced cs => cs.map (Prod.mk true)

def marked (segments : List (Segment α)) : List (Bool × α) :=
  segments.flatMap Segment.marked

/-- The text that is put out. -/
def render (mark : List α) (segments : List (Segment α)) : List α :=
  segments.flatMap fun segment =>
    match segment with
    | .copied cs => cs
    | .replaced _ => mark

/-- The element at this position of the text is not put out. -/
def Hidden (segments : List (Segment α)) (i : ℕ) : Prop :=
  ((marked segments)[i]?).any Prod.fst = true

instance (segments : List (Segment α)) (i : ℕ) :
    Decidable (Hidden segments i) :=
  inferInstanceAs (Decidable (_ = true))

@[simp]
theorem marked_cons (segment : Segment α) (segments : List (Segment α)) :
    marked (segment :: segments) = segment.marked ++ marked segments :=
  List.flatMap_cons

@[simp]
theorem length_marked_copied (cs : List α) :
    (Segment.copied cs).marked.length = cs.length :=
  List.length_map _

@[simp]
theorem length_marked_replaced (cs : List α) :
    (Segment.replaced cs).marked.length = cs.length :=
  List.length_map _

theorem not_hidden_nil (i : ℕ) : ¬Hidden ([] : List (Segment α)) i := by
  simp [Hidden, marked]

theorem hidden_copied {cs : List α} {segments : List (Segment α)} {i : ℕ} :
    Hidden (.copied cs :: segments) i ↔
      cs.length ≤ i ∧ Hidden segments (i - cs.length) := by
  unfold Hidden
  rw [marked_cons]
  by_cases hi : i < cs.length
  · rw [List.getElem?_append_left (by simpa using hi)]
    simp [Segment.marked, hi, not_le.mpr hi]
  · rw [List.getElem?_append_right (by simpa using hi)]
    simp [not_lt.mp hi]

theorem hidden_replaced {cs : List α} {segments : List (Segment α)} {i : ℕ} :
    Hidden (.replaced cs :: segments) i ↔
      i < cs.length ∨ cs.length ≤ i ∧ Hidden segments (i - cs.length) := by
  unfold Hidden
  rw [marked_cons]
  by_cases hi : i < cs.length
  · rw [List.getElem?_append_left (by simpa using hi)]
    simp [Segment.marked, hi]
  · rw [List.getElem?_append_right (by simpa using hi)]
    simp [hi, not_lt.mp hi]

namespace Finder

variable (f : Finder α)

/-- The search, with a bound on the number of its steps. -/
def scan : ℕ → List α → List (Segment α)
  | _, [] => []
  | 0, c :: text => [.copied (c :: text)]
  | n + 1, c :: text =>
      match f.find (c :: text) with
      | some m => .copied m.kept :: .replaced m.hidden :: scan n m.rest
      | none => .copied [c] :: scan n text

/-- Every step leaves a shorter text, so that the bound is never met. -/
def segments (text : List α) : List (Segment α) :=
  f.scan text.length text

/-- The searches of texts, step by step. -/
inductive Scanned : List α → List (Segment α) → Prop where
  | nil : Scanned [] []
  | skip {c : α} {text : List α} {segments : List (Segment α)}
      (hfind : f.find (c :: text) = none) (h : Scanned text segments) :
      Scanned (c :: text) (.copied [c] :: segments)
  | found {text : List α} {m : Match α} {segments : List (Segment α)}
      (hfind : f.find text = some m) (h : Scanned m.rest segments) :
      Scanned text (.copied m.kept :: .replaced m.hidden :: segments)

variable {f}

theorem length_rest_lt {text : List α} {m : Match α}
    (h : f.find text = some m) : m.rest.length < text.length := by
  have hkept : 0 < m.kept.length :=
    List.length_pos_iff.mpr (f.kept_ne_nil text m h)
  rw [f.split text m h]
  simp only [List.length_append]
  omega

theorem scanned_scan {n : ℕ} {text : List α} (h : text.length ≤ n) :
    f.Scanned text (f.scan n text) := by
  induction n generalizing text with
  | zero =>
      obtain rfl := List.length_eq_zero_iff.mp (Nat.le_zero.mp h)
      exact Scanned.nil
  | succ n ih =>
      cases text with
      | nil => exact Scanned.nil
      | cons c text =>
          unfold scan
          cases hfind : f.find (c :: text) with
          | none =>
              exact Scanned.skip hfind (ih (Nat.le_of_succ_le_succ h))
          | some m =>
              have hrest := length_rest_lt hfind
              exact Scanned.found hfind (ih (by omega))

theorem scanned_segments (text : List α) :
    f.Scanned text (f.segments text) :=
  scanned_scan le_rfl

/-- A match that the search takes: its front is put out and the part behind it
is not. -/
structure Taken (f : Finder α) (text : List α) (segments : List (Segment α))
    (start : ℕ) (m : Match α) : Prop where
  found : f.find (text.drop start) = some m
  shown : ∀ i, start ≤ i → i < start + m.kept.length → ¬Hidden segments i
  hidden : ∀ i, start + m.kept.length ≤ i →
    i < start + m.kept.length + m.hidden.length → Hidden segments i

theorem Taken.skip {c : α} {text : List α} {segments : List (Segment α)}
    {start : ℕ} {m : Match α} (h : f.Taken text segments start m) :
    f.Taken (c :: text) (.copied [c] :: segments) (start + 1) m where
  found := h.found
  shown := by
    intro i hle hlt hhidden
    obtain ⟨-, hi⟩ := hidden_copied.mp hhidden
    exact h.shown (i - 1) (by omega) (by omega) hi
  hidden := by
    intro i hle hlt
    have hi := h.hidden (i - 1) (by omega) (by omega)
    exact hidden_copied.mpr ⟨by simp; omega, hi⟩

theorem Taken.behind {text : List α} {m₀ : Match α}
    (hfind : f.find text = some m₀) {segments : List (Segment α)} {start : ℕ}
    {m : Match α} (h : f.Taken m₀.rest segments start m) :
    f.Taken text (.copied m₀.kept :: .replaced m₀.hidden :: segments)
      (m₀.kept.length + m₀.hidden.length + start) m where
  found := by
    rw [f.split text m₀ hfind, ← List.drop_drop, ← List.length_append,
      List.drop_left]
    exact h.found
  shown := by
    intro i hle hlt hhidden
    obtain ⟨hkept, hi⟩ := hidden_copied.mp hhidden
    rcases hidden_replaced.mp hi with hi | ⟨-, hi⟩
    · omega
    · exact h.shown _ (by omega) (by omega) hi
  hidden := by
    intro i hle hlt
    have hi := h.hidden (i - m₀.kept.length - m₀.hidden.length)
      (by omega) (by omega)
    have hreplaced := hidden_replaced.mpr (Or.inr ⟨by omega, hi⟩)
    exact hidden_copied.mpr ⟨by omega, hreplaced⟩

theorem taken_zero {text : List α} {m : Match α} (hfind : f.find text = some m)
    (segments : List (Segment α)) :
    f.Taken text (.copied m.kept :: .replaced m.hidden :: segments) 0 m where
  found := hfind
  shown := by
    intro i _ hlt hhidden
    obtain ⟨hkept, -⟩ := hidden_copied.mp hhidden
    omega
  hidden := by
    intro i hle hlt
    have hreplaced : Hidden (.replaced m.hidden :: segments)
        (i - m.kept.length) := hidden_replaced.mpr (Or.inl (by omega))
    exact hidden_copied.mpr ⟨by omega, hreplaced⟩

/-- What is hidden is hidden by a match that the search takes. -/
theorem exists_taken_of_hidden {text : List α} {segments : List (Segment α)}
    (h : f.Scanned text segments) {i : ℕ} (hi : Hidden segments i) :
    ∃ start m, f.Taken text segments start m ∧
      start + m.kept.length ≤ i ∧
      i < start + m.kept.length + m.hidden.length := by
  induction h generalizing i with
  | nil => exact absurd hi (not_hidden_nil i)
  | skip hfind _ ih =>
      obtain ⟨hle, hi⟩ := hidden_copied.mp hi
      obtain ⟨start, m, htaken, hstart, hend⟩ := ih hi
      rw [List.length_singleton] at hle hstart hend
      exact ⟨start + 1, m, htaken.skip, by omega, by omega⟩
  | @found text m segments hfind _ ih =>
      obtain ⟨hle, hi⟩ := hidden_copied.mp hi
      rcases hidden_replaced.mp hi with hlt | ⟨hle', hi⟩
      · exact ⟨0, m, taken_zero hfind segments, by omega, by omega⟩
      · obtain ⟨start, m', htaken, hstart, hend⟩ := ih hi
        exact ⟨m.kept.length + m.hidden.length + start, m',
          htaken.behind hfind, by omega, by omega⟩

/-- A match is taken unless a match that is taken begins before it and ends
behind its beginning. -/
theorem taken_or_inside {text : List α} {segments : List (Segment α)}
    (h : f.Scanned text segments) {p : ℕ} {m : Match α}
    (hm : f.find (text.drop p) = some m) :
    f.Taken text segments p m ∨
      ∃ start m', f.Taken text segments start m' ∧ start < p ∧
        p < start + m'.kept.length + m'.hidden.length := by
  induction h generalizing p with
  | nil =>
      rw [List.drop_nil] at hm
      have hlt := length_rest_lt hm
      exact absurd hlt (Nat.not_lt_zero _)
  | @skip c text segments hfind _ ih =>
      cases p with
      | zero => simp [hfind] at hm
      | succ p =>
          rcases ih hm with htaken | ⟨start, m', htaken, hstart, hend⟩
          · exact Or.inl htaken.skip
          · exact Or.inr ⟨start + 1, m', htaken.skip, by omega, by omega⟩
  | @found text m₀ segments hfind _ ih =>
      by_cases hzero : p = 0
      · subst hzero
        obtain rfl : m₀ = m := Option.some.inj (hfind.symm.trans hm)
        exact Or.inl (taken_zero hfind segments)
      by_cases hinside : p < m₀.kept.length + m₀.hidden.length
      · exact Or.inr ⟨0, m₀, taken_zero hfind segments, by omega, by omega⟩
      obtain ⟨q, rfl⟩ := Nat.exists_eq_add_of_le (not_lt.mp hinside)
      rw [f.split text m₀ hfind, ← List.drop_drop, ← List.length_append,
        List.drop_left] at hm
      rcases ih hm with htaken | ⟨start, m', htaken, hstart, hend⟩
      · exact Or.inl (htaken.behind hfind)
      · exact Or.inr ⟨_, m', htaken.behind hfind, by omega, by omega⟩

/-- A text without a match is put out as it is. -/
theorem render_of_not_found {text : List α} {segments : List (Segment α)}
    (h : f.Scanned text segments)
    (hnone : ∀ p, f.find (text.drop p) = none) (mark : List α) :
    render mark segments = text := by
  induction h with
  | nil => rfl
  | @skip c text segments hfind _ ih =>
      have hrest := ih fun p => hnone (p + 1)
      change c :: render mark segments = c :: text
      rw [hrest]
  | found hfind _ ih =>
      have hfind' := hnone 0
      rw [List.drop_zero, hfind] at hfind'
      exact absurd hfind' (Option.some_ne_none _)

/-! ## Searches for a pattern with a hidden part -/

/-- The first way of the front for which the part to hide has a way as well. -/
def findPattern (kept hidden : Pattern α) (text : List α) :
    Option (Match α) :=
  (kept.ways text).findSome? fun way =>
    (hidden.ways way.2).head?.map fun next => ⟨way.1, next.1, next.2⟩

theorem findPattern_eq_some {kept hidden : Pattern α} {text : List α}
    {m : Match α} (h : findPattern kept hidden text = some m) :
    ∃ behind, text = m.kept ++ behind ∧ kept.Accepts m.kept ∧
      (hidden.ways behind).head? = some (m.hidden, m.rest) := by
  obtain ⟨way, hway, hm⟩ := List.exists_of_findSome?_eq_some h
  obtain ⟨next, hnext, rfl⟩ := Option.map_eq_some_iff.mp hm
  obtain ⟨htext, haccepts⟩ := Pattern.mem_ways.mp hway
  exact ⟨way.2, htext, haccepts, hnext⟩

def ofPattern (kept hidden : Pattern α) (h : ¬kept.Accepts []) :
    Finder α where
  find := findPattern kept hidden
  split := by
    intro text m hm
    obtain ⟨behind, htext, -, hnext⟩ := findPattern_eq_some hm
    obtain ⟨hbehind, -⟩ := Pattern.mem_ways.mp (List.mem_of_head? hnext)
    rw [htext, hbehind, List.append_assoc]
  kept_ne_nil := by
    intro text m hm hnil
    obtain ⟨-, -, haccepts, -⟩ := findPattern_eq_some hm
    rw [hnil] at haccepts
    exact h haccepts

/-- A run with `p` is hidden from its beginning to its end. -/
theorem find_run {kept : Pattern α} {p : α → Bool} {h : ¬kept.Accepts []}
    {text : List α} {m : Match α}
    (hm : (ofPattern kept (.atLeastOne p) h).find text = some m) :
    text = m.kept ++ m.hidden ++ m.rest ∧ kept.Accepts m.kept ∧
      m.hidden ≠ [] ∧ (∀ c ∈ m.hidden, p c = true) ∧
      m.rest.head?.any p = false := by
  have hsplit := (ofPattern kept (.atLeastOne p) h).split text m hm
  obtain ⟨behind, -, haccepts, hnext⟩ := findPattern_eq_some hm
  cases behind with
  | nil => simp [Pattern.atLeastOne, Pattern.ways] at hnext
  | cons c behind =>
      rw [Pattern.head?_ways_atLeastOne] at hnext
      by_cases hc : p c
      · rw [if_pos hc, Option.some.injEq, Prod.mk.injEq] at hnext
        obtain ⟨hhidden, hrest⟩ := hnext
        refine ⟨hsplit, haccepts, ?_, ?_, ?_⟩
        · rw [← hhidden, List.takeWhile_cons_of_pos hc]
          exact List.cons_ne_nil _ _
        · intro d hd
          rw [← hhidden] at hd
          exact List.all_eq_true.mp List.all_takeWhile d hd
        · have hhead := List.head?_dropWhile_not p (c :: behind)
          rw [hrest] at hhead
          cases hd : m.rest.head? with
          | none => rfl
          | some d =>
              rw [hd] at hhead
              exact hhead
      · rw [if_neg hc] at hnext
        exact absurd hnext.symm (Option.some_ne_none _)

/-- A run is found behind the one front that it can follow. -/
theorem find_eq_some_of_run {kept : Pattern α} {p : α → Bool}
    {h : ¬kept.Accepts []} {front hidden rest : List α}
    (hfront : kept.Accepts front) (hne : hidden ≠ [])
    (hhidden : ∀ c ∈ hidden, p c = true) (hrest : rest.head?.any p = false)
    (honly : ∀ front' behind, front ++ hidden ++ rest = front' ++ behind →
      kept.Accepts front' → behind.head?.any p = true → front' = front) :
    (ofPattern kept (.atLeastOne p) h).find (front ++ hidden ++ rest) =
      some ⟨front, hidden, rest⟩ := by
  cases hidden with
  | nil => exact absurd rfl hne
  | cons c hidden =>
      have hway : (front, c :: hidden ++ rest) ∈
          kept.ways (front ++ c :: hidden ++ rest) :=
        Pattern.mem_ways.mpr ⟨List.append_assoc _ _ _, hfront⟩
      have hsome : ((ofPattern kept (.atLeastOne p) h).find
          (front ++ c :: hidden ++ rest)).isSome := by
        refine List.findSome?_isSome_iff.mpr ⟨_, hway, ?_⟩
        rw [List.cons_append, Pattern.head?_ways_atLeastOne,
          if_pos (hhidden c List.mem_cons_self)]
        rfl
      obtain ⟨m, hm⟩ := Option.isSome_iff_exists.mp hsome
      obtain ⟨htext, haccepts, hmne, hmhidden, hmrest⟩ := find_run hm
      have hfirst : (m.hidden ++ m.rest).head?.any p = true := by
        obtain ⟨d, ds, hd⟩ := List.exists_cons_of_ne_nil hmne
        rw [hd]
        exact hmhidden d (hd ▸ List.mem_cons_self)
      rw [List.append_assoc m.kept] at htext
      have hkept := honly m.kept _ htext haccepts hfirst
      rw [hkept, List.append_assoc] at htext
      obtain ⟨hrun, hbehind⟩ := run_unique (List.append_cancel_left htext)
        hhidden hrest hmhidden hmrest
      rw [hm, hrun, hbehind, ← hkept]

end Finder

end Text
