import Mathlib.Data.List.Infix
import Mathlib.Tactic.Common

/-!
# Patterns that try their ways in order

A choice tries its first pattern before its second, and a repetition takes as
much as it can before it takes less.  The first way that lets the rest of the
pattern go on is the one taken.
-/

namespace Text

variable {α : Type}

/-- The longest run with `p` at the front of a text. -/
theorem run_unique {p : α → Bool} {run rest run' rest' : List α}
    (h : run ++ rest = run' ++ rest') (hrun : ∀ c ∈ run, p c = true)
    (hrest : rest.head?.any p = false) (hrun' : ∀ c ∈ run', p c = true)
    (hrest' : rest'.head?.any p = false) : run = run' ∧ rest = rest' := by
  induction run generalizing run' with
  | nil =>
      cases run' with
      | nil => exact ⟨rfl, h⟩
      | cons c run' =>
          rw [List.nil_append] at h
          rw [h] at hrest
          exact absurd (hrun' c List.mem_cons_self) (by simpa using hrest)
  | cons c run ih =>
      cases run' with
      | nil =>
          rw [List.nil_append] at h
          rw [← h] at hrest'
          exact absurd (hrun c List.mem_cons_self) (by simpa using hrest')
      | cons d run' =>
          obtain ⟨rfl, htail⟩ := List.cons.inj h
          obtain ⟨rfl, rfl⟩ := ih htail
            (fun x hx => hrun x (List.mem_cons_of_mem c hx))
            (fun x hx => hrun' x (List.mem_cons_of_mem c hx))
          exact ⟨rfl, rfl⟩

inductive Pattern (α : Type) where
  | empty
  | one (p : α → Bool)
  | many (p : α → Bool)
  | either (first second : Pattern α)
  | both (first second : Pattern α)

namespace Pattern

/-- The ways to take elements with `p`, the longest one first. -/
def greedy (p : α → Bool) : List α → List (List α × List α)
  | [] => [([], [])]
  | c :: text =>
      if p c then
        (greedy p text).map (fun way => (c :: way.1, way.2)) ++
          [([], c :: text)]
      else
        [([], c :: text)]

/-- What a pattern takes from the front of a text and what it leaves, in the
order in which the ways are tried. -/
def ways : Pattern α → List α → List (List α × List α)
  | empty, text => [([], text)]
  | one _, [] => []
  | one p, c :: text => if p c then [([c], text)] else []
  | many p, text => greedy p text
  | either first second, text => first.ways text ++ second.ways text
  | both first second, text =>
      (first.ways text).flatMap fun way =>
        (second.ways way.2).map fun next => (way.1 ++ next.1, next.2)

def atLeastOne (p : α → Bool) : Pattern α :=
  both (one p) (many p)

/-- The elements of `word`, told apart only as far as `fold` does. -/
def word [DecidableEq α] (fold : α → α) : List α → Pattern α
  | [] => empty
  | c :: cs => both (one fun d => fold d = c) (word fold cs)

/-- The texts that a pattern describes. -/
def Accepts : Pattern α → List α → Prop
  | empty, text => text = []
  | one p, text => ∃ c, text = [c] ∧ p c = true
  | many p, text => ∀ c ∈ text, p c = true
  | either first second, text => first.Accepts text ∨ second.Accepts text
  | both first second, text =>
      ∃ front back, text = front ++ back ∧
        first.Accepts front ∧ second.Accepts back

theorem mem_greedy {p : α → Bool} {text taken rest : List α} :
    (taken, rest) ∈ greedy p text ↔
      text = taken ++ rest ∧ ∀ c ∈ taken, p c = true := by
  induction text generalizing taken with
  | nil =>
      simp only [greedy, List.mem_singleton, Prod.mk.injEq]
      constructor
      · rintro ⟨rfl, rfl⟩
        exact ⟨rfl, by simp⟩
      · rintro ⟨h, -⟩
        exact List.append_eq_nil_iff.mp h.symm
  | cons c text ih =>
      unfold greedy
      cases taken with
      | nil =>
          have hlast : ([], rest) ∈ greedy p (c :: text) ↔ rest = c :: text := by
            by_cases hc : p c <;> simp [greedy, hc]
          unfold greedy at hlast
          rw [hlast]
          constructor
          · rintro rfl
            exact ⟨rfl, by simp⟩
          · rintro ⟨htext, -⟩
            exact htext.symm
      | cons d taken =>
          by_cases hc : p c
          · rw [if_pos hc]
            constructor
            · intro h
              obtain ⟨way, hway, heq⟩ : ∃ way ∈ greedy p text,
                  (c :: way.1, way.2) = (d :: taken, rest) := by
                simpa using h
              obtain ⟨hhead, rfl⟩ := Prod.mk.inj heq
              obtain ⟨rfl, rfl⟩ := List.cons.inj hhead
              obtain ⟨rfl, hall⟩ := ih.mp hway
              exact ⟨rfl, by simpa using ⟨hc, hall⟩⟩
            · rintro ⟨htext, hall⟩
              obtain ⟨rfl, rfl⟩ := List.cons.inj htext
              have htail : (taken, rest) ∈ greedy p (taken ++ rest) :=
                ih.mpr ⟨rfl, fun x hx => hall x (List.mem_cons_of_mem c hx)⟩
              exact List.mem_append_left _
                (List.mem_map.mpr ⟨(taken, rest), htail, rfl⟩)
          · rw [if_neg hc]
            constructor
            · intro h
              simp at h
            · rintro ⟨htext, hall⟩
              obtain ⟨rfl, -⟩ := List.cons.inj htext
              exact absurd (hall c List.mem_cons_self) hc

/-- The ways of a pattern are the texts it describes at the front. -/
theorem mem_ways {a : Pattern α} {text taken rest : List α} :
    (taken, rest) ∈ a.ways text ↔ text = taken ++ rest ∧ a.Accepts taken := by
  induction a generalizing text taken rest with
  | empty =>
      simp only [ways, Accepts, List.mem_singleton, Prod.mk.injEq]
      constructor
      · rintro ⟨rfl, rfl⟩
        exact ⟨rfl, rfl⟩
      · rintro ⟨rfl, rfl⟩
        exact ⟨rfl, rfl⟩
  | one p =>
      cases text with
      | nil =>
          simp only [ways, Accepts, List.not_mem_nil, false_iff]
          rintro ⟨htext, d, rfl, -⟩
          exact List.cons_ne_nil _ _ htext.symm
      | cons c text =>
          by_cases hc : p c
          · simp only [ways, Accepts, if_pos hc, List.mem_singleton,
              Prod.mk.injEq]
            constructor
            · rintro ⟨rfl, rfl⟩
              exact ⟨rfl, c, rfl, hc⟩
            · rintro ⟨htext, d, rfl, -⟩
              obtain ⟨rfl, rfl⟩ := List.cons.inj htext
              exact ⟨rfl, rfl⟩
          · simp only [ways, Accepts, if_neg hc, List.not_mem_nil,
              false_iff]
            rintro ⟨htext, d, rfl, hd⟩
            obtain ⟨rfl, -⟩ := List.cons.inj htext
            exact hc hd
  | many p => exact mem_greedy
  | either first second ihfirst ihsecond =>
      simp only [ways, Accepts, List.mem_append, ihfirst, ihsecond, and_or_left]
  | both first second ihfirst ihsecond =>
      simp only [ways, Accepts, List.mem_flatMap, List.mem_map]
      constructor
      · rintro ⟨way, hway, next, hnext, heq⟩
        obtain ⟨rfl, rfl⟩ := Prod.mk.inj heq
        obtain ⟨rfl, hfirst⟩ := ihfirst.mp hway
        obtain ⟨hrest, hsecond⟩ := ihsecond.mp hnext
        refine ⟨?_, way.1, next.1, rfl, hfirst, hsecond⟩
        rw [hrest, List.append_assoc]
      · rintro ⟨rfl, front, back, rfl, hfirst, hsecond⟩
        refine ⟨(front, back ++ rest), ?_, (back, rest), ?_, rfl⟩
        · exact ihfirst.mpr ⟨List.append_assoc _ _ _, hfirst⟩
        · exact ihsecond.mpr ⟨rfl, hsecond⟩

theorem accepts_word [DecidableEq α] {fold : α → α} {cs text : List α} :
    (word fold cs).Accepts text ↔ text.map fold = cs := by
  induction cs generalizing text with
  | nil => simp [word, Accepts]
  | cons c cs ih =>
      simp only [word, Accepts, decide_eq_true_eq]
      constructor
      · rintro ⟨front, back, rfl, ⟨d, rfl, rfl⟩, hback⟩
        rw [List.map_append, ih.mp hback]
        rfl
      · intro h
        cases text with
        | nil => simp at h
        | cons d text =>
            obtain ⟨hhead, htail⟩ := List.cons.inj h
            exact ⟨[d], text, rfl, ⟨d, rfl, hhead⟩, ih.mpr htail⟩

theorem head?_greedy (p : α → Bool) (text : List α) :
    (greedy p text).head? = some (text.takeWhile p, text.dropWhile p) := by
  induction text with
  | nil => rfl
  | cons c text ih =>
      unfold greedy
      by_cases hc : p c
      · simp [hc, ih]
      · simp [hc]

/-- A run of at least one element is taken to its end. -/
theorem head?_ways_atLeastOne (p : α → Bool) (c : α) (text : List α) :
    ((atLeastOne p).ways (c :: text)).head? =
      if p c then some ((c :: text).takeWhile p, (c :: text).dropWhile p)
      else none := by
  by_cases hc : p c
  · simp [atLeastOne, ways, hc, head?_greedy]
  · simp [atLeastOne, ways, hc]

end Pattern

end Text
