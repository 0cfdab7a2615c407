import Workstream.Text.Letters

/-!
# Lower case

`str.lower` and `str.strip`, on the characters of a text.  The lower case of a
sigma depends on the word around it, and only there does a letter depend on
others.  Blanks end words, so that it makes no difference whether a text is
stripped before it is lowered or after it.
-/

namespace Text

/-- The first character that is not ignored has a letter case. -/
def meetsLetter (cs : List Char) : Bool :=
  (cs.dropWhile (within caseIgnorable)).head?.any (within cased)

/-- The lower case of `c` after the characters `before`, last one first, and
before the characters `after`; a sigma at the end of a word is a final one. -/
def lowerAt (before : List Char) (c : Char) (after : List Char) : List Char :=
  if c = 'Σ' then
    [if meetsLetter before && !meetsLetter after then 'ς' else 'σ']
  else if c = 'İ' then ['i', Char.ofNat 775]
  else [lowerLetter c]

def lowerFrom (before : List Char) : List Char → List Char
  | [] => []
  | c :: cs => lowerAt before c cs ++ lowerFrom (c :: before) cs

def lower (cs : List Char) : List Char := lowerFrom [] cs

def strip (cs : List Char) : List Char :=
  (cs.dropWhile isBlank).rdropWhile isBlank

variable {before after cs : List Char} {c d : Char}

/-! ## Lowering twice -/

theorem lowerAt_of_settled (before after : List Char) (h : Settled c) :
    lowerAt before c after = [c] := by
  obtain ⟨hsigma, hdot, hfix⟩ := h
  rw [lowerAt, if_neg hsigma, if_neg hdot, hfix]

theorem settled_of_mem_lowerAt (h : d ∈ lowerAt before c after) :
    Settled d := by
  unfold lowerAt at h
  split at h
  · rw [List.mem_singleton] at h
    split at h
    · rw [h]
      decide +kernel
    · rw [h]
      decide +kernel
  · split at h
    · have hi : Settled 'i' := by decide +kernel
      have hdot : Settled (Char.ofNat 775) := by decide +kernel
      rcases List.mem_pair.mp h with rfl | rfl
      · exact hi
      · exact hdot
    · next hsigma hdot =>
        rw [List.mem_singleton.mp h]
        exact settled_lowerLetter hsigma hdot

theorem settled_of_mem_lowerFrom (h : d ∈ lowerFrom before cs) :
    Settled d := by
  induction cs generalizing before with
  | nil => cases h
  | cons c cs ih =>
      rcases List.mem_append.mp h with hd | hd
      · exact settled_of_mem_lowerAt hd
      · exact ih hd

theorem lowerFrom_of_settled (h : ∀ c ∈ cs, Settled c) :
    lowerFrom before cs = cs := by
  induction cs generalizing before with
  | nil => rfl
  | cons c cs ih =>
      rw [lowerFrom, lowerAt_of_settled before cs (h c List.mem_cons_self),
        ih fun d hd => h d (List.mem_cons_of_mem c hd)]
      rfl

theorem lower_lower (cs : List Char) : lower (lower cs) = lower cs :=
  lowerFrom_of_settled fun _ hd => settled_of_mem_lowerFrom hd

/-! ## Length -/

/-- The lower case of a character takes no more characters than the character
takes bytes. -/
theorem length_lowerAt_le : (lowerAt before c after).length ≤ c.utf8Size := by
  have hpos : 1 ≤ c.utf8Size := c.utf8Size_pos
  unfold lowerAt
  split
  · exact hpos
  · split
    · next hdot =>
        rw [hdot]
        decide
    · exact hpos

theorem length_lowerFrom_le (before cs : List Char) :
    (lowerFrom before cs).length ≤ (String.ofList cs).utf8ByteSize := by
  induction cs generalizing before with
  | nil => exact Nat.zero_le _
  | cons c cs ih =>
      rw [String.ofList_cons, String.utf8ByteSize_append,
        String.utf8ByteSize_singleton, lowerFrom, List.length_append]
      exact Nat.add_le_add length_lowerAt_le (ih (c :: before))

/-! ## Blanks -/

/-- A word ends at a blank. -/
theorem meetsLetter_append_blank (hc : isBlank c = true) :
    meetsLetter (before ++ c :: after) = meetsLetter before := by
  obtain ⟨hignored, hcased⟩ := class_of_isBlank hc
  induction before with
  | nil => simp [meetsLetter, hignored, hcased]
  | cons d before ih =>
      unfold meetsLetter at ih ⊢
      cases hd : within caseIgnorable d with
      | true =>
          rw [List.cons_append, List.dropWhile_cons_of_pos hd, ih,
            List.dropWhile_cons_of_pos hd]
      | false => simp [hd]

theorem lowerFrom_append_blank (before : List Char) (hc : isBlank c = true) :
    lowerFrom (before ++ c :: after) cs = lowerFrom before cs := by
  induction cs generalizing before with
  | nil => rfl
  | cons d cs ih =>
      have hrest := ih (d :: before)
      rw [List.cons_append] at hrest
      rw [lowerFrom, lowerFrom, hrest, lowerAt, meetsLetter_append_blank hc]
      rfl

theorem lowerFrom_concat_blank (hc : isBlank c = true) :
    lowerFrom before (cs ++ [c]) = lowerFrom before cs ++ [c] := by
  induction cs generalizing before with
  | nil =>
      have hat := lowerAt_of_settled before [] (settled_of_isBlank hc)
      simp only [List.nil_append, lowerFrom, hat, List.append_nil]
  | cons d cs ih =>
      rw [List.cons_append, lowerFrom, lowerFrom, ih, lowerAt,
        meetsLetter_append_blank hc, List.append_assoc]
      rfl

/-- A character that is no blank is lowered to such. -/
theorem not_isBlank_of_mem_lowerAt (hc : isBlank c = false)
    (h : d ∈ lowerAt before c after) : isBlank d = false := by
  unfold lowerAt at h
  split at h
  · rw [List.mem_singleton] at h
    split at h
    · rw [h]
      decide +kernel
    · rw [h]
      decide +kernel
  · split at h
    · have hi : isBlank 'i' = false := by decide +kernel
      have hdot : isBlank (Char.ofNat 775) = false := by decide +kernel
      rcases List.mem_pair.mp h with rfl | rfl
      · exact hi
      · exact hdot
    · rw [List.mem_singleton.mp h, isBlank_lowerLetter, hc]

theorem lowerAt_ne_nil (before : List Char) (c : Char) (after : List Char) :
    lowerAt before c after ≠ [] := by
  unfold lowerAt
  split
  · simp
  · split
    · simp
    · simp

theorem dropWhile_lower (cs : List Char) :
    (lower cs).dropWhile isBlank = lower (cs.dropWhile isBlank) := by
  induction cs with
  | nil => rfl
  | cons c cs ih =>
      cases hc : isBlank c with
      | true =>
          have hat := lowerAt_of_settled [] cs (settled_of_isBlank hc)
          have hrest : lowerFrom [c] cs = lower cs :=
            lowerFrom_append_blank [] hc
          rw [lower, lowerFrom, hat, List.singleton_append, hrest,
            List.dropWhile_cons_of_pos hc, ih, List.dropWhile_cons_of_pos hc]
      | false =>
          have hkeep : (c :: cs).dropWhile isBlank = c :: cs :=
            List.dropWhile_cons_of_neg (by simp [hc])
          rw [hkeep]
          obtain ⟨d, ds, hds⟩ :=
            List.exists_cons_of_ne_nil (lowerAt_ne_nil [] c cs)
          have hd : isBlank d = false :=
            not_isBlank_of_mem_lowerAt hc (hds ▸ List.mem_cons_self)
          rw [lower, lowerFrom, hds, List.cons_append]
          exact List.dropWhile_cons_of_neg (by simp [hd])

/-- The last character is lowered last. -/
theorem exists_lowerFrom_concat (before cs : List Char) (c : Char) : ∃ ds,
    lowerFrom before (cs ++ [c]) =
      ds ++ lowerAt (cs.reverse ++ before) c [] := by
  induction cs generalizing before with
  | nil => exact ⟨[], by simp [lowerFrom]⟩
  | cons d cs ih =>
      obtain ⟨ds, hds⟩ := ih (d :: before)
      refine ⟨lowerAt before d (cs ++ [c]) ++ ds, ?_⟩
      rw [List.cons_append, lowerFrom, hds, List.reverse_cons,
        List.append_assoc, List.append_assoc]
      rfl

theorem rdropWhile_lowerFrom (cs : List Char) :
    (lowerFrom before cs).rdropWhile isBlank =
      lowerFrom before (cs.rdropWhile isBlank) := by
  induction cs using List.reverseRecOn with
  | nil => rfl
  | append_singleton cs c ih =>
      cases hc : isBlank c with
      | true =>
          rw [lowerFrom_concat_blank hc, List.rdropWhile_concat_pos _ _ _ hc,
            List.rdropWhile_concat_pos _ _ _ hc, ih]
      | false =>
          rw [List.rdropWhile_concat_neg _ _ _ (by simp [hc])]
          obtain ⟨ds, hds⟩ := exists_lowerFrom_concat before cs c
          obtain ⟨es, d, hes⟩ := (List.eq_nil_or_concat _).resolve_left
            (lowerAt_ne_nil (cs.reverse ++ before) c [])
          rw [List.concat_eq_append] at hes
          have hmem : d ∈ lowerAt (cs.reverse ++ before) c [] := by simp [hes]
          have hd : isBlank d = false := not_isBlank_of_mem_lowerAt hc hmem
          rw [hds, hes, ← List.append_assoc]
          exact List.rdropWhile_concat_neg _ _ _ (by simp [hd])

/-- Stripping comes to the same before and after lowering. -/
theorem strip_lower (cs : List Char) : strip (lower cs) = lower (strip cs) := by
  unfold strip
  rw [dropWhile_lower]
  exact rdropWhile_lowerFrom _

end Text
