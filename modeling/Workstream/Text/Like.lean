import Mathlib.Data.List.Infix

/-!
# Patterns of `LIKE`

A percent sign stands for any text, an underscore for any character, and a
backslash takes the next character as it is.
-/

namespace Text

def like : List Char → List Char → Bool
  | [], text => text.isEmpty
  | '%' :: pattern, text => text.tails.any fun rest => like pattern rest
  | '\\' :: c :: pattern, text =>
      match text with
      | [] => false
      | d :: rest => c = d && like pattern rest
  | c :: pattern, text =>
      match text with
      | [] => false
      | d :: rest => (c = '_' || c = d) && like pattern rest

attribute [local simp] like

/-- The characters that do not stand for themselves. -/
def isMeta (c : Char) : Bool :=
  c = '%' ∨ c = '_' ∨ c = '\\'

theorem like_percent {pattern text : List Char} :
    like ('%' :: pattern) text = true ↔
      ∃ rest, rest <:+ text ∧ like pattern rest = true := by
  simp

theorem like_cons {c : Char} (hc : isMeta c = false) {pattern text : List Char} :
    like (c :: pattern) text = true ↔
      ∃ rest, text = c :: rest ∧ like pattern rest = true := by
  simp only [isMeta, decide_eq_false_iff_not, not_or] at hc
  obtain ⟨hpercent, hunderscore, hbackslash⟩ := hc
  cases text with
  | nil => simp [hbackslash]
  | cons d rest =>
      have hlike : like (c :: pattern) (d :: rest) =
          (c = d && like pattern rest) := by
        simp [hunderscore, hbackslash]
      rw [hlike]
      constructor
      · intro h
        obtain ⟨hcd, hrest⟩ := Bool.and_eq_true_iff.mp h
        obtain rfl := of_decide_eq_true hcd
        exact ⟨rest, rfl, hrest⟩
      · rintro ⟨rest', heq, hrest⟩
        obtain ⟨rfl, rfl⟩ := List.cons.inj heq
        simp [hrest]

theorem like_underscore {pattern text : List Char} :
    like ('_' :: pattern) text = true ↔
      ∃ d rest, text = d :: rest ∧ like pattern rest = true := by
  cases text <;> simp

theorem like_escape {c : Char} {pattern text : List Char} :
    like ('\\' :: c :: pattern) text = true ↔
      ∃ rest, text = c :: rest ∧ like pattern rest = true := by
  cases text with
  | nil => simp
  | cons d rest =>
      simp only [like, Bool.and_eq_true, decide_eq_true_eq, List.cons.injEq]
      constructor
      · rintro ⟨rfl, hrest⟩
        exact ⟨rest, ⟨rfl, rfl⟩, hrest⟩
      · rintro ⟨rest', ⟨rfl, rfl⟩, hrest⟩
        exact ⟨rfl, hrest⟩

/-- A pattern of a text without wildcards in front. -/
theorem like_append {front : List Char} (h : ∀ c ∈ front, isMeta c = false)
    {pattern text : List Char} :
    like (front ++ pattern) text = true ↔
      ∃ rest, text = front ++ rest ∧ like pattern rest = true := by
  induction front generalizing text with
  | nil => simp
  | cons c front ih =>
      rw [List.cons_append, like_cons (h c List.mem_cons_self)]
      constructor
      · rintro ⟨rest, rfl, hrest⟩
        obtain ⟨rest, rfl, hlike⟩ :=
          (ih fun x hx => h x (List.mem_cons_of_mem c hx)).mp hrest
        exact ⟨rest, rfl, hlike⟩
      · rintro ⟨rest, rfl, hlike⟩
        refine ⟨front ++ rest, rfl, ?_⟩
        exact (ih fun x hx => h x (List.mem_cons_of_mem c hx)).mpr
          ⟨rest, rfl, hlike⟩

theorem like_all (text : List Char) : like ['%'] text = true :=
  like_percent.mpr ⟨[], List.nil_suffix, rfl⟩

/-- Between two percent signs a text without wildcards is looked for. -/
theorem like_infix_iff {word text : List Char}
    (h : ∀ c ∈ word, isMeta c = false) :
    like ('%' :: (word ++ ['%'])) text = true ↔ word <:+: text := by
  rw [like_percent]
  constructor
  · rintro ⟨suffix, ⟨front, rfl⟩, hlike⟩
    obtain ⟨rest, rfl, _⟩ := (like_append h).mp hlike
    exact ⟨front, rest, List.append_assoc _ _ _⟩
  · rintro ⟨front, rest, rfl⟩
    refine ⟨word ++ rest, ⟨front, (List.append_assoc _ _ _).symm⟩, ?_⟩
    exact (like_append h).mpr ⟨rest, rfl, like_all rest⟩

/-! ## A text that the pattern finds -/

/-- A text with fewer wildcards that the pattern of a text finds. -/
def sample (a : Char) : List Char → List Char
  | [] => []
  | '%' :: pattern => sample a pattern
  | '_' :: pattern => a :: sample a pattern
  | ['\\'] => ['%']
  | '\\' :: c :: pattern => c :: sample a pattern
  | c :: pattern => c :: sample a pattern

attribute [local simp] sample

/-- Backslashes count twice. -/
def weight (c : Char) : ℕ :=
  if c = '\\' then 2 else if c = '%' ∨ c = '_' then 1 else 0

theorem sample_cons {a c : Char} (hc : isMeta c = false)
    (pattern : List Char) : sample a (c :: pattern) = c :: sample a pattern := by
  simp only [isMeta, decide_eq_false_iff_not, not_or] at hc
  cases pattern <;> simp [hc]

theorem isMeta_false {c : Char} {pattern : List Char} (hpercent : c ≠ '%')
    (hunderscore : c ≠ '_') (hlast : c = '\\' → pattern ≠ [])
    (hescape : ∀ d rest, c = '\\' → pattern ≠ d :: rest) :
    isMeta c = false := by
  have hbackslash : c ≠ '\\' := by
    intro hc
    cases pattern with
    | nil => exact hlast hc rfl
    | cons d rest => exact hescape d rest hc rfl
  simp [isMeta, hpercent, hunderscore, hbackslash]

theorem like_sample (a : Char) (pattern : List Char) :
    like (pattern ++ ['%']) (sample a pattern) = true := by
  induction pattern using sample.induct with
  | case1 => exact like_all []
  | case2 pattern ih =>
      rw [List.cons_append, sample]
      exact like_percent.mpr ⟨_, List.suffix_rfl, ih⟩
  | case3 pattern ih =>
      rw [List.cons_append, sample]
      exact like_underscore.mpr ⟨_, _, rfl, ih⟩
  | case4 => exact like_escape.mpr ⟨[], rfl, rfl⟩
  | case5 c pattern ih =>
      rw [List.cons_append, List.cons_append, sample]
      exact like_escape.mpr ⟨_, rfl, ih⟩
  | case6 c pattern hpercent hunderscore hlast hescape ih =>
      have hc : isMeta c = false :=
        isMeta_false hpercent hunderscore hlast hescape
      rw [sample_cons hc]
      exact (like_cons hc).mpr ⟨_, rfl, ih⟩

/-- What a text weighs. -/
def totalWeight : List Char → ℕ
  | [] => 0
  | c :: cs => weight c + totalWeight cs

theorem totalWeight_append (cs ds : List Char) :
    totalWeight (cs ++ ds) = totalWeight cs + totalWeight ds := by
  induction cs with
  | nil => simp [totalWeight]
  | cons c cs ih =>
      rw [List.cons_append, totalWeight, totalWeight, ih]
      omega

theorem totalWeight_le {cs ds : List Char} (h : cs <:+: ds) :
    totalWeight cs ≤ totalWeight ds := by
  obtain ⟨front, back, rfl⟩ := h
  rw [totalWeight_append, totalWeight_append]
  omega

theorem weight_sample {a : Char} (ha : weight a = 0) (pattern : List Char) :
    totalWeight (sample a pattern) ≤ totalWeight pattern ∧
      ((∃ c ∈ pattern, isMeta c = true) →
        totalWeight (sample a pattern) < totalWeight pattern) := by
  induction pattern using sample.induct with
  | case1 => simp
  | case2 pattern ih =>
      have hpercent : weight '%' = 1 := rfl
      rw [sample, totalWeight, hpercent]
      omega
  | case3 pattern ih =>
      have hunderscore : weight '_' = 1 := rfl
      rw [sample, totalWeight, totalWeight, hunderscore, ha]
      omega
  | case4 =>
      have hpercent : totalWeight ['%'] = 1 := rfl
      have hbackslash : totalWeight ['\\'] = 2 := rfl
      rw [sample, hpercent, hbackslash]
      omega
  | case5 c pattern ih =>
      have hbackslash : weight '\\' = 2 := rfl
      rw [sample, totalWeight, totalWeight, totalWeight,
        hbackslash]
      omega
  | case6 c pattern hpercent hunderscore hlast hescape ih =>
      have hc : isMeta c = false :=
        isMeta_false hpercent hunderscore hlast hescape
      rw [sample_cons hc, totalWeight, totalWeight]
      refine ⟨by omega, ?_⟩
      rintro ⟨x, hx, hmeta⟩
      rcases List.mem_cons.mp hx with rfl | hx
      · rw [hc] at hmeta
        cases hmeta
      · have hlt := ih.2 ⟨x, hx, hmeta⟩
        omega

/-! ## Letter case -/

section Fold

variable {fold : Char → Char}
  (hfold : ∀ c, ∀ m ∈ ['%', '_', '\\'], fold c = m ↔ c = m)

include hfold

theorem isMeta_fold (c : Char) : isMeta (fold c) = isMeta c := by
  have hpercent := hfold c '%' (by simp)
  have hunderscore := hfold c '_' (by simp)
  have hbackslash := hfold c '\\' (by simp)
  simp only [isMeta, hpercent, hunderscore, hbackslash]

theorem weight_fold (c : Char) : weight (fold c) = weight c := by
  have hpercent := hfold c '%' (by simp)
  have hunderscore := hfold c '_' (by simp)
  have hbackslash := hfold c '\\' (by simp)
  simp only [weight, hpercent, hunderscore, hbackslash]

theorem totalWeight_map (cs : List Char) :
    totalWeight (cs.map fold) = totalWeight cs := by
  induction cs with
  | nil => rfl
  | cons c cs ih =>
      rw [List.map_cons, totalWeight, totalWeight, weight_fold hfold, ih]

theorem map_sample (a : Char) (pattern : List Char) :
    (sample a pattern).map fold = sample (fold a) (pattern.map fold) := by
  have hpercent : fold '%' = '%' := (hfold '%' '%' (by simp)).mpr rfl
  have hunderscore : fold '_' = '_' := (hfold '_' '_' (by simp)).mpr rfl
  have hbackslash : fold '\\' = '\\' := (hfold '\\' '\\' (by simp)).mpr rfl
  induction pattern using sample.induct with
  | case1 => rfl
  | case2 pattern ih => rw [sample, List.map_cons, hpercent, sample, ih]
  | case3 pattern ih =>
      rw [sample, List.map_cons, List.map_cons, hunderscore, sample, ih]
  | case4 => simp [hpercent, hbackslash]
  | case5 c pattern ih =>
      rw [sample, List.map_cons, List.map_cons, List.map_cons, hbackslash,
        sample, ih]
  | case6 c pattern hpercent hunderscore hlast hescape ih =>
      have hc : isMeta c = false :=
        isMeta_false hpercent hunderscore hlast hescape
      have hfoldc : isMeta (fold c) = false := (isMeta_fold hfold c).trans hc
      rw [sample_cons hc, List.map_cons, List.map_cons, sample_cons hfoldc, ih]

end Fold

end Text
