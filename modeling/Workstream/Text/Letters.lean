import Mathlib.Data.List.DropRight
import Mathlib.Tactic.Common
import Workstream.Text.Unicode

/-!
# Letter case and blanks

Texts in lower case, and texts without the blanks around them.  Letters stay
letters and blanks stay blanks, so that a text can be stripped before it is
lowered or after it.
-/

namespace Text

/-! ## Characters -/

/-- The character is in one of the runs. -/
def within (runs : List (ℕ × ℕ)) (c : Char) : Bool :=
  runs.any fun r => r.1.ble c.toNat && c.toNat.ble r.2

def isBlank (c : Char) : Bool := within blanks c

/-- The code point of the lower case of `n`. -/
def CaseRun.image (r : CaseRun) (n : ℕ) : ℕ := r.lower + (n - r.first)

def CaseRun.covers (r : CaseRun) (n : ℕ) : Bool :=
  r.first.ble n && n.ble r.last && Nat.beq ((n - r.first) % r.step) 0

/-- The lower case of a character, as far as it is one character and does not
depend on the others. -/
def lowerLetter (c : Char) : Char :=
  if c.toNat < 128 then c.toLower
  else
    match caseRuns.find? fun r => r.covers c.toNat with
    | some r => Char.ofNat (r.image c.toNat)
    | none => c

/-- The character is its own lower case, everywhere. -/
def Settled (c : Char) : Prop := c ≠ 'Σ' ∧ c ≠ 'İ' ∧ lowerLetter c = c

instance (c : Char) : Decidable (Settled c) :=
  inferInstanceAs (Decidable (_ ∧ _))

/-- A property of a character and its lower case holds if it does for the
ASCII characters and where the letter case makes no difference. -/
theorem toLower_cases {P : Char → Char → Prop}
    (hascii : ∀ n < 128, P (Char.ofNat n) (Char.ofNat n).toLower)
    (hsame : ∀ c, 128 ≤ c.toNat → P c c) (c : Char) : P c c.toLower := by
  by_cases hc : c.toNat < 128
  · have hchar := hascii c.toNat hc
    rwa [Char.ofNat_toNat] at hchar
  · have hsmall : c.toLower = c := by
      unfold Char.toLower
      rw [dif_neg]
      rintro ⟨_, hle⟩
      have hle' : c.toNat ≤ 90 := UInt32.le_iff_toNat_le.mp hle
      omega
    rw [hsmall]
    exact hsame c (not_lt.mp hc)

/-! ### The table -/

/-- The lower case of `r` has none of the letters of `r'`: the runs are apart,
or every other letter is a small one. -/
def CaseRun.apart (r r' : CaseRun) : Bool :=
  (r.image r.last).blt r'.first || r'.last.blt r.lower ||
    ((Nat.beq r.step 2 || Nat.beq r.first r.last) && Nat.beq r'.step 2 &&
      Nat.beq ((r.lower + r'.first) % 2) 1)

/-- Neither the run nor its lower case meets the code points from `lo` to
`hi`. -/
def CaseRun.off (r : CaseRun) (lo hi : ℕ) : Bool :=
  (r.last.blt lo || hi.blt r.first) &&
    ((r.image r.last).blt lo || hi.blt r.lower)

theorem caseRuns_apart :
    (caseRuns.all fun r => caseRuns.all fun r' => r.apart r') = true := by
  decide +kernel

theorem caseRuns_off : (caseRuns.all fun r =>
    (blanks ++ [(931, 931), (304, 304), (55296, 57343)]).all
      fun b => r.off b.1 b.2) = true := by
  decide +kernel

/-- Of the small letters that a run leads to, one is an ASCII letter. -/
theorem caseRuns_bounds : ∀ r ∈ caseRuns, r.image r.last < 1114112 ∧
    (128 ≤ r.lower ∨ r.first = r.last ∧ r.lower = 107) := by
  decide +kernel

section CaseRun

variable {r r' : CaseRun} {n lo hi : ℕ}

theorem CaseRun.covers_iff : r.covers n = true ↔
    r.first ≤ n ∧ n ≤ r.last ∧ (n - r.first) % r.step = 0 := by
  simp [CaseRun.covers, and_assoc]

theorem CaseRun.not_covers_image (h : r.apart r' = true)
    (hn : r.covers n = true) : r'.covers (r.image n) = false := by
  rw [Bool.eq_false_iff]
  intro hcovers
  rw [covers_iff] at hn hcovers
  obtain ⟨hfirst, hlast, hstep⟩ := hn
  obtain ⟨hfirst', hlast', hstep'⟩ := hcovers
  unfold image at hfirst' hlast' hstep'
  simp only [apart, image, Bool.or_eq_true, Bool.and_eq_true, Nat.blt_eq,
    Nat.beq_eq] at h
  rcases h with (hbelow | habove) | ⟨⟨hstep₂ | hone, hstep₂'⟩, hparity⟩
  · omega
  · omega
  · rw [hstep₂] at hstep
    rw [hstep₂'] at hstep'
    omega
  · rw [hstep₂'] at hstep'
    omega

theorem CaseRun.off_image (h : r.off lo hi = true) (hn : r.covers n = true) :
    (n < lo ∨ hi < n) ∧ (r.image n < lo ∨ hi < r.image n) := by
  rw [covers_iff] at hn
  simp only [off, image, Bool.or_eq_true, Bool.and_eq_true, Nat.blt_eq] at h ⊢
  omega

end CaseRun

/-- A character that is not an ASCII one is its own lower case, or in a run. -/
theorem lowerLetter_cases {c : Char} (hc : ¬ c.toNat < 128) :
    lowerLetter c = c ∨ ∃ r ∈ caseRuns, r.covers c.toNat = true ∧
      lowerLetter c = Char.ofNat (r.image c.toNat) := by
  rw [lowerLetter, if_neg hc]
  cases hfind : caseRuns.find? fun r => r.covers c.toNat with
  | none => exact Or.inl rfl
  | some r =>
      exact Or.inr ⟨r, List.mem_of_find?_eq_some hfind,
        List.find?_some (p := fun r : CaseRun => r.covers c.toNat) hfind,
        rfl⟩

theorem lowerLetter_eq_self {c : Char} (hc : ¬ c.toNat < 128)
    (h : ∀ r ∈ caseRuns, r.covers c.toNat = false) : lowerLetter c = c := by
  rcases lowerLetter_cases hc with hfix | ⟨r, hr, hcovers, -⟩
  · exact hfix
  · rw [h r hr] at hcovers
    cases hcovers

theorem off_of_mem {r : CaseRun} (hr : r ∈ caseRuns) {b : ℕ × ℕ}
    (hb : b ∈ blanks ++ [(931, 931), (304, 304), (55296, 57343)]) :
    r.off b.1 b.2 = true :=
  List.all_eq_true.mp (List.all_eq_true.mp caseRuns_off r hr) b hb

/-- The lower case of a letter in a run is a character. -/
theorem toNat_image {r : CaseRun} (hr : r ∈ caseRuns) {n : ℕ}
    (hn : r.covers n = true) : (Char.ofNat (r.image n)).toNat = r.image n := by
  have hvalid : (r.image n).isValidChar := by
    obtain ⟨-, hsurrogate⟩ :=
      CaseRun.off_image (off_of_mem hr (b := (55296, 57343)) (by simp)) hn
    have hlarge := (caseRuns_bounds r hr).1
    obtain ⟨-, hlast, -⟩ := CaseRun.covers_iff.mp hn
    have hle : r.image n ≤ r.image r.last :=
      Nat.add_le_add_left (Nat.sub_le_sub_right hlast r.first) r.lower
    rcases hsurrogate with hbelow | habove
    · exact Or.inl hbelow
    · exact Or.inr ⟨habove, hle.trans_lt hlarge⟩
  rw [Char.ofNat, dif_pos hvalid]
  rfl

theorem settled_image {r : CaseRun} (hr : r ∈ caseRuns) {n : ℕ}
    (hn : r.covers n = true) : Settled (Char.ofNat (r.image n)) := by
  have hnat := toNat_image hr hn
  have hne : ∀ m ∈ [931, 304], r.image n ≠ m := by
    intro m hm heq
    have hoff := off_of_mem hr (b := (m, m)) (by simp at hm ⊢; tauto)
    obtain ⟨-, hlt | hlt⟩ := CaseRun.off_image hoff hn
    · exact hlt.ne heq
    · exact hlt.ne' heq
  refine ⟨?_, ?_, ?_⟩
  · intro hsigma
    rw [hsigma] at hnat
    exact hne 931 (by simp) hnat.symm
  · intro hdot
    rw [hdot] at hnat
    exact hne 304 (by simp) hnat.symm
  · obtain ⟨hfirst, hlast, -⟩ := CaseRun.covers_iff.mp hn
    rcases (caseRuns_bounds r hr).2 with hlarge | ⟨hone, hlower⟩
    · have hascii : ¬ r.image n < 128 := by
        unfold CaseRun.image
        omega
      refine lowerLetter_eq_self (by rwa [hnat]) fun r' hr' => ?_
      rw [hnat]
      have hall := List.all_eq_true.mp caseRuns_apart r hr
      exact CaseRun.not_covers_image (List.all_eq_true.mp hall r' hr') hn
    · have hkelvin : r.image n = 107 := by
        unfold CaseRun.image
        omega
      rw [hkelvin]
      decide

theorem settled_lowerLetter {c : Char} (hsigma : c ≠ 'Σ') (hdot : c ≠ 'İ') :
    Settled (lowerLetter c) := by
  by_cases hc : c.toNat < 128
  · rw [lowerLetter, if_pos hc]
    have hascii : ∀ n < 128, Settled (Char.ofNat n).toLower := by decide
    have hchar := hascii c.toNat hc
    rwa [Char.ofNat_toNat] at hchar
  · rcases lowerLetter_cases hc with hfix | ⟨r, hr, hcovers, himage⟩
    · rw [hfix]
      exact ⟨hsigma, hdot, hfix⟩
    · rw [himage]
      exact settled_image hr hcovers

/-! ### Blanks -/

theorem isBlank_iff {c : Char} : isBlank c = true ↔
    ∃ b ∈ blanks, b.1 ≤ c.toNat ∧ c.toNat ≤ b.2 := by
  simp [isBlank, within]

/-- A letter stays a letter, and a blank stays a blank. -/
theorem isBlank_lowerLetter (c : Char) :
    isBlank (lowerLetter c) = isBlank c := by
  by_cases hc : c.toNat < 128
  · rw [lowerLetter, if_pos hc]
    have hascii : ∀ n < 128, isBlank (Char.ofNat n).toLower =
        isBlank (Char.ofNat n) := by
      decide
    have hchar := hascii c.toNat hc
    rwa [Char.ofNat_toNat] at hchar
  · rcases lowerLetter_cases hc with hfix | ⟨r, hr, hcovers, himage⟩
    · rw [hfix]
    · have hoff : ∀ b ∈ blanks, _ := fun b hb =>
        CaseRun.off_image (off_of_mem hr (List.mem_append_left _ hb)) hcovers
      have hletter : isBlank c = false := by
        rw [Bool.eq_false_iff, ne_eq, isBlank_iff]
        rintro ⟨b, hb, hbounds⟩
        obtain ⟨hn, -⟩ := hoff b hb
        omega
      have hsmall : isBlank (lowerLetter c) = false := by
        rw [Bool.eq_false_iff, ne_eq, isBlank_iff, himage,
          toNat_image hr hcovers]
        rintro ⟨b, hb, hbounds⟩
        obtain ⟨-, hn⟩ := hoff b hb
        omega
      rw [hletter, hsmall]

/-- What is to be checked for the blanks. -/
theorem isBlank_cases {P : Char → Prop}
    (h : ∀ b ∈ blanks, ∀ i < b.2 + 1 - b.1, P (Char.ofNat (b.1 + i)))
    {c : Char} (hc : isBlank c = true) : P c := by
  obtain ⟨b, hb, hfirst, hlast⟩ := isBlank_iff.mp hc
  have hchar := h b hb (c.toNat - b.1) (by omega)
  rwa [Nat.add_sub_cancel' hfirst, Char.ofNat_toNat] at hchar

theorem settled_of_isBlank {c : Char} (hc : isBlank c = true) : Settled c :=
  isBlank_cases (P := Settled) (by decide +kernel) hc

/-- A blank has no letter case, and is not ignored either. -/
theorem class_of_isBlank {c : Char} (hc : isBlank c = true) :
    within caseIgnorable c = false ∧ within cased c = false :=
  isBlank_cases (P := fun c => within caseIgnorable c = false ∧
    within cased c = false) (by decide +kernel) hc

end Text
