import Workstream.Observability.Occurrences
import Mathlib.Data.List.Forall2

/-!
# Secrets that stay in the log

The substitution hides a secret unless the scheme stands before it, or its word
stands in another secret with blanks behind it: a run ends at the first blank,
and the search does not come back to the word.
-/

namespace Workstream.Observability

open Text

namespace Occurrence

variable {text : List Char}

/-- None of the characters of the credential is put out. -/
def Gone (o : Occurrence text) : Prop :=
  ∀ i, o.first ≤ i → i < o.stop → Hidden (secretPattern.segments text) i

/-- All the characters of the credential are put out. -/
def Shown (o : Occurrence text) : Prop :=
  ∀ i, o.first ≤ i → i < o.stop → ¬Hidden (secretPattern.segments text) i

/-- An occurrence that the search takes. -/
structure Taken (o : Occurrence text) : Prop where
  scheme_eq : o.scheme = []
  shown : ∀ i, o.start ≤ i → i < o.first →
    ¬Hidden (secretPattern.segments text) i
  gone : o.Gone

theorem exists_taken_of_match {start : ℕ} {m : Match Char}
    (h : secretPattern.Taken text (secretPattern.segments text) start m) :
    ∃ o : Occurrence text, o.Taken ∧ o.start = start ∧
      o.first = start + m.kept.length ∧
      o.stop = start + m.kept.length + m.hidden.length := by
  obtain ⟨o, hscheme, hstart, hfirst, hstop⟩ :=
    exists_occurrence_of_find h.found
  refine ⟨o, ⟨hscheme, ?_, ?_⟩, hstart, hfirst, hstop⟩
  · intro i hle hlt
    exact h.shown i (by omega) (by omega)
  · intro i hle hlt
    exact h.hidden i (by omega) (by omega)

/-- What is hidden is the credential of an occurrence that is taken. -/
theorem exists_taken_of_hidden {i : ℕ}
    (hi : Hidden (secretPattern.segments text) i) :
    ∃ o : Occurrence text, o.Taken ∧ o.first ≤ i ∧ i < o.stop := by
  obtain ⟨start, m, hm, hle, hlt⟩ :=
    Finder.exists_taken_of_hidden (Finder.scanned_segments text) hi
  obtain ⟨o, htaken, -, hfirst, hstop⟩ := exists_taken_of_match hm
  exact ⟨o, htaken, by omega, by omega⟩

variable (o : Occurrence text)

/-- An occurrence without a scheme is taken unless it begins in the secret of
another one. -/
theorem taken_or_inside (hscheme : o.scheme = []) :
    o.Taken ∨ ∃ o' : Occurrence text, o'.Taken ∧ o'.first ≤ o.start ∧
      o.start < o'.stop := by
  obtain ⟨m₀, hfind, hfirst₀, hstop₀⟩ := o.exists_find_start hscheme
  rcases Finder.taken_or_inside (Finder.scanned_segments text) hfind with
    hm | ⟨start, m, hm, hlt, hin⟩
  · left
    refine ⟨hscheme, ?_, ?_⟩
    · intro i hle hlt
      exact hm.shown i hle (by omega)
    · intro i hle hlt
      exact hm.hidden i (by omega) (by omega)
  · right
    obtain ⟨o', htaken, hstart, hfirst, hstop⟩ := exists_taken_of_match hm
    refine ⟨o', htaken, ?_, by omega⟩
    exact o'.first_le_of_inside htaken.scheme_eq (by omega)

/-- The scheme stands before the credential, or the word stands in another
secret and something in front of the credential is blank. -/
def Exposed : Prop :=
  o.scheme ≠ [] ∨ (o.gap ≠ [] ∨ o.blanks ≠ []) ∧
    ∃ o' : Occurrence text, o'.first ≤ o.start ∧ o.start < o'.stop

/-- Nothing but the mark stands between the word and the credential. -/
structure Tight : Prop where
  scheme_eq : o.scheme = []
  gap_eq : o.gap = []
  blanks_eq : o.blanks = []

theorem gone_of_not_exposed (h : ¬o.Exposed) : o.Gone := by
  have hscheme : o.scheme = [] := by
    by_contra hne
    exact h (Or.inl hne)
  rcases o.taken_or_inside hscheme with htaken | ⟨o', htaken, hfirst, hin⟩
  · exact htaken.gone
  · have hgap : o.gap = [] := by
      by_contra hne
      exact h (Or.inr ⟨Or.inl hne, o', hfirst, hin⟩)
    have hblanks : o.blanks = [] := by
      by_contra hne
      exact h (Or.inr ⟨Or.inr hne, o', hfirst, hin⟩)
    have hstop : o.stop ≤ o'.stop :=
      o'.le_stop (o.plain_on hscheme hgap hblanks) hin.le
    intro i hle hlt
    have hstart : o.start ≤ o.first := by
      simp only [first, schemeStart, markAt, gapStart]
      omega
    exact htaken.gone i (by omega) (by omega)

theorem gone_of_tight (h : o.Tight) : o.Gone := by
  apply o.gone_of_not_exposed
  rintro (hscheme | ⟨hgap | hblanks, -⟩)
  · exact hscheme h.scheme_eq
  · exact hgap h.gap_eq
  · exact hblanks h.blanks_eq

/-! ## To the left of a credential -/

theorem start_le_first : o.start ≤ o.first := by
  simp only [first, schemeStart, markAt, gapStart]
  omega

theorem markAt_lt_schemeStart : o.markAt < o.schemeStart := by
  simp only [schemeStart]
  omega

theorem gapStart_le_markAt : o.gapStart ≤ o.markAt :=
  Nat.le_add_right _ _

theorem first_eq (hscheme : o.scheme = []) : o.first = o.schemeStart := by
  simp [first, hscheme]

/-- The scheme ends with a letter and blanks. -/
theorem exists_scheme_edge (hscheme : o.scheme ≠ []) :
    ∃ s, s + 1 < o.first ∧ On isSpace text (s + 1) o.first ∧
      On (· == 'r') text s (s + 1) := by
  obtain hnil | ⟨-, more, hmore, hspace⟩ := o.scheme_eq
  · exact absurd hnil hscheme
  · have hdrop : text.drop o.schemeStart = ['B', 'e', 'a', 'r', 'e'] ++
        (['r'] ++ ((' ' :: more) ++ (o.credential ++ o.after))) := by
      rw [o.drop_schemeStart, hmore]
      rfl
    have hletter := drop_of_drop hdrop
    have hblanks := drop_of_drop hletter
    have hfirst : o.first = o.schemeStart + 5 + 1 + (' ' :: more).length := by
      simp only [first, hmore, List.length_append, List.length_cons]
      change o.schemeStart + (7 + more.length) = _
      omega
    refine ⟨o.schemeStart + 5, ?_, ?_, ?_⟩
    · rw [hfirst]
      simp
    · rw [hfirst]
      apply on_of_drop hblanks
      intro c hc
      rcases List.mem_cons.mp hc with rfl | hc
      · decide
      · exact hspace c hc
    · apply on_of_drop hletter
      simp

/-- Blanks stand before a credential, behind a mark or behind the scheme. -/
theorem exists_edge :
    ∃ s, s < o.first ∧ On isSpace text (s + 1) o.first ∧
      (On isMark text s (s + 1) ∨
        s + 1 < o.first ∧ On (· == 'r') text s (s + 1)) := by
  by_cases hscheme : o.scheme = []
  · have hmark := o.markAt_lt_schemeStart
    rw [← o.first_eq hscheme] at hmark
    refine ⟨o.markAt, hmark, ?_, Or.inl o.mark_on⟩
    rw [o.first_eq hscheme]
    exact o.blanks_on
  · obtain ⟨s, hlt, hblanks, hletter⟩ := o.exists_scheme_edge hscheme
    exact ⟨s, by omega, hblanks, Or.inr ⟨hlt, hletter⟩⟩

/-- No word ends as the scheme does. -/
theorem last_on : On (· != 'r') text (o.gapStart - 1) o.gapStart := by
  have hlast : ∀ w ∈ keywords, w.getLast? ≠ some 'r' := by decide
  have hne : o.keyword ≠ [] := by
    have hlt := o.start_lt_gapStart
    unfold gapStart at hlt
    exact List.length_pos_iff.mp (by omega)
  obtain ⟨word, c, hkeyword⟩ := (List.eq_nil_or_concat o.keyword).resolve_left hne
  rw [List.concat_eq_append] at hkeyword
  have hdrop := o.drop_start
  rw [hkeyword, List.append_assoc] at hdrop
  have hgap : o.gapStart = o.start + word.length + 1 := by
    simp only [gapStart, hkeyword, List.length_append, List.length_singleton]
    omega
  rw [hgap, Nat.add_sub_cancel]
  apply on_of_drop (drop_of_drop hdrop)
  intro d hd
  obtain rfl := List.mem_singleton.mp hd
  rw [bne_iff_ne]
  rintro rfl
  apply hlast _ o.keyword_mem
  rw [hkeyword, List.map_append]
  simp
  decide

variable {o} {o' : Occurrence text}

theorem gapStart_le (h : o.markAt = o'.markAt) : o.gapStart ≤ o'.gapStart := by
  by_contra hlt
  have hletter := o.start_lt_gapStart
  have hgap := o.gapStart_le_markAt
  have hclash := o.keyword_on.clash o'.gap_on (fun _ => isSpace_of_isLetter)
    (i := o.gapStart - 1) (by omega) (by omega) (by omega)
  omega

theorem start_le (hscheme : o'.scheme = []) (h : o.markAt = o'.markAt) :
    o.start ≤ o'.start := by
  by_contra hlt
  have hfirst := o'.first_le_of_inside hscheme (not_le.mp hlt)
  have hgap := gapStart_le h
  have hletter := o.start_lt_gapStart
  have hmark := o'.gapStart_le_markAt
  have hstart := o'.markAt_lt_schemeStart
  rw [o'.first_eq hscheme] at hfirst
  omega

/-- A word whose secret covers the beginning of a credential with blanks before
it is the word of that credential. -/
theorem markAt_eq (hscheme' : o'.scheme = [])
    (hblank : o.scheme ≠ [] ∨ o.gap ≠ [] ∨ o.blanks ≠ [])
    (hle : o'.first ≤ o.first) (hplain : On isPlain text o'.first o.first) :
    o.scheme = [] ∧ o.markAt = o'.markAt := by
  have hmark' := o'.markAt_lt_schemeStart
  have hblanks' := o'.blanks_on
  rw [← o'.first_eq hscheme'] at hmark' hblanks'
  by_cases hscheme : o.scheme = []
  · refine ⟨hscheme, ?_⟩
    have hfirst := o.first_eq hscheme
    have hblanks := o.blanks_on
    rw [← hfirst] at hblanks
    by_cases hnil : o.blanks = []
    · have hgap : o.gap ≠ [] := by
        rcases hblank with h | h | h
        · exact absurd hscheme h
        · exact h
        · exact absurd hnil h
      have hgaplt : o.gapStart < o.markAt :=
        Nat.lt_add_of_pos_right (List.length_pos_iff.mpr hgap)
      have hmark : o.first = o.markAt + 1 := by
        simp [first, schemeStart, hscheme, hnil]
      have hletter := o.start_lt_gapStart
      have hbehind : o.markAt ≤ o'.first := by
        by_contra hlt
        have hclash := hplain.clash o.gap_on (fun _ => isSpace_of_isPlain)
          (i := o.markAt - 1) (by omega) (by omega) (by omega)
        omega
      have hge : o.markAt ≤ o'.markAt := by
        by_contra hlt
        rcases lt_trichotomy (o'.markAt + 1) o.gapStart with h | h | h
        · have hclash := o.keyword_on.clash hblanks'
            (fun _ => isSpace_of_isLetter) (i := o.gapStart - 1) (by omega)
            (by omega) (by omega)
          omega
        · have hclash := o.keyword_on.clash o'.mark_on
            (fun _ => isMark_of_isLetter) (i := o.gapStart - 1) (by omega)
            (by omega) (by omega)
          omega
        · have hclash := o'.mark_on.clash o.gap_on
            (fun _ => isSpace_of_isMark) le_rfl (Nat.lt_succ_self _) (by omega)
          omega
      omega
    · have hpos := List.length_pos_iff.mpr hnil
      have hmark : o.first = o.markAt + 1 + o.blanks.length := hfirst
      have hfirst' : o.first ≤ o'.first := by
        by_contra hlt
        have hclash := hplain.clash hblanks (fun _ => isSpace_of_isPlain)
          (i := o.first - 1) (by omega) (by omega) (by omega)
        omega
      have hle' : o'.markAt ≤ o.markAt := by
        by_contra hlt
        have hclash := o'.mark_on.clash hblanks (fun _ => isSpace_of_isMark)
          le_rfl (Nat.lt_succ_self _) (by omega)
        omega
      have hge' : o.markAt ≤ o'.markAt := by
        by_contra hlt
        have hclash := o.mark_on.clash hblanks' (fun _ => isSpace_of_isMark)
          le_rfl (Nat.lt_succ_self _) (by omega)
        omega
      exact le_antisymm hge' hle'
  · exfalso
    obtain ⟨s, hs, hspace, hletter⟩ := o.exists_scheme_edge hscheme
    have hfirst : o.first ≤ o'.first := by
      by_contra hlt
      have hclash := hplain.clash hspace (fun _ => isSpace_of_isPlain)
        (i := o.first - 1) (by omega) (by omega) (by omega)
      omega
    have hle' : o'.markAt ≤ s := by
      by_contra hlt
      have hclash := o'.mark_on.clash hspace (fun _ => isSpace_of_isMark)
        le_rfl (Nat.lt_succ_self _) (by omega)
      omega
    have hge' : s ≤ o'.markAt := by
      by_contra hlt
      have hclash := hletter.clash hblanks' isSpace_of_eq_r le_rfl
        (Nat.lt_succ_self _) (by omega)
      omega
    have hclash := o'.mark_on.clash hletter
      (by intro x hx; rcases eq_of_isMark hx with rfl | rfl <;> decide)
      le_rfl (Nat.lt_succ_self _) hge'
    omega

/-- A blank stands between the word and the credential. -/
theorem exists_blank (hblank : o.gap ≠ [] ∨ o.blanks ≠ []) :
    ∃ b, o.start < b ∧ b < o.first ∧ On isSpace text b (b + 1) := by
  have hletter := o.start_lt_gapStart
  have hgap := o.gapStart_le_markAt
  have hmark := o.markAt_lt_schemeStart
  have hfirst : o.schemeStart ≤ o.first := Nat.le_add_right _ _
  rcases hblank with h | h
  · have hlt : o.gapStart < o.markAt :=
      Nat.lt_add_of_pos_right (List.length_pos_iff.mpr h)
    refine ⟨o.gapStart, hletter, by omega, ?_⟩
    intro i hle hlt'
    exact o.gap_on i hle (by omega)
  · have hlt : o.markAt + 1 < o.schemeStart :=
      Nat.lt_add_of_pos_right (List.length_pos_iff.mpr h)
    refine ⟨o.markAt + 1, by omega, by omega, ?_⟩
    intro i hle hlt'
    exact o.blanks_on i hle (by omega)

theorem exists_hidden (h : ¬o.Shown) :
    ∃ i, o.first ≤ i ∧ i < o.stop ∧ Hidden (secretPattern.segments text) i := by
  by_contra hnone
  apply h
  intro i hle hlt hhidden
  exact hnone ⟨i, hle, hlt, hhidden⟩

/-- A credential that is hidden somewhere is hidden from there to its end. -/
theorem hidden_to_stop {i j : ℕ} (hi : Hidden (secretPattern.segments text) i)
    (hle : o.first ≤ i) (hij : i ≤ j) (hj : j < o.stop) :
    Hidden (secretPattern.segments text) j := by
  obtain ⟨o', htaken, hfirst, hlt⟩ := exists_taken_of_hidden hi
  have hplain : On isPlain text i o.stop := by
    intro k hk hkstop
    exact o.credential_on k (by omega) hkstop
  have hstop := o'.le_stop hplain hlt.le
  exact htaken.gone j (by omega) (by omega)

/-- The secret around an exposed word is lost with the secret of the word: both
are hidden only if the word is put out and hidden. -/
theorem not_hidden_first (hexposed : o.Exposed)
    (hall : ∀ o' : Occurrence text, ¬o'.Shown) :
    ¬Hidden (secretPattern.segments text) o.first := by
  intro hhidden
  obtain ⟨o₁, htaken, hle, hlt⟩ := exists_taken_of_hidden hhidden
  have hplain : On isPlain text o₁.first o.first := by
    intro i hi hifirst
    exact o₁.credential_on i hi (by omega)
  have hblank : o.scheme ≠ [] ∨ o.gap ≠ [] ∨ o.blanks ≠ [] :=
    hexposed.imp_right And.left
  obtain ⟨hscheme, hmark⟩ := markAt_eq htaken.scheme_eq hblank hle hplain
  have hstart := le_antisymm (start_le htaken.scheme_eq hmark)
    (start_le hscheme hmark.symm)
  obtain ⟨hbetween, o₂, hfirst₂, hin₂⟩ := hexposed.resolve_left (absurd hscheme)
  obtain ⟨b, hstartb, hbfirst, hspace⟩ := exists_blank hbetween
  have hbkept : b < o₁.first := by
    by_contra hb
    have hclash := hplain.clash hspace (fun _ => isSpace_of_isPlain) (i := b)
      (not_lt.mp hb) hbfirst le_rfl
    omega
  have hshown : ∀ i, o.start ≤ i → i < b →
      ¬Hidden (secretPattern.segments text) i := by
    intro i hi hib
    exact htaken.shown i (by omega) (by omega)
  have hstop₂ : o₂.stop ≤ b := by
    by_contra hb
    have hclash := o₂.credential_on.clash hspace (fun _ => isSpace_of_isPlain)
      (i := b) (by omega) (by omega) le_rfl
    omega
  obtain ⟨i, hi₂, histop, hhidden₂⟩ := exists_hidden (hall o₂)
  rcases le_total i o.start with hi | hi
  · exact hshown o.start le_rfl hstartb
      (hidden_to_stop hhidden₂ hi₂ hi hin₂)
  · exact hshown i hi (by omega) hhidden₂

/-- A word whose secret begins within a credential stands in it and is
directly followed by its mark and secret. -/
theorem tight_of_inside (hscheme' : o'.scheme = []) (hlt : o.first < o'.first)
    (hin : o'.first < o.stop) : o'.Tight ∧ o.first ≤ o'.start := by
  obtain ⟨s, hs, hspace, hedge⟩ := o.exists_edge
  have hplain := o.credential_on
  have hfirst' := o'.first_eq hscheme'
  have hletter' := o'.start_lt_gapStart
  have hgap' := o'.gapStart_le_markAt
  have hblanks : o'.blanks = [] := by
    by_contra hne
    have hpos := List.length_pos_iff.mpr hne
    have hmark : o'.schemeStart = o'.markAt + 1 + o'.blanks.length := rfl
    have hclash := hplain.clash o'.blanks_on (fun _ => isSpace_of_isPlain)
      (i := o'.first - 1) (by omega) (by omega) (by omega)
    omega
  have hmark : o'.first = o'.markAt + 1 := by
    rw [hfirst', schemeStart, hblanks]
    rfl
  have hgap : o'.gap = [] := by
    by_contra hne
    have hpos := List.length_pos_iff.mpr hne
    have hgapStart : o'.markAt = o'.gapStart + o'.gap.length := rfl
    have hfirst : o'.markAt = o.first := by
      by_contra hmarkAt
      have hclash := hplain.clash o'.gap_on (fun _ => isSpace_of_isPlain)
        (i := o'.markAt - 1) (by omega) (by omega) (by omega)
      omega
    rcases lt_trichotomy (s + 1) o'.gapStart with h | h | h
    · have hclash := o'.keyword_on.clash hspace (fun _ => isSpace_of_isLetter)
        (i := o'.gapStart - 1) (by omega) (by omega) (by omega)
      omega
    · rcases hedge with hedge | ⟨-, hedge⟩
      · have hclash := o'.keyword_on.clash hedge (fun _ => isMark_of_isLetter)
          (i := s) (by omega) (by omega) le_rfl
        omega
      · have hclash := hedge.clash o'.last_on (by simp) le_rfl
          (Nat.lt_succ_self _) (by omega)
        omega
    · rcases hedge with hedge | ⟨-, hedge⟩
      · have hclash := hedge.clash o'.gap_on (fun _ => isSpace_of_isMark)
          le_rfl (Nat.lt_succ_self _) (by omega)
        omega
      · have hclash := hedge.clash o'.gap_on isSpace_of_eq_r le_rfl
          (Nat.lt_succ_self _) (by omega)
        omega
  have hgapStart : o'.markAt = o'.gapStart := by simp [markAt, hgap]
  refine ⟨⟨hscheme', hgap, hblanks⟩, ?_⟩
  by_contra hstart
  rcases hedge with hedge | ⟨hs', -⟩
  · by_cases hs' : s + 1 < o.first
    · have hclash := o'.keyword_on.clash hspace (fun _ => isSpace_of_isLetter)
        (i := o.first - 1) (by omega) (by omega) (by omega)
      omega
    · have hclash := o'.keyword_on.clash hedge (fun _ => isMark_of_isLetter)
        (i := s) (by omega) (by omega) le_rfl
      omega
  · have hclash := o'.keyword_on.clash hspace (fun _ => isSpace_of_isLetter)
      (i := o.first - 1) (by omega) (by omega) (by omega)
    omega

end Occurrence

namespace Occurrence

variable {text : List Char}

/-- Another word stands in the credential, directly followed by its mark and
secret. -/
def Cut (o : Occurrence text) : Prop :=
  ∃ o' : Occurrence text, o'.Tight ∧ o.first ≤ o'.start ∧ o'.start < o.stop

theorem not_shown_of_gone {o : Occurrence text} (h : o.Gone) : ¬o.Shown :=
  fun hshown => hshown o.first le_rfl o.first_lt_stop
    (h o.first le_rfl o.first_lt_stop)

theorem not_shown_of_cut {o : Occurrence text} (h : o.Cut) : ¬o.Shown := by
  obtain ⟨o', htight, hle, hlt⟩ := h
  have hplain := o'.plain_on htight.scheme_eq htight.gap_eq htight.blanks_eq
  have hstop := o.le_stop hplain hlt.le
  have hstart := o'.start_le_first
  have hfirst := o'.first_lt_stop
  intro hshown
  exact hshown o'.first (by omega) (by omega)
    (o'.gone_of_tight htight o'.first le_rfl hfirst)

theorem cut_of_exposed {o : Occurrence text} (hexposed : o.Exposed)
    (hall : ∀ o' : Occurrence text, ¬o'.Shown) : o.Cut := by
  obtain ⟨i, hle, hlt, hhidden⟩ := exists_hidden (hall o)
  obtain ⟨o', htaken, hfirst, hstop⟩ := exists_taken_of_hidden hhidden
  have hafter : o.first < o'.first := by
    by_contra hbefore
    exact not_hidden_first hexposed hall
      (htaken.gone o.first (not_lt.mp hbefore) (by omega))
  obtain ⟨htight, hstart⟩ :=
    tight_of_inside htaken.scheme_eq hafter (by omega)
  have hstart' := o'.start_le_first
  exact ⟨o', htight, hstart, by omega⟩

theorem all_gone_iff :
    (∀ o : Occurrence text, o.Gone) ↔ ∀ o : Occurrence text, ¬o.Exposed := by
  constructor
  · intro h o hexposed
    have hall : ∀ o' : Occurrence text, ¬o'.Shown :=
      fun o' => not_shown_of_gone (h o')
    exact not_hidden_first hexposed hall (h o o.first le_rfl o.first_lt_stop)
  · intro h o
    exact o.gone_of_not_exposed (h o)

theorem none_shown_iff :
    (∀ o : Occurrence text, ¬o.Shown) ↔
      ∀ o : Occurrence text, o.Exposed → o.Cut := by
  constructor
  · intro h o hexposed
    exact cut_of_exposed hexposed h
  · intro h o
    by_cases hexposed : o.Exposed
    · exact not_shown_of_cut (h o hexposed)
    · exact not_shown_of_gone (o.gone_of_not_exposed hexposed)

end Occurrence

/-! ## Events -/

variable {κ ν : Type}

/-- What is put out for a text from which the secrets are removed, in the sense
of `P`. -/
structure Cleared (P : ∀ {text : List Char}, Occurrence text → Prop)
    (text out : String) : Prop where
  rendered : out.toList =
    render redacted (secretPattern.segments text.toList)
  removed : ∀ o : Occurrence text.toList, P o
  unchanged : IsEmpty (Occurrence text.toList) → out = text

/-- An event is put out without its secrets, and otherwise as it is. -/
structure Redacted (P : ∀ {text : List Char}, Occurrence text → Prop)
    (event : List (κ × Value κ ν)) : Prop where
  outline_eq : outline (redactSecrets event) = outline event
  cleared : List.Forall₂ (Cleared P) (textsOfEntries event)
    (textsOfEntries (redactSecrets event))

theorem sub_of_isEmpty {text : String} (h : IsEmpty (Occurrence text.toList)) :
    sub text = text := by
  have hnone : ∀ p, secretPattern.find (text.toList.drop p) = none := by
    intro p
    by_contra hsome
    obtain ⟨m, hm⟩ := Option.ne_none_iff_exists'.mp hsome
    obtain ⟨o, -⟩ := exists_occurrence_of_find hm
    exact h.false o
  unfold sub parts
  rw [Finder.render_of_not_found (Finder.scanned_segments _) hnone,
    String.ofList_toList]

theorem redacted_iff {P : ∀ {text : List Char}, Occurrence text → Prop}
    (event : List (κ × Value κ ν)) :
    Redacted P event ↔
      ∀ text ∈ textsOfEntries event, ∀ o : Occurrence text.toList, P o := by
  have hcleared : List.Forall₂ (Cleared P) (textsOfEntries event)
      (textsOfEntries (redactSecrets event)) ↔
        ∀ text ∈ textsOfEntries event, Cleared P text (sub text) := by
    rw [texts_redactSecrets, List.forall₂_map_right_iff, List.forall₂_same]
  constructor
  · intro h text htext
    exact (hcleared.mp h.cleared text htext).removed
  · intro h
    refine ⟨outline_redactSecrets event, hcleared.mpr ?_⟩
    intro text htext
    exact ⟨String.toList_ofList, h text htext, sub_of_isEmpty⟩

/-- Every character of every secret is removed just from the events in which no
secret is exposed, and something of every secret just from those in which each
exposed secret is cut by another one. -/
theorem redactSecrets_removes_iff (event : List (κ × Value κ ν)) :
    (Redacted (fun o => o.Gone) event ↔
      ∀ text ∈ textsOfEntries event, ∀ o : Occurrence text.toList,
        ¬o.Exposed) ∧
    (Redacted (fun o => ¬o.Shown) event ↔
      ∀ text ∈ textsOfEntries event, ∀ o : Occurrence text.toList,
        o.Exposed → o.Cut) := by
  rw [redacted_iff, redacted_iff]
  constructor
  · constructor
    · intro h text htext
      exact Occurrence.all_gone_iff.mp (h text htext)
    · intro h text htext
      exact Occurrence.all_gone_iff.mpr (h text htext)
  · constructor
    · intro h text htext
      exact Occurrence.none_shown_iff.mp (h text htext)
    · intro h text htext
      exact Occurrence.none_shown_iff.mpr (h text htext)

example : sub "password=SuperSecret token=SecretToken" =
    "password=[REDACTED] token=[REDACTED]" := by
  decide +kernel

/-- The header of a request, where the scheme stands before the token. -/
def bearerHeader : String := "Authorization: Bearer abc"

def bearerToken : Occurrence bearerHeader.toList where
  before := []
  keyword := "Authorization".toList
  gap := []
  mark := ':'
  blanks := [' ']
  scheme := bearer
  credential := "abc".toList
  after := []
  text_eq := by decide
  keyword_mem := by decide
  gap_blank := List.forall_mem_nil _
  isMark_mark := by decide
  blanks_blank := List.forall_mem_singleton.mpr (by decide)
  scheme_eq := Or.inr ⟨by decide, [], by decide, List.forall_mem_nil _⟩
  credential_ne_nil := by decide
  credential_plain := by
    have hplain : "abc".toList.all isPlain = true := by decide
    exact List.all_eq_true.mp hplain
  maximal := by decide

theorem not_redacted_bearerHeader :
    ¬Redacted (fun o => ¬o.Shown)
      [("event", (Value.str bearerHeader : Value String Unit))] := by
  rw [redacted_iff]
  intro h
  apply h bearerHeader List.mem_cons_self bearerToken
  have hshown : ∀ i < 25, 22 ≤ i →
      ¬Hidden (secretPattern.segments bearerHeader.toList) i := by
    decide +kernel
  intro i hle hlt
  exact hshown i hlt hle

end Workstream.Observability
