import Workstream.Observability.Redaction

/-!
# Occurrences of secrets

A secret stands behind a word, a separator and, in an `Authorization` header,
the scheme.  The matches of the pattern are the occurrences without a scheme.
-/

namespace Workstream.Observability

open Text

/-- The scheme that `current_principal` expects, with its blank. -/
def bearer : List Char := "Bearer ".toList

/-- A word, a separator, the scheme where there is one, and a credential to
its end. -/
structure Occurrence (text : List Char) where
  before : List Char
  keyword : List Char
  gap : List Char
  mark : Char
  blanks : List Char
  scheme : List Char
  credential : List Char
  after : List Char
  text_eq : text = before ++ (keyword ++ (gap ++ (mark :: (blanks ++
    (scheme ++ (credential ++ after))))))
  keyword_mem : keyword.map caseless ∈ keywords
  gap_blank : ∀ c ∈ gap, isSpace c = true
  isMark_mark : isMark mark = true
  blanks_blank : ∀ c ∈ blanks, isSpace c = true
  scheme_eq : scheme = [] ∨ keyword.map caseless = authorization ∧
    ∃ more, scheme = bearer ++ more ∧ ∀ c ∈ more, isSpace c = true
  credential_ne_nil : credential ≠ []
  credential_plain : ∀ c ∈ credential, isPlain c = true
  maximal : after.head?.any isPlain = false

/-! ## Characters -/

def isLetter (c : Char) : Bool :=
  keywords.flatten.contains (caseless c)

theorem eq_of_isMark {c : Char} (h : isMark c = true) : c = '=' ∨ c = ':' := by
  simpa [isMark] using h

theorem mem_of_not_isPlain {c : Char} (h : isPlain c = false) :
    c ∈ spaces ++ [',', ';', '&'] := by
  simp only [isPlain, Bool.not_eq_false', Bool.or_eq_true, isSpace,
    List.contains_iff_mem, decide_eq_true_eq, or_assoc] at h
  simpa using h

theorem isSpace_of_isPlain {c : Char} (h : isPlain c = true) :
    isSpace c = false := by
  by_contra hc
  simp [isPlain, hc] at h

theorem isSpace_of_eq_r (c : Char) (h : (c == 'r') = true) :
    isSpace c = false := by
  obtain rfl := beq_iff_eq.mp h
  decide

theorem isPlain_of_isMark {c : Char} (h : isMark c = true) :
    isPlain c = true := by
  rcases eq_of_isMark h with rfl | rfl <;> decide

theorem isPlain_of_isLetter {c : Char} (h : isLetter c = true) :
    isPlain c = true := by
  have hstops : (spaces ++ [',', ';', '&']).all fun d => !isLetter d := by
    decide
  by_contra hc
  have hmem := mem_of_not_isPlain (Bool.eq_false_iff.mpr hc)
  have hstop := List.all_eq_true.mp hstops c hmem
  rw [h] at hstop
  contradiction

theorem isMark_of_isLetter {c : Char} (h : isLetter c = true) :
    isMark c = false := by
  by_contra hc
  rcases eq_of_isMark (by simpa using hc) with rfl | rfl
  · exact absurd h (by decide)
  · exact absurd h (by decide)

theorem isSpace_of_isLetter {c : Char} (h : isLetter c = true) :
    isSpace c = false :=
  isSpace_of_isPlain (isPlain_of_isLetter h)

theorem isSpace_of_isMark {c : Char} (h : isMark c = true) :
    isSpace c = false :=
  isSpace_of_isPlain (isPlain_of_isMark h)

/-- No two words overlap, and none is the beginning of another. -/
theorem keywords_apart : ∀ w ∈ keywords, ∀ w' ∈ keywords, ∀ k < w.length,
    w.drop k <+: w' ∨ w' <+: w.drop k → k = 0 ∧ w = w' := by
  decide

theorem keyword_apart {keyword keyword' back back' : List Char} {k : ℕ}
    (h : keyword.map caseless ∈ keywords)
    (h' : keyword'.map caseless ∈ keywords) (hk : k < keyword.length)
    (heq : keyword.drop k ++ back = keyword' ++ back') :
    k = 0 ∧ keyword = keyword' := by
  have hcomparable : keyword.drop k <+: keyword' ∨
      keyword' <+: keyword.drop k := by
    have hprefix : keyword.drop k <+: keyword' ++ back' := by
      rw [← heq]
      exact List.prefix_append _ _
    exact List.prefix_or_prefix_of_prefix hprefix (List.prefix_append _ _)
  have hmapped : (keyword.map caseless).drop k <+: keyword'.map caseless ∨
      keyword'.map caseless <+: (keyword.map caseless).drop k := by
    rw [← List.map_drop]
    exact hcomparable.imp (fun hp => hp.map caseless) (fun hp => hp.map caseless)
  obtain ⟨rfl, hwords⟩ :=
    keywords_apart _ h _ h' k (by simpa using hk) hmapped
  have hlength := congrArg List.length hwords
  rw [List.length_map, List.length_map] at hlength
  rw [List.drop_zero] at heq
  exact ⟨rfl, (List.append_inj heq hlength).1⟩

/-! ## Positions -/

/-- The positions from `a` to `b` all have such a character. -/
def On (p : Char → Bool) (text : List Char) (a b : ℕ) : Prop :=
  ∀ i, a ≤ i → i < b → text[i]?.any p = true

theorem On.exists {p : Char → Bool} {text : List Char} {a b i : ℕ}
    (h : On p text a b) (ha : a ≤ i) (hb : i < b) :
    ∃ c, text[i]? = some c ∧ p c = true := by
  have hi := h i ha hb
  rwa [Option.any_eq_true] at hi

theorem On.mono {p q : Char → Bool} {text : List Char} {a b : ℕ}
    (h : On p text a b) (hpq : ∀ c, p c = true → q c = true) :
    On q text a b := by
  intro i ha hb
  obtain ⟨c, hc, hp⟩ := h.exists ha hb
  rw [hc]
  exact hpq c hp

/-- A position does not belong to parts with different characters. -/
theorem On.clash {p q : Char → Bool} {text : List Char} {a b c d i : ℕ}
    (hp : On p text a b) (hq : On q text c d)
    (hpq : ∀ x, p x = true → q x = false) (ha : a ≤ i) (hb : i < b)
    (hc : c ≤ i) : d ≤ i := by
  by_contra hd
  obtain ⟨x, hx, hpx⟩ := hp.exists ha hb
  obtain ⟨y, hy, hqy⟩ := hq.exists hc (not_le.mp hd)
  obtain rfl : x = y := Option.some.inj (hx.symm.trans hy)
  rw [hpq x hpx] at hqy
  contradiction

theorem on_of_drop {p : Char → Bool} {text part back : List Char} {a : ℕ}
    (h : text.drop a = part ++ back) (hpart : ∀ c ∈ part, p c = true) :
    On p text a (a + part.length) := by
  intro i hle hlt
  obtain ⟨k, rfl⟩ := Nat.exists_eq_add_of_le hle
  have hk : k < part.length := Nat.lt_of_add_lt_add_left hlt
  rw [← List.getElem?_drop, h, List.getElem?_append_left hk,
    List.getElem?_eq_getElem hk]
  exact hpart _ (List.getElem_mem hk)

theorem drop_of_drop {text part back : List Char} {a : ℕ}
    (h : text.drop a = part ++ back) : text.drop (a + part.length) = back := by
  rw [← List.drop_drop, h, List.drop_left]

namespace Occurrence

variable {text : List Char} (o : Occurrence text)

/-- Where the word begins, where the mark is, where the credential begins and
where it ends. -/
def start : ℕ :=
  o.before.length

def gapStart : ℕ :=
  o.start + o.keyword.length

def markAt : ℕ :=
  o.gapStart + o.gap.length

def schemeStart : ℕ :=
  o.markAt + 1 + o.blanks.length

def first : ℕ :=
  o.schemeStart + o.scheme.length

def stop : ℕ :=
  o.first + o.credential.length

theorem start_lt_gapStart : o.start < o.gapStart := by
  have hne : ∀ w ∈ keywords, 0 < w.length := by decide
  have hpos := hne _ o.keyword_mem
  rw [List.length_map] at hpos
  exact Nat.lt_add_of_pos_right hpos

theorem first_lt_stop : o.first < o.stop :=
  Nat.lt_add_of_pos_right (List.length_pos_iff.mpr o.credential_ne_nil)

theorem drop_start : text.drop o.start = o.keyword ++ (o.gap ++ (o.mark ::
    (o.blanks ++ (o.scheme ++ (o.credential ++ o.after))))) := by
  have h := congrArg (List.drop o.before.length) o.text_eq
  rwa [List.drop_left] at h

theorem drop_gapStart : text.drop o.gapStart = o.gap ++ (o.mark ::
    (o.blanks ++ (o.scheme ++ (o.credential ++ o.after)))) :=
  drop_of_drop o.drop_start

theorem drop_markAt : text.drop o.markAt = [o.mark] ++
    (o.blanks ++ (o.scheme ++ (o.credential ++ o.after))) :=
  drop_of_drop o.drop_gapStart

theorem drop_blanks : text.drop (o.markAt + 1) =
    o.blanks ++ (o.scheme ++ (o.credential ++ o.after)) :=
  drop_of_drop o.drop_markAt

theorem drop_schemeStart : text.drop o.schemeStart =
    o.scheme ++ (o.credential ++ o.after) :=
  drop_of_drop o.drop_blanks

theorem drop_first : text.drop o.first = o.credential ++ o.after :=
  drop_of_drop o.drop_schemeStart

theorem drop_stop : text.drop o.stop = o.after :=
  drop_of_drop o.drop_first

theorem keyword_on : On isLetter text o.start o.gapStart := by
  apply on_of_drop o.drop_start
  intro c hc
  have hletter := List.mem_flatten.mpr
    ⟨_, o.keyword_mem, List.mem_map_of_mem (f := caseless) hc⟩
  simpa [isLetter] using hletter

theorem gap_on : On isSpace text o.gapStart o.markAt :=
  on_of_drop o.drop_gapStart o.gap_blank

theorem mark_on : On isMark text o.markAt (o.markAt + 1) :=
  on_of_drop o.drop_markAt (by simpa using o.isMark_mark)

theorem blanks_on : On isSpace text (o.markAt + 1) o.schemeStart :=
  on_of_drop o.drop_blanks o.blanks_blank

theorem credential_on : On isPlain text o.first o.stop :=
  on_of_drop o.drop_first o.credential_plain

/-- A credential goes on as far as it can. -/
theorem le_stop {a b : ℕ} (h : On isPlain text a b) (ha : a ≤ o.stop) :
    b ≤ o.stop := by
  by_contra hb
  have hstop := h o.stop ha (not_le.mp hb)
  have hmax := o.maximal
  rw [← o.drop_stop, List.head?_drop, hstop] at hmax
  contradiction

/-- From the word of a secret to its end, if nothing in it is blank. -/
theorem plain_on (hscheme : o.scheme = []) (hgap : o.gap = [])
    (hblanks : o.blanks = []) : On isPlain text o.start o.stop := by
  intro i hle hlt
  have hmark : o.markAt = o.gapStart := by simp [markAt, hgap]
  have hfirst : o.first = o.markAt + 1 := by
    simp [first, schemeStart, hblanks, hscheme]
  by_cases hkeyword : i < o.gapStart
  · exact o.keyword_on.mono (fun _ => isPlain_of_isLetter) i hle hkeyword
  by_cases hmarkAt : i < o.markAt + 1
  · exact o.mark_on.mono (fun _ => isPlain_of_isMark) i (by omega) hmarkAt
  · exact o.credential_on i (by omega) hlt

/-- A word begins outside the other words and separators. -/
theorem first_le_of_inside {o' : Occurrence text} (hscheme : o.scheme = [])
    (hlt : o.start < o'.start) : o.first ≤ o'.start := by
  have hletter := o'.start_lt_gapStart
  have hgap : o.gapStart ≤ o'.start := by
    by_contra hkeyword
    obtain ⟨k, hk⟩ := Nat.exists_eq_add_of_le hlt.le
    have hklt : k < o.keyword.length := by
      unfold gapStart at hkeyword
      omega
    have heq := o'.drop_start
    rw [hk, ← List.drop_drop, o.drop_start,
      List.drop_append_of_le_length hklt.le] at heq
    obtain ⟨rfl, -⟩ := keyword_apart o.keyword_mem o'.keyword_mem hklt heq
    omega
  have hmark : o.markAt ≤ o'.start :=
    o'.keyword_on.clash o.gap_on (fun _ => isSpace_of_isLetter) le_rfl hletter
      hgap
  have hblanks : o.markAt + 1 ≤ o'.start :=
    o'.keyword_on.clash o.mark_on (fun _ => isMark_of_isLetter) le_rfl hletter
      hmark
  have hschemeStart : o.schemeStart ≤ o'.start :=
    o'.keyword_on.clash o.blanks_on (fun _ => isSpace_of_isLetter) le_rfl
      hletter hblanks
  simpa [first, hscheme] using hschemeStart

/-! ## The matches of the pattern -/

theorem accepts_front :
    secretFront.Accepts (o.keyword ++ (o.gap ++ o.mark :: o.blanks)) :=
  accepts_secretFront.mpr ⟨o.keyword, o.gap, o.mark, o.blanks, rfl,
    o.keyword_mem, o.gap_blank, o.isMark_mark, o.blanks_blank⟩

end Occurrence

/-- A word with its separator is told by the text behind it. -/
theorem front_unique {front front' back back' : List Char}
    (h : secretFront.Accepts front) (h' : secretFront.Accepts front')
    (hback : back.head?.any isPlain = true)
    (hback' : back'.head?.any isPlain = true)
    (heq : front ++ back = front' ++ back') : front' = front := by
  obtain ⟨keyword, gap, mark, blanks, rfl, hkeyword, hgap, hmark, hblanks⟩ :=
    accepts_secretFront.mp h
  obtain ⟨keyword', gap', mark', blanks', rfl, hkeyword', hgap', hmark',
    hblanks'⟩ := accepts_secretFront.mp h'
  simp only [List.append_assoc, List.cons_append] at heq
  have hpos : 0 < keyword.length := by
    have hne : ∀ w ∈ keywords, 0 < w.length := by decide
    simpa using hne _ hkeyword
  obtain ⟨-, rfl⟩ := keyword_apart (k := 0) hkeyword hkeyword' hpos heq
  have hspace : ∀ {c : Char} {cs : List Char}, isMark c = true →
      (c :: cs).head?.any isSpace = false := fun hc => isSpace_of_isMark hc
  have hplain : ∀ {cs : List Char}, cs.head?.any isPlain = true →
      cs.head?.any isSpace = false := by
    intro cs hcs
    cases cs with
    | nil => rfl
    | cons c cs => exact isSpace_of_isPlain hcs
  obtain ⟨rfl, hrest⟩ := run_unique (List.append_cancel_left heq) hgap
    (hspace hmark) hgap' (hspace hmark')
  obtain ⟨rfl, htail⟩ := List.cons.inj hrest
  obtain ⟨rfl, -⟩ := run_unique htail hblanks (hplain hback) hblanks'
    (hplain hback')
  rfl

namespace Occurrence

variable {text : List Char} (o : Occurrence text)

theorem exists_find_start (hscheme : o.scheme = []) :
    ∃ m, secretPattern.find (text.drop o.start) = some m ∧
      o.first = o.start + m.kept.length ∧
      o.stop = o.first + m.hidden.length := by
  have hhead : (o.credential ++ o.after).head?.any isPlain = true := by
    obtain ⟨c, cs, hc⟩ := List.exists_cons_of_ne_nil o.credential_ne_nil
    have hplain := o.credential_plain
    rw [hc] at hplain ⊢
    exact hplain c List.mem_cons_self
  have htext : text.drop o.start =
      o.keyword ++ (o.gap ++ o.mark :: o.blanks) ++ o.credential ++
        o.after := by
    rw [o.drop_start, hscheme]
    simp only [List.append_assoc, List.cons_append, List.nil_append]
  refine ⟨⟨o.keyword ++ (o.gap ++ o.mark :: o.blanks), o.credential, o.after⟩,
    ?_, ?_, rfl⟩
  · rw [htext]
    apply Finder.find_eq_some_of_run o.accepts_front o.credential_ne_nil
      o.credential_plain o.maximal
    intro front' behind heq hfront' hbehind
    rw [List.append_assoc] at heq
    exact front_unique o.accepts_front hfront' hhead hbehind heq
  · simp only [first, schemeStart, markAt, gapStart, hscheme,
      List.length_append, List.length_cons, List.length_nil]
    omega

end Occurrence

theorem exists_occurrence_of_find {text : List Char} {start : ℕ}
    {m : Match Char} (h : secretPattern.find (text.drop start) = some m) :
    ∃ o : Occurrence text, o.scheme = [] ∧ o.start = start ∧
      o.first = start + m.kept.length ∧
      o.stop = start + m.kept.length + m.hidden.length := by
  obtain ⟨htext, haccepts, hne, hplain, hmaximal⟩ := Finder.find_run h
  obtain ⟨keyword, gap, mark, blanks, hkept, hkeyword, hgap, hmark, hblanks⟩ :=
    accepts_secretFront.mp haccepts
  have hstart : start < text.length := by
    by_contra hle
    rw [List.drop_eq_nil_of_le (not_lt.mp hle)] at htext
    have hkept := List.append_eq_nil_iff.mp
      (List.append_eq_nil_iff.mp htext.symm).1
    exact hne hkept.2
  have htake : (text.take start).length = start :=
    List.length_take_of_le hstart.le
  have hlength : m.kept.length =
      keyword.length + gap.length + 1 + blanks.length := by
    rw [hkept]
    simp only [List.length_append, List.length_cons]
    omega
  have hfirst : ∀ n, start + (keyword.length + (gap.length + (1 +
      (blanks.length + n)))) = start + m.kept.length + n := by omega
  refine ⟨{
    before := text.take start
    keyword := keyword
    gap := gap
    mark := mark
    blanks := blanks
    scheme := []
    credential := m.hidden
    after := m.rest
    text_eq := ?_
    keyword_mem := hkeyword
    gap_blank := hgap
    isMark_mark := hmark
    blanks_blank := hblanks
    scheme_eq := Or.inl rfl
    credential_ne_nil := hne
    credential_plain := hplain
    maximal := hmaximal }, rfl, htake, ?_, ?_⟩
  · rw [hkept] at htext
    simp only [List.append_assoc, List.cons_append, List.nil_append] at htext ⊢
    rw [← htext, List.take_append_drop]
  · simp only [Occurrence.first, Occurrence.schemeStart, Occurrence.markAt,
      Occurrence.gapStart, Occurrence.start, htake, List.length_nil]
    omega
  · simp only [Occurrence.stop, Occurrence.first, Occurrence.schemeStart,
      Occurrence.markAt, Occurrence.gapStart, Occurrence.start, htake,
      List.length_nil]
    omega

end Workstream.Observability
