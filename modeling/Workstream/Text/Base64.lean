import Mathlib.Data.List.DropRight
import Workstream.Text.Numeral

/-!
# Base 64

The alphabet for addresses.  The decoder takes both alphabets, skips characters
of neither and does not insist on a canonical ending.
-/

namespace Text

/-! ## Letters -/

def letter (n : ℕ) : Char :=
  if n < 26 then Char.ofNat ('A'.toNat + n)
  else if n < 52 then Char.ofNat ('a'.toNat + (n - 26))
  else if n < 62 then Char.ofNat ('0'.toNat + (n - 52))
  else if n = 62 then '-'
  else '_'

def sextet (c : Char) : Option ℕ :=
  if 'A' ≤ c ∧ c ≤ 'Z' then some (c.toNat - 'A'.toNat)
  else if 'a' ≤ c ∧ c ≤ 'z' then some (c.toNat - 'a'.toNat + 26)
  else if '0' ≤ c ∧ c ≤ '9' then some (c.toNat - '0'.toNat + 52)
  else if c = '-' ∨ c = '+' then some 62
  else if c = '_' ∨ c = '/' then some 63
  else none

theorem letter_spec : ∀ n < 64, sextet (letter n) = some n ∧ letter n ≠ '=' ∧
    (letter n).toNat < 128 := by
  decide

theorem sextet_letter {n : ℕ} (h : n < 64) : sextet (letter n) = some n :=
  (letter_spec n h).1

theorem letter_ne {n : ℕ} (h : n < 64) : letter n ≠ '=' :=
  (letter_spec n h).2.1

theorem letter_ascii {n : ℕ} (h : n < 64) : (letter n).toNat < 128 :=
  (letter_spec n h).2.2

/-! ## Coding -/

/-- The groups of six bits of a text of bytes; the last one is filled up. -/
def sextets : List ℕ → List ℕ
  | [] => []
  | [a] => [a / 4, a % 4 * 16]
  | [a, b] => [a / 4, a % 4 * 16 + b / 16, b % 16 * 4]
  | a :: b :: c :: rest =>
      a / 4 :: (a % 4 * 16 + b / 16) :: (b % 16 * 4 + c / 64) :: c % 64 ::
        sextets rest

/-- The padding that makes the length a multiple of four. -/
def repad (cs : List Char) : List Char :=
  cs ++ List.replicate ((4 - cs.length % 4) % 4) '='

/-- `base64.urlsafe_b64encode`. -/
def encode64 (bytes : List ℕ) : List Char :=
  repad ((sextets bytes).map letter)

/-- `rstrip("=")`. -/
def unpad (cs : List Char) : List Char :=
  cs.rdropWhile fun c => c = '='

/-- The loop of `binascii.a2b_base64`: the position in the quadruple, the bits
that are left over, and the padding seen.  What comes after complete padding is
not looked at. -/
def scan64 (quad left pads : ℕ) : List Char → Option (List ℕ)
  | [] => if quad = 0 then some [] else none
  | c :: cs =>
      if c = '=' then
        if 2 ≤ quad then
          if 4 ≤ quad + (pads + 1) then some []
          else scan64 quad left (pads + 1) cs
        else scan64 quad left pads cs
      else
        match sextet c with
        | none => scan64 quad left pads cs
        | some n =>
            if quad = 0 then scan64 1 n 0 cs
            else if quad = 1 then
              (scan64 2 (n % 16) 0 cs).map ((left * 4 + n / 16) :: ·)
            else if quad = 2 then
              (scan64 3 (n % 4) 0 cs).map ((left * 16 + n / 4) :: ·)
            else (scan64 0 0 0 cs).map ((left * 64 + n) :: ·)

/-- `base64.urlsafe_b64decode` of a text. -/
def decode64 (cs : List Char) : Option (List ℕ) :=
  if Ascii cs then scan64 0 0 0 cs else none

/-! ## Round trip -/

section Scan

variable {left pads n : ℕ} (h : n < 64) (cs : List Char)

include h

theorem scan64_first :
    scan64 0 left pads (letter n :: cs) = scan64 1 n 0 cs := by
  simp [scan64, letter_ne h, sextet_letter h]

theorem scan64_second :
    scan64 1 left pads (letter n :: cs) =
      (scan64 2 (n % 16) 0 cs).map ((left * 4 + n / 16) :: ·) := by
  simp [scan64, letter_ne h, sextet_letter h]

theorem scan64_third :
    scan64 2 left pads (letter n :: cs) =
      (scan64 3 (n % 4) 0 cs).map ((left * 16 + n / 4) :: ·) := by
  simp [scan64, letter_ne h, sextet_letter h]

theorem scan64_fourth :
    scan64 3 left pads (letter n :: cs) =
      (scan64 0 0 0 cs).map ((left * 64 + n) :: ·) := by
  simp [scan64, letter_ne h, sextet_letter h]

end Scan

theorem repad_append {front back : List Char} (h : front.length = 4) :
    repad (front ++ back) = front ++ repad back := by
  have hlength : (front ++ back).length % 4 = back.length % 4 := by
    rw [List.length_append, h]
    omega
  rw [repad, repad, hlength, List.append_assoc]

theorem sextets_lt (bytes : List ℕ) (h : ∀ b ∈ bytes, b < 256) :
    ∀ n ∈ sextets bytes, n < 64 := by
  induction bytes using sextets.induct with
  | case1 => simp [sextets]
  | case2 a =>
      have ha : a < 256 := h a (by simp)
      intro n hn
      simp only [sextets, List.mem_cons, List.not_mem_nil, or_false] at hn
      omega
  | case3 a b =>
      have ha : a < 256 := h a (by simp)
      have hb : b < 256 := h b (by simp)
      intro n hn
      simp only [sextets, List.mem_cons, List.not_mem_nil, or_false] at hn
      omega
  | case4 a b c rest ih =>
      have ha : a < 256 := h a (by simp)
      have hb : b < 256 := h b (by simp)
      have hc : c < 256 := h c (by simp)
      have hrest := ih fun x hx => h x (by simp [hx])
      intro n hn
      simp only [sextets, List.mem_cons] at hn
      by_cases hlast : n ∈ sextets rest
      · exact hrest n hlast
      · simp only [hlast, or_false] at hn
        omega

/-- A byte and the six bits before it, from the letters that hold them. -/
theorem byte_of_groups {a b c : ℕ} (hb : b < 256) (hc : c < 256) :
    (a % 4 * 16 + b / 16) % 16 * 16 + (b % 16 * 4 + c / 64) / 4 = b ∧
      a / 4 * 4 + (a % 4 * 16 + b / 16) / 16 = a ∧
      (b % 16 * 4 + c / 64) % 4 * 64 + c % 64 = c := by
  refine ⟨?_, ?_, ?_⟩ <;> omega

theorem scan64_group {a b c : ℕ} (ha : a < 256) (hb : b < 256) (hc : c < 256)
    (cs : List Char) :
    scan64 0 0 0 (letter (a / 4) :: letter (a % 4 * 16 + b / 16) ::
        letter (b % 16 * 4 + c / 64) :: letter (c % 64) :: cs) =
      (scan64 0 0 0 cs).map fun rest => a :: b :: c :: rest := by
  obtain ⟨hsecond, hfirst, hthird⟩ := byte_of_groups (a := a) hb hc
  rw [scan64_first (by omega), scan64_second (by omega),
    scan64_third (by omega), scan64_fourth (by omega), hfirst, hsecond, hthird,
    Option.map_map, Option.map_map]
  rfl

theorem scan64_one {a : ℕ} (ha : a < 256) :
    scan64 0 0 0 [letter (a / 4), letter (a % 4 * 16), '=', '='] =
      some [a] := by
  have hfirst : a / 4 * 4 + a % 4 * 16 / 16 = a := by omega
  rw [scan64_first (by omega), scan64_second (by omega), hfirst]
  rfl

theorem scan64_two {a b : ℕ} (ha : a < 256) (hb : b < 256) :
    scan64 0 0 0 [letter (a / 4), letter (a % 4 * 16 + b / 16),
      letter (b % 16 * 4), '='] = some [a, b] := by
  obtain ⟨hsecond, hfirst, -⟩ := byte_of_groups (a := a) hb (c := 0) (by omega)
  rw [Nat.zero_div, Nat.add_zero] at hsecond
  rw [scan64_first (by omega), scan64_second (by omega),
    scan64_third (by omega), hfirst, hsecond]
  rfl

theorem scan64_encode64 (bytes : List ℕ) (h : ∀ b ∈ bytes, b < 256) :
    scan64 0 0 0 (encode64 bytes) = some bytes := by
  induction bytes using sextets.induct with
  | case1 => rfl
  | case2 a => exact scan64_one (h a (by simp))
  | case3 a b => exact scan64_two (h a (by simp)) (h b (by simp))
  | case4 a b c rest ih =>
      have hrest := ih fun x hx => h x (by simp [hx])
      have hsplit : encode64 (a :: b :: c :: rest) = letter (a / 4) ::
          letter (a % 4 * 16 + b / 16) :: letter (b % 16 * 4 + c / 64) ::
          letter (c % 64) :: encode64 rest :=
        @repad_append [_, _, _, _] ((sextets rest).map letter) rfl
      rw [hsplit, scan64_group (h a (by simp)) (h b (by simp)) (h c (by simp)),
        hrest]
      rfl

theorem ascii_encode64 (bytes : List ℕ) (h : ∀ b ∈ bytes, b < 256) :
    Ascii (encode64 bytes) := by
  have hletters : Ascii ((sextets bytes).map letter) := by
    intro c hc
    obtain ⟨n, hn, rfl⟩ := List.mem_map.mp hc
    exact letter_ascii (sextets_lt bytes h n hn)
  have hpadding : ∀ n, Ascii (List.replicate n '=') := by
    intro n c hc
    rw [List.eq_of_mem_replicate hc]
    decide
  exact ascii_append.mpr ⟨hletters, hpadding _⟩

theorem decode64_encode64 {bytes : List ℕ} (h : ∀ b ∈ bytes, b < 256) :
    decode64 (encode64 bytes) = some bytes := by
  rw [decode64, if_pos (ascii_encode64 bytes h)]
  exact scan64_encode64 bytes h

/-! ## Padding -/

/-- What is left without the padding are the letters. -/
theorem unpad_encode64 {bytes : List ℕ} (h : ∀ b ∈ bytes, b < 256) :
    unpad (encode64 bytes) = (sextets bytes).map letter := by
  have hletters : ∀ c ∈ (sextets bytes).map letter, c ≠ '=' := by
    intro c hc
    obtain ⟨n, hn, rfl⟩ := List.mem_map.mp hc
    exact letter_ne (sextets_lt bytes h n hn)
  unfold encode64 repad
  generalize (4 - ((sextets bytes).map letter).length % 4) % 4 = n
  unfold unpad
  induction n with
  | zero =>
      rw [List.replicate_zero, List.append_nil, List.rdropWhile_eq_self_iff]
      intro hne
      simpa using hletters _ (List.getLast_mem hne)
  | succ n ih =>
      rw [List.replicate_succ', ← List.append_assoc,
        List.rdropWhile_concat_pos _ _ _ (by simp), ih]

/-- A text that was coded and stripped of its padding is decoded again. -/
theorem decode64_repad_unpad {bytes : List ℕ} (h : ∀ b ∈ bytes, b < 256) :
    decode64 (repad (unpad (encode64 bytes))) = some bytes := by
  rw [unpad_encode64 h]
  exact decode64_encode64 h

theorem unpad_encode64_ne_nil {bytes : List ℕ} (h : ∀ b ∈ bytes, b < 256)
    (hne : bytes ≠ []) : unpad (encode64 bytes) ≠ [] := by
  intro hnil
  have hround := decode64_repad_unpad h
  rw [hnil] at hround
  exact hne (Option.some.inj hround).symm

end Text
