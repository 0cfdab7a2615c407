import Mathlib.Data.List.Basic
import Mathlib.Algebra.Order.Ring.Nat

/-!
# Numerals of a fixed width

The digits of a number in a base up to sixteen, padded with zeros.
-/

namespace Text

/-- The last `w` digits of `n`, the highest first. -/
def digits (b : ℕ) : ℕ → ℕ → List ℕ
  | 0, _ => []
  | w + 1, n => digits b w (n / b) ++ [n % b]

/-- The number with these digits. -/
def value (b : ℕ) (ds : List ℕ) : ℕ :=
  ds.foldl (fun n d => n * b + d) 0

@[simp]
theorem length_digits (b w n : ℕ) : (digits b w n).length = w := by
  induction w generalizing n with
  | zero => rfl
  | succ w ih => simp [digits, ih]

theorem digits_lt {b : ℕ} (hb : 0 < b) (w n : ℕ) : ∀ d ∈ digits b w n, d < b := by
  induction w generalizing n with
  | zero => simp [digits]
  | succ w ih =>
      intro d hd
      rw [digits, List.mem_append, List.mem_singleton] at hd
      rcases hd with hd | rfl
      · exact ih _ d hd
      · exact Nat.mod_lt n hb

theorem value_digits {b w n : ℕ} (h : n < b ^ w) : value b (digits b w n) = n := by
  induction w generalizing n with
  | zero =>
      rw [pow_zero] at h
      simp [digits, value]
      omega
  | succ w ih =>
      have hdiv : n / b < b ^ w := by
        apply Nat.div_lt_of_lt_mul
        rw [mul_comm, ← pow_succ]
        exact h
      have hvalue := ih hdiv
      unfold value at hvalue ⊢
      rw [digits, List.foldl_append, hvalue]
      exact Nat.div_add_mod' n b

/-! ## Characters -/

/-- The value of a digit, in either case. -/
def ofDigit (c : Char) : Option ℕ :=
  if '0' ≤ c ∧ c ≤ '9' then some (c.toNat - '0'.toNat)
  else if 'a' ≤ c ∧ c ≤ 'f' then some (c.toNat - 'a'.toNat + 10)
  else if 'A' ≤ c ∧ c ≤ 'F' then some (c.toNat - 'A'.toNat + 10)
  else none

def numeral (b w n : ℕ) : List Char :=
  (digits b w n).map Nat.digitChar

/-- Appends a digit to a number. -/
def shift (b n : ℕ) (c : Char) : Option ℕ :=
  (ofDigit c).bind fun d => if d < b then some (n * b + d) else none

/-- The number that a numeral stands for. -/
def ofNumeral (b : ℕ) (cs : List Char) : Option ℕ :=
  cs.foldlM (shift b) 0

theorem ofDigit_digitChar : ∀ d < 16, ofDigit (Nat.digitChar d) = some d := by
  decide

@[simp]
theorem length_numeral (b w n : ℕ) : (numeral b w n).length = w := by
  simp [numeral]

theorem foldlM_shift {b : ℕ} (hb : b ≤ 16) (ds : List ℕ)
    (hds : ∀ d ∈ ds, d < b) (n : ℕ) :
    (ds.map Nat.digitChar).foldlM (shift b) n =
      some (ds.foldl (fun n d => n * b + d) n) := by
  induction ds generalizing n with
  | nil => rfl
  | cons d ds ih =>
      have hd := hds d List.mem_cons_self
      have hstep : shift b n (Nat.digitChar d) = some (n * b + d) := by
        simp [shift, ofDigit_digitChar d (lt_of_lt_of_le hd hb), hd]
      rw [List.map_cons, List.foldlM_cons, hstep]
      exact ih (fun x hx => hds x (List.mem_cons_of_mem d hx)) _

theorem ofNumeral_numeral {b w n : ℕ} (hb : 0 < b) (hsixteen : b ≤ 16)
    (h : n < b ^ w) : ofNumeral b (numeral b w n) = some n := by
  rw [ofNumeral, numeral, foldlM_shift hsixteen _ (digits_lt hb w n)]
  exact congrArg some (value_digits h)

/-! ## ASCII -/

def Ascii (cs : List Char) : Prop :=
  ∀ c ∈ cs, c.toNat < 128

instance (cs : List Char) : Decidable (Ascii cs) :=
  List.decidableBAll _ cs

@[simp]
theorem ascii_nil : Ascii [] := by simp [Ascii]

@[simp]
theorem ascii_cons {c : Char} {cs : List Char} :
    Ascii (c :: cs) ↔ c.toNat < 128 ∧ Ascii cs := by
  simp [Ascii]

@[simp]
theorem ascii_append {cs ds : List Char} :
    Ascii (cs ++ ds) ↔ Ascii cs ∧ Ascii ds :=
  List.forall_mem_append

/-! ## Reading -/

/-- Reads something at the front of a text, and leaves the rest. -/
abbrev Reader : Type → Type := StateT (List Char) Option

def readText (text : List Char) : Reader Unit := fun cs =>
  (cs.dropPrefix? text).map fun rest => ((), rest)

def readNumeral (b w : ℕ) : Reader ℕ := fun cs =>
  if cs.length < w then none
  else (ofNumeral b (cs.take w)).map fun n => (n, cs.drop w)

section Reader

variable {α β : Type}

theorem reader_bind {x : Reader α} {f : α → Reader β} {cs rest : List Char}
    {a : α} (h : x cs = some (a, rest)) : (x >>= f) cs = f a rest := by
  change Option.bind (x cs) _ = _
  rw [h]
  rfl

theorem readText_bind {f : Unit → Reader α} {text rest : List Char} :
    (readText text >>= f) (text ++ rest) = f () rest := by
  have hdrop : (text ++ rest).dropPrefix? text = some rest :=
    List.dropPrefix?_eq_some_iff.mpr ⟨text, rfl, by simp⟩
  apply reader_bind
  rw [readText, hdrop]
  rfl

theorem readNumeral_bind {f : ℕ → Reader α} {b w n : ℕ} {rest : List Char}
    (hb : 0 < b) (hsixteen : b ≤ 16) (h : n < b ^ w) :
    (readNumeral b w >>= f) (numeral b w n ++ rest) = f n rest := by
  have htake : (numeral b w n ++ rest).take w = numeral b w n := by
    rw [List.take_append_of_le_length (by simp),
      List.take_of_length_le (by simp)]
  have hdrop : (numeral b w n ++ rest).drop w = rest := by
    rw [List.drop_append_of_le_length (by simp),
      List.drop_of_length_le (by simp), List.nil_append]
  apply reader_bind
  rw [readNumeral, if_neg (by simp), htake, hdrop,
    ofNumeral_numeral hb hsixteen h]
  rfl

end Reader

end Text
