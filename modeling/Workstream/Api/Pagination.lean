import Workstream.Api.Dependencies
import Workstream.Text.Base64
import Workstream.Text.Calendar
import Workstream.Text.Numeral

/-!
# Cursors

A cursor is a JSON array of a timestamp and an identifier in base 64.  Of what
a client may send instead, only the texts that `encode_cursor` writes are read
here; what the libraries make of the others is left open.
-/

namespace Workstream

open ReadCommitted Text

/-! ## Timestamps and identifiers as texts -/

/-- A `datetime`: the microseconds since the year one on its clock, and how far
the clock is ahead of UTC, if it says so. -/
structure Datetime where
  clock : ℕ
  offset : Option ℤ
  deriving DecidableEq

/-- The range of the clock, and of the offsets that `timezone` admits. -/
structure Datetime.Valid (t : Datetime) : Prop where
  clock : t.clock < maxOrdinal * 86400000000
  offset : ∀ d ∈ t.offset, d.natAbs < 86400000000

def utc (τ : Instant) : Datetime where
  clock := τ
  offset := some 0

/-- The microseconds, if there are any. -/
def fraction (microsecond : ℕ) : List Char :=
  if microsecond = 0 then [] else ['.'] ++ numeral 10 6 microsecond

/-- `_format_offset`, after the sign. -/
def distanceText (n : ℕ) : List Char :=
  numeral 10 2 (n / 3600000000) ++ [':'] ++
    numeral 10 2 (n / 60000000 % 60) ++
    if n % 60000000 = 0 then []
    else [':'] ++ numeral 10 2 (n / 1000000 % 60) ++ fraction (n % 1000000)

def offsetText (offset : Option ℤ) : List Char :=
  match offset with
  | none => []
  | some d => (if d < 0 then '-' else '+') :: distanceText d.natAbs

def isoformat (t : Datetime) : List Char :=
  let date := ofOrdinal (t.clock / 86400000000 + 1)
  let second := t.clock / 1000000 % 86400
  numeral 10 4 date.year ++ ['-'] ++ numeral 10 2 date.month ++ ['-'] ++
    numeral 10 2 date.day ++ ['T'] ++ numeral 10 2 (second / 3600) ++ [':'] ++
    numeral 10 2 (second / 60 % 60) ++ [':'] ++ numeral 10 2 (second % 60) ++
    fraction (t.clock % 1000000) ++ offsetText t.offset

/-- `UUID.__str__`. -/
def uuidText (id : Uuid) : List Char :=
  numeral 16 8 (id / 16 ^ 24) ++ ['-'] ++ numeral 16 4 (id / 16 ^ 20 % 16 ^ 4) ++
    ['-'] ++ numeral 16 4 (id / 16 ^ 16 % 16 ^ 4) ++ ['-'] ++
    numeral 16 4 (id / 16 ^ 12 % 16 ^ 4) ++ ['-'] ++
    numeral 16 12 (id % 16 ^ 12)

/-- `json.dumps` of two texts that need no escapes. -/
def document (a b : List Char) : List Char :=
  ['[', '"'] ++ a ++ ['"', ',', '"'] ++ b ++ ['"', ']']

def encodeCursor (createdAt : Datetime) (id : Uuid) : String :=
  let payload := document (isoformat createdAt) (uuidText id)
  String.ofList (unpad (encode64 (payload.map Char.toNat)))

/-! ## Reading them -/

def readFraction : Reader ℕ := fun cs =>
  match cs with
  | '.' :: rest => readNumeral 10 6 rest
  | _ => some (0, cs)

def readSecond : Reader ℕ := do
  let second ← readNumeral 10 2
  let microsecond ← readFraction
  if second < 60 then return second * 1000000 + microsecond
  else failure

/-- The seconds of an offset, if there are any, in microseconds. -/
def readSeconds : Reader ℕ := fun cs =>
  match cs with
  | ':' :: rest => readSecond rest
  | _ => some (0, cs)

/-- An offset without its sign. -/
def readDistance : Reader ℕ := do
  let hour ← readNumeral 10 2
  readText [':']
  let minute ← readNumeral 10 2
  let microsecond ← readSeconds
  if hour < 24 ∧ minute < 60 then
    return (hour * 60 + minute) * 60000000 + microsecond
  else failure

def readOffset : Reader (Option ℤ) := fun cs =>
  match cs with
  | [] => some (none, [])
  | '+' :: rest => (readDistance rest).map fun x => (some (x.1 : ℤ), x.2)
  | '-' :: rest => (readDistance rest).map fun x => (some (-x.1 : ℤ), x.2)
  | _ => none

def clockOf (date : Day) (hour minute second microsecond : ℕ) : ℕ :=
  ((date.ordinal - 1) * 86400 + hour * 3600 + minute * 60 + second) * 1000000 +
    microsecond

/-- `datetime.fromisoformat`, on what `isoformat` writes. -/
def readTimestamp : Reader Datetime := do
  let year ← readNumeral 10 4
  readText ['-']
  let month ← readNumeral 10 2
  readText ['-']
  let day ← readNumeral 10 2
  readText ['T']
  let hour ← readNumeral 10 2
  readText [':']
  let minute ← readNumeral 10 2
  readText [':']
  let second ← readNumeral 10 2
  let microsecond ← readFraction
  let offset ← readOffset
  let date : Day := { year, month, day }
  if date.Valid ∧ hour < 24 ∧ minute < 60 ∧ second < 60 then
    return { clock := clockOf date hour minute second microsecond, offset }
  else failure

/-- `UUID`, on what `UUID.__str__` writes. -/
def readUuid : Reader Uuid := do
  let a ← readNumeral 16 8
  readText ['-']
  let b ← readNumeral 16 4
  readText ['-']
  let c ← readNumeral 16 4
  readText ['-']
  let d ← readNumeral 16 4
  readText ['-']
  let e ← readNumeral 16 12
  return (((a * 16 ^ 4 + b) * 16 ^ 4 + c) * 16 ^ 4 + d) * 16 ^ 12 + e

/-- The characters that stand for themselves between quotation marks. -/
def plain (c : Char) : Bool :=
  c ≠ '"' ∧ c ≠ '\\' ∧ 32 ≤ c.toNat ∧ c.toNat < 127

def readPlain : Reader (List Char) := fun cs =>
  some (cs.takeWhile plain, cs.dropWhile plain)

/-- `json.loads`, on what `json.dumps` writes for two such texts. -/
def readDocument : Reader (List Char × List Char) := do
  readText ['[', '"']
  let a ← readPlain
  readText ['"', ',', '"']
  let b ← readPlain
  readText ['"', ']']
  return (a, b)

/-! ## Decoding -/

/-- What `json.loads` returns.  Of a number only its type matters. -/
inductive Json where
  | null
  | bool (b : Bool)
  | number
  | string (s : List Char)
  | array (items : List Json)
  | object (members : List (List Char × Json))

/-- The exceptions of the libraries; the errors of `json` and `base64` are
value errors. -/
inductive PyError where
  | valueError
  | typeError
  | attributeError
  deriving DecidableEq

/-- What is up to the libraries: `json.loads`, `fromisoformat` and `UUID` on
texts that `encode_cursor` does not write, the local time zone, and the letter
case of the database, in which the characters of a pattern that are not letters
have no part. -/
structure Platform where
  loads : List ℕ → Option Json
  fromisoformat : List Char → Option Datetime
  uuid : List Char → Option Uuid
  localOffset : ℕ → ℤ
  lowerCase : Char → Char
  lowerCase_eq : ∀ c, ∀ m ∈ ['%', '_', '\\'], lowerCase c = m ↔ c = m

def jsonLoads (P : Platform) (raw : List ℕ) : Except PyError Json :=
  match readDocument (raw.map Char.ofNat) with
  | some ((a, b), []) => .ok (.array [.string a, .string b])
  | _ =>
      match P.loads raw with
      | some value => .ok value
      | none => .error .valueError

/-- The assignment of an iterable to two targets. -/
def unpack : Json → Except PyError (Json × Json)
  | .array [a, b] => .ok (a, b)
  | .array _ => .error .valueError
  | .object [a, b] => .ok (.string a.1, .string b.1)
  | .object _ => .error .valueError
  | .string [a, b] => .ok (.string [a], .string [b])
  | .string _ => .error .valueError
  | .null => .error .typeError
  | .bool _ => .error .typeError
  | .number => .error .typeError

def fromisoformat (P : Platform) : Json → Except PyError Datetime
  | .string s =>
      match readTimestamp s with
      | some (t, []) => .ok t
      | _ =>
          match P.fromisoformat s with
          | some t => .ok t
          | none => .error .valueError
  | _ => .error .typeError

/-- `UUID`, which looks for `None` and then calls `replace`. -/
def uuid (P : Platform) : Json → Except PyError Uuid
  | .string s =>
      match readUuid s with
      | some (id, []) => .ok id
      | _ =>
          match P.uuid s with
          | some id => .ok id
          | none => .error .valueError
  | .null => .error .typeError
  | _ => .error .attributeError

/-- The body of the `try` statement. -/
def readCursor (P : Platform) (value : String) :
    Except PyError (Datetime × Uuid) :=
  match decode64 (repad value.toList) with
  | none => .error .valueError
  | some raw => do
      let value ← jsonLoads P raw
      let items ← unpack value
      let createdAt ← fromisoformat P items.1
      let id ← uuid P items.2
      return (createdAt, id)

def invalidCursor : AppError where
  status := 400
  code := "invalid_cursor"
  detail := "Cursor is malformed"

def decodeCursor (P : Platform) (value : String) : Tx (Datetime × Uuid) :=
  match readCursor P value with
  | .ok position => pure position
  | .error .valueError => .raise invalidCursor
  | .error .typeError => .raise invalidCursor
  | .error .attributeError => .halt

/-! ## Round trips -/

section RoundTrip

variable {α : Type}

theorem readFraction_bind {f : ℕ → Reader α} {n : ℕ} (h : n < 10 ^ 6)
    {cs : List Char} (hcs : cs.head? ≠ some '.') :
    (readFraction >>= f) (fraction n ++ cs) = f n cs := by
  unfold fraction
  by_cases hn : n = 0
  · have hread : readFraction cs = some (0, cs) := by
      cases cs with
      | nil => rfl
      | cons c cs =>
          have hc : c ≠ '.' := by simpa using hcs
          simp [readFraction, hc]
    rw [if_pos hn, List.nil_append, hn]
    exact reader_bind hread
  · rw [if_neg hn]
    exact readNumeral_bind (by omega) (by omega) h

theorem readSeconds_eq (n : ℕ) :
    readSeconds (if n % 60000000 = 0 then [] else
      [':'] ++ numeral 10 2 (n / 1000000 % 60) ++ fraction (n % 1000000)) =
      some (n % 60000000, []) := by
  by_cases hn : n % 60000000 = 0
  · rw [if_pos hn, hn]
    rfl
  · have hsum : n / 1000000 % 60 * 1000000 + n % 1000000 = n % 60000000 := by
      omega
    rw [if_neg hn]
    change readSecond (numeral 10 2 (n / 1000000 % 60) ++
      fraction (n % 1000000)) = _
    rw [readSecond, readNumeral_bind (by omega) (by omega) (by omega),
      ← List.append_nil (fraction _), readFraction_bind (by omega) (by simp),
      if_pos (by omega), hsum]
    rfl

theorem readDistance_distanceText {n : ℕ} (h : n < 86400000000) :
    readDistance (distanceText n) = some (n, []) := by
  have hseconds : ∀ {f : ℕ → Reader ℕ}, (readSeconds >>= f)
      (if n % 60000000 = 0 then [] else
        [':'] ++ numeral 10 2 (n / 1000000 % 60) ++ fraction (n % 1000000)) =
      f (n % 60000000) [] := by
    intro f
    exact reader_bind (readSeconds_eq n)
  have hsum : (n / 3600000000 * 60 + n / 60000000 % 60) * 60000000 +
      n % 60000000 = n := by
    omega
  simp only [readDistance, distanceText, List.append_assoc]
  rw [readNumeral_bind (by omega) (by omega) (by omega), readText_bind,
    readNumeral_bind (by omega) (by omega) (by omega), ← List.append_assoc,
    hseconds, if_pos (by omega), hsum]
  rfl

theorem readOffset_offsetText {offset : Option ℤ}
    (h : ∀ d ∈ offset, d.natAbs < 86400000000) :
    readOffset (offsetText offset) = some (offset, []) := by
  cases offset with
  | none => rfl
  | some d =>
      have hread := readDistance_distanceText (h d rfl)
      unfold offsetText
      by_cases hd : d < 0
      · have habs : -|d| = d := by rw [abs_of_neg hd, neg_neg]
        simp [readOffset, hd, hread, habs]
      · have habs : (d.natAbs : ℤ) = d := by omega
        simp [readOffset, hd, hread, habs]

theorem head_offsetText (offset : Option ℤ) :
    (offsetText offset).head? ≠ some '.' := by
  unfold offsetText
  cases offset with
  | none => simp
  | some d =>
      dsimp only
      split <;> simp

/-- `fromisoformat` undoes `isoformat`. -/
theorem readTimestamp_isoformat {t : Datetime} (h : t.Valid) :
    readTimestamp (isoformat t) = some (t, []) := by
  have hclock := h.clock
  have hordinal : t.clock / 86400000000 + 1 ≤ maxOrdinal := by
    unfold maxOrdinal at hclock ⊢
    omega
  obtain ⟨hvalid, hinverse⟩ := ofOrdinal_spec (by omega) hordinal
  have hyear := hvalid.year_le
  have hmonth := hvalid.month_le
  have hday := hvalid.day_le_31
  have htime : clockOf (ofOrdinal (t.clock / 86400000000 + 1))
      (t.clock / 1000000 % 86400 / 3600) (t.clock / 1000000 % 86400 / 60 % 60)
      (t.clock / 1000000 % 86400 % 60) (t.clock % 1000000) = t.clock := by
    rw [clockOf, hinverse]
    omega
  have hoffset : ∀ {f : Option ℤ → Reader Datetime},
      (readOffset >>= f) (offsetText t.offset) = f t.offset [] := by
    intro f
    exact reader_bind (readOffset_offsetText h.offset)
  simp only [isoformat, readTimestamp, List.append_assoc]
  rw [readNumeral_bind (by omega) (by omega) (by omega), readText_bind,
    readNumeral_bind (by omega) (by omega) (by omega), readText_bind,
    readNumeral_bind (by omega) (by omega) (by omega), readText_bind,
    readNumeral_bind (by omega) (by omega) (by omega), readText_bind,
    readNumeral_bind (by omega) (by omega) (by omega), readText_bind,
    readNumeral_bind (by omega) (by omega) (by omega),
    readFraction_bind (by omega) (head_offsetText _), hoffset,
    if_pos ⟨hvalid, by omega, by omega, by omega⟩, htime]
  rfl

/-- `UUID` undoes `UUID.__str__`. -/
theorem readUuid_uuidText {id : ℕ} (h : id < 16 ^ 32) :
    readUuid (uuidText id) = some (id, []) := by
  have hid : (((id / 16 ^ 24 * 16 ^ 4 + id / 16 ^ 20 % 16 ^ 4) * 16 ^ 4 +
      id / 16 ^ 16 % 16 ^ 4) * 16 ^ 4 + id / 16 ^ 12 % 16 ^ 4) * 16 ^ 12 +
        id % 16 ^ 12 = id := by
    omega
  simp only [uuidText, readUuid, List.append_assoc]
  rw [readNumeral_bind (by omega) (by omega) (by omega), readText_bind,
    readNumeral_bind (by omega) (by omega) (by omega), readText_bind,
    readNumeral_bind (by omega) (by omega) (by omega), readText_bind,
    readNumeral_bind (by omega) (by omega) (by omega), readText_bind,
    ← List.append_nil (numeral 16 12 _),
    readNumeral_bind (by omega) (by omega) (by omega), hid]
  rfl

/-! ### The document -/

def Plain (cs : List Char) : Prop :=
  ∀ c ∈ cs, plain c = true

@[simp]
theorem plain_nil : Plain [] := by simp [Plain]

@[simp]
theorem plain_cons {c : Char} {cs : List Char} :
    Plain (c :: cs) ↔ plain c = true ∧ Plain cs := by
  simp [Plain]

@[simp]
theorem plain_append {cs ds : List Char} :
    Plain (cs ++ ds) ↔ Plain cs ∧ Plain ds :=
  List.forall_mem_append

theorem plain_numeral {b : ℕ} (hb : 0 < b) (hsixteen : b ≤ 16) (w n : ℕ) :
    Plain (numeral b w n) := by
  have hdigit : ∀ d < 16, plain (Nat.digitChar d) = true := by decide
  intro c hc
  obtain ⟨d, hd, rfl⟩ := List.mem_map.mp hc
  exact hdigit d (lt_of_lt_of_le (digits_lt hb w n d hd) hsixteen)

theorem plain_fraction (n : ℕ) : Plain (fraction n) := by
  have hten := plain_numeral (show 0 < 10 by omega) (show 10 ≤ 16 by omega)
  unfold fraction
  split
  · exact plain_nil
  · simp [hten, show plain '.' = true from rfl]

theorem plain_offsetText (offset : Option ℤ) : Plain (offsetText offset) := by
  have hten := plain_numeral (show 0 < 10 by omega) (show 10 ≤ 16 by omega)
  cases offset with
  | none => exact plain_nil
  | some d =>
      have hsign : plain (if d < 0 then '-' else '+') = true := by
        split <;> rfl
      have hdistance : Plain (distanceText d.natAbs) := by
        unfold distanceText
        split <;> simp [hten, plain_fraction, show plain ':' = true from rfl]
      exact plain_cons.mpr ⟨hsign, hdistance⟩

theorem plain_isoformat (t : Datetime) : Plain (isoformat t) := by
  have hten := plain_numeral (show 0 < 10 by omega) (show 10 ≤ 16 by omega)
  simp [isoformat, hten, plain_fraction, plain_offsetText,
    show plain '-' = true from rfl, show plain ':' = true from rfl,
    show plain 'T' = true from rfl]

theorem plain_uuidText (id : ℕ) : Plain (uuidText id) := by
  have hsixteen := plain_numeral (show 0 < 16 by omega) (show 16 ≤ 16 by omega)
  simp [uuidText, hsixteen, show plain '-' = true from rfl]

theorem Plain.ascii {cs : List Char} (h : Plain cs) : Ascii cs := by
  intro c hc
  have hplain := h c hc
  simp only [plain, decide_eq_true_eq] at hplain
  omega

theorem readPlain_bind {f : List Char → Reader α} {a rest : List Char}
    (h : Plain a) : (readPlain >>= f) (a ++ '"' :: rest) = f a ('"' :: rest) := by
  have htake : (a ++ '"' :: rest).takeWhile plain = a := by
    rw [List.takeWhile_append_of_pos h, List.takeWhile_cons_of_neg (by decide),
      List.append_nil]
  have hdrop : (a ++ '"' :: rest).dropWhile plain = '"' :: rest := by
    rw [List.dropWhile_append_of_pos h, List.dropWhile_cons_of_neg (by decide)]
  apply reader_bind
  rw [readPlain, htake, hdrop]

/-- `json.loads` undoes `json.dumps`. -/
theorem readDocument_document {a b : List Char} (ha : Plain a) (hb : Plain b) :
    readDocument (document a b) = some ((a, b), []) := by
  simp only [document, readDocument, List.append_assoc]
  rw [readText_bind]
  change (readPlain >>= _) (a ++ '"' :: _) = _
  rw [readPlain_bind ha]
  change (readText ['"', ',', '"'] >>= _) (['"', ',', '"'] ++ _) = _
  rw [readText_bind]
  rw [readPlain_bind hb]
  rfl

theorem document_bytes {a b : List Char} (ha : Plain a) (hb : Plain b) :
    ∀ n ∈ (document a b).map Char.toNat, n < 256 := by
  have hascii : Ascii (document a b) := by
    simp [document, ha.ascii, hb.ascii]
  intro n hn
  obtain ⟨c, hc, rfl⟩ := List.mem_map.mp hn
  have hc' := hascii c hc
  omega

/-! ### The cursor -/

/-- `decode_cursor` undoes `encode_cursor`. -/
theorem readCursor_encodeCursor (P : Platform) {t : Datetime} {id : ℕ}
    (ht : t.Valid) (hid : id < 16 ^ 32) :
    readCursor P (encodeCursor t id) = .ok (t, id) := by
  have ha := plain_isoformat t
  have hb := plain_uuidText id
  have hchars : ((document (isoformat t) (uuidText id)).map Char.toNat).map
      Char.ofNat = document (isoformat t) (uuidText id) := by
    simp [Function.comp_def]
  rw [readCursor, encodeCursor, String.toList_ofList,
    decode64_repad_unpad (document_bytes ha hb)]
  dsimp only
  have hloads : jsonLoads P ((document (isoformat t) (uuidText id)).map
      Char.toNat) = .ok (.array [.string (isoformat t),
        .string (uuidText id)]) := by
    rw [jsonLoads, hchars, readDocument_document ha hb]
  have hiso : fromisoformat P (.string (isoformat t)) = .ok t := by
    rw [fromisoformat, readTimestamp_isoformat ht]
  have huuid : uuid P (.string (uuidText id)) = .ok id := by
    rw [uuid, readUuid_uuidText hid]
  have hok : ∀ {β γ : Type} (b : β) (f : β → Except PyError γ),
      (Except.ok b >>= f) = f b := fun _ _ => rfl
  rw [hloads, hok, unpack, hok, hiso, hok, huuid, hok]
  rfl

theorem encodeCursor_ne_empty (t : Datetime) (id : ℕ) :
    encodeCursor t id ≠ "" := by
  intro hempty
  have hnil := String.ofList_eq_empty_iff.mp hempty
  refine unpad_encode64_ne_nil ?_ ?_ hnil
  · exact document_bytes (plain_isoformat t) (plain_uuidText id)
  · simp [document]

end RoundTrip

end Workstream
