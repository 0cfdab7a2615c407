import Workstream.Api.Pagination
import Workstream.Text.Letters

/-!
# Properties of cursors

A cursor that `encode_cursor` has written is decoded to the position that it
was written for.  Most of the others are rejected.
-/

namespace Workstream

open ReadCommitted Text

/-! ## Libraries for runs -/

/-- ASCII letters have their letter case to themselves. -/
theorem toLower_eq (c : Char) :
    ∀ m ∈ ['%', '_', '\\'], c.toLower = m ↔ c = m := by
  have hascii : ∀ n < 128,
      ((Char.ofNat n).toLower = '%' ↔ Char.ofNat n = '%') ∧
        ((Char.ofNat n).toLower = '_' ↔ Char.ofNat n = '_') ∧
          ((Char.ofNat n).toLower = '\\' ↔ Char.ofNat n = '\\') := by
    decide
  have hchar := Text.toLower_cases (P := fun c d => (d = '%' ↔ c = '%') ∧
    (d = '_' ↔ c = '_') ∧ (d = '\\' ↔ c = '\\')) hascii
    (fun _ _ => ⟨Iff.rfl, Iff.rfl, Iff.rfl⟩) c
  simpa using hchar

/-- Libraries for runs on given inputs: of the documents that no cursor holds
they know an array of a timestamp and a number. -/
def libraries : Platform where
  loads := fun raw =>
    if raw = "[\"2024-01-01T00:00:00+00:00\",5]".toList.map Char.toNat then
      some (.array [.string "2024-01-01T00:00:00+00:00".toList, .number])
    else none
  fromisoformat := fun _ => none
  uuid := fun _ => none
  localOffset := fun _ => 0
  lowerCase := Char.toLower
  lowerCase_eq := toLower_eq

/-! ## Round trip -/

/-- The characters that stand in an address as they are. -/
def urlSafe (c : Char) : Bool :=
  ('A' ≤ c ∧ c ≤ 'Z') ∨ ('a' ≤ c ∧ c ≤ 'z') ∨ ('0' ≤ c ∧ c ≤ '9') ∨ c = '-' ∨
    c = '_'

theorem urlSafe_letter : ∀ n < 64, urlSafe (letter n) = true := by
  decide

theorem urlSafe_encodeCursor (t : Datetime) (id : ℕ) :
    ∀ c ∈ (encodeCursor t id).toList, urlSafe c = true := by
  intro c hc
  rw [encodeCursor, String.toList_ofList] at hc
  have hbytes := document_bytes (plain_isoformat t) (plain_uuidText id)
  rw [unpad_encode64 hbytes] at hc
  obtain ⟨n, hn, rfl⟩ := List.mem_map.mp hc
  exact urlSafe_letter n (sextets_lt _ hbytes n hn)

theorem decodeCursor_encodeCursor (P : Platform) {t : Datetime} {id : ℕ}
    (ht : t.Valid) (hid : id < 16 ^ 32) :
    decodeCursor P (encodeCursor t id) = pure (t, id) := by
  rw [decodeCursor, readCursor_encodeCursor P ht hid]

/-- A position comes back from its cursor exactly as it was, and its cursor is
the cursor of no other one. -/
theorem cursor_round_trip (P : Platform) {t : Datetime} {id : ℕ} (ht : t.Valid)
    (hid : id < 16 ^ 32) :
    decodeCursor P (encodeCursor t id) = pure (t, id) ∧
      (∀ c ∈ (encodeCursor t id).toList, urlSafe c = true) ∧
      ∀ (t' : Datetime) (id' : ℕ), t'.Valid → id' < 16 ^ 32 →
        encodeCursor t' id' = encodeCursor t id → t' = t ∧ id' = id := by
  refine ⟨decodeCursor_encodeCursor P ht hid, urlSafe_encodeCursor t id, ?_⟩
  intro t' id' ht' hid' heq
  have hread := readCursor_encodeCursor P ht hid
  have hread' := readCursor_encodeCursor P ht' hid'
  rw [heq, hread] at hread'
  have hpair : (t, id) = (t', id') := Except.ok.inj hread'
  exact ⟨(congrArg Prod.fst hpair).symm, (congrArg Prod.snd hpair).symm⟩

/-- A clock some seconds and a fraction more than four hours behind. -/
def behind : Datetime where
  clock := 63839664000000001
  offset := some (-14415000007)

theorem cursor_round_trip_behind :
    decodeCursor libraries (encodeCursor behind 7) = pure (behind, 7) ∧
      ∀ c ∈ (encodeCursor behind 7).toList, urlSafe c = true := by
  have hvalid : behind.Valid := by
    constructor
    · decide +kernel
    · intro d hd
      obtain rfl := Option.some.inj hd
      decide +kernel
  have htrip := cursor_round_trip libraries hvalid (show 7 < 16 ^ 32 by norm_num)
  exact ⟨htrip.1, htrip.2.1⟩

/-! ## Malformed cursors -/

/-- The types of JSON values without the method `replace`, `None` aside. -/
def Json.irreplaceable : Json → Bool
  | .bool _ => true
  | .number => true
  | .array _ => true
  | .object _ => true
  | .null => false
  | .string _ => false

/-- The text decodes to an array of a timestamp and a value that has no method
`replace`. -/
def Crashes (P : Platform) (value : String) : Prop :=
  ∃ raw s b t, decode64 (repad value.toList) = some raw ∧
    jsonLoads P raw = .ok (.array [.string s, b]) ∧
    fromisoformat P (.string s) = .ok t ∧ b.irreplaceable = true

section Malformed

variable {P : Platform} {value : String}

theorem uuid_attributeError_iff {b : Json} :
    uuid P b = .error .attributeError ↔ b.irreplaceable = true := by
  cases b with
  | string s =>
      simp only [uuid, Json.irreplaceable, Bool.false_eq_true, iff_false]
      repeat' split
      · simp
      · simp
      · simp
  | _ => simp [uuid, Json.irreplaceable]

theorem jsonLoads_ne (raw : List ℕ) :
    jsonLoads P raw ≠ .error .attributeError := by
  unfold jsonLoads
  repeat' split
  · simp
  · simp
  · simp

theorem unpack_ne (v : Json) : unpack v ≠ .error .attributeError := by
  unfold unpack
  split <;> simp

theorem fromisoformat_ne (v : Json) :
    fromisoformat P v ≠ .error .attributeError := by
  unfold fromisoformat
  repeat' split
  · simp
  · simp
  · simp
  · simp

/-- Only an array has a second item that is no text. -/
theorem unpack_irreplaceable {v a b : Json} (h : unpack v = .ok (a, b))
    (hb : b.irreplaceable = true) : v = .array [a, b] := by
  unfold unpack at h
  split at h
  · cases h
    rfl
  · cases h
  · cases h
    cases hb
  · cases h
  · cases h
    cases hb
  all_goals cases h

theorem bind_eq_error {α β : Type} {x : Except PyError α}
    {f : α → Except PyError β} {e : PyError} :
    (x >>= f) = .error e ↔ x = .error e ∨ ∃ a, x = .ok a ∧ f a = .error e := by
  cases x with
  | error e' =>
      have herror : (Except.error e' >>= f) = .error e' := rfl
      simp [herror]
  | ok a =>
      have hok : (Except.ok a >>= f) = f a := rfl
      simp [hok]

/-- The handler misses one exception of one kind of text. -/
theorem readCursor_attributeError_iff :
    readCursor P value = .error .attributeError ↔ Crashes P value := by
  unfold readCursor Crashes
  cases hraw : decode64 (repad value.toList) with
  | none => simp
  | some raw =>
      dsimp only
      simp only [bind_eq_error, jsonLoads_ne, unpack_ne, fromisoformat_ne,
        uuid_attributeError_iff, false_or]
      constructor
      · rintro ⟨v, hv, ⟨a, b⟩, hab, t, ht, hb | ⟨id, _, h⟩⟩
        · have hstring : ∃ s, a = .string s := by
            cases a with
            | string s => exact ⟨s, rfl⟩
            | _ => cases ht
          obtain ⟨s, rfl⟩ := hstring
          rw [unpack_irreplaceable hab hb] at hv
          exact ⟨raw, s, b, t, rfl, hv, ht, hb⟩
        · cases h
      · rintro ⟨raw', s, b, t, hraw', hv, ht, hb⟩
        obtain rfl := Option.some.inj hraw'
        exact ⟨_, hv, (.string s, b), rfl, t, ht, Or.inl hb⟩

/-- `decode_cursor` answers every text but these. -/
theorem decodeCursor_clean_iff (P : Platform) (value : String) :
    ((∃ position, decodeCursor P value = pure position) ∨
      decodeCursor P value = .raise invalidCursor) ↔ ¬ Crashes P value := by
  rw [← readCursor_attributeError_iff, decodeCursor]
  cases readCursor P value with
  | ok position => simp
  | error e =>
      cases e with
      | valueError => simp
      | typeError => simp
      | attributeError =>
          simp only [not_true_eq_false, iff_false, not_or]
          refine ⟨?_, ?_⟩
          · rintro ⟨position, h⟩
            cases h
          · intro h
            cases h

end Malformed

/-- A number in the place of the identifier is not answered. -/
theorem decodeCursor_not_clean :
    ¬ ((∃ position, decodeCursor libraries
        "WyIyMDI0LTAxLTAxVDAwOjAwOjAwKzAwOjAwIiw1XQ" = pure position) ∨
      decodeCursor libraries "WyIyMDI0LTAxLTAxVDAwOjAwOjAwKzAwOjAwIiw1XQ" =
        .raise invalidCursor) := by
  have hread : readCursor libraries
      "WyIyMDI0LTAxLTAxVDAwOjAwOjAwKzAwOjAwIiw1XQ" =
        .error .attributeError := by
    decide +kernel
  rw [decodeCursor, hread]
  rintro (⟨position, h⟩ | h)
  · cases h
  · cases h

end Workstream
