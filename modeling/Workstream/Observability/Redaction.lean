import Workstream.Text.Substitution

/-!
# Redaction of the log

The processor of log events hides what stands behind the words for secrets.  A
run of characters behind such a word is hidden to its end, and the search goes
on behind it.
-/

namespace Workstream.Observability

open Text

/-- The blanks of the patterns: the space characters of Unicode. -/
def spaces : List Char :=
  [9, 10, 11, 12, 13, 28, 29, 30, 31, 32, 133, 160, 5760, 8192, 8193, 8194,
    8195, 8196, 8197, 8198, 8199, 8200, 8201, 8202, 8232, 8233, 8239, 8287,
    12288].map Char.ofNat

def isSpace (c : Char) : Bool :=
  spaces.contains c

/-- Letters without their case.  Four letters beyond the ASCII ones are told
apart from `i`, `k` and `s` by their case only. -/
def caseless (c : Char) : Char :=
  if c.toNat = 0x130 ∨ c.toNat = 0x131 then 'i'
  else if c.toNat = 0x17F then 's'
  else if c.toNat = 0x212A then 'k'
  else c.toLower

def password : List Char := "password".toList

def token : List Char := "token".toList

def authorization : List Char := "authorization".toList

def cookie : List Char := "cookie".toList

def isMark (c : Char) : Bool :=
  c = '=' || c = ':'

/-- The characters of a run that is hidden. -/
def isPlain (c : Char) : Bool :=
  !(isSpace c || c = ',' || c = ';' || c = '&')

/-- The words for secrets, in any letter case. -/
def secretWord : Pattern Char :=
  .either (.word caseless password) (.either (.word caseless token)
    (.either (.word caseless authorization) (.word caseless cookie)))

/-- The word and the separator, which stay. -/
def secretFront : Pattern Char :=
  .both secretWord
    (.both (.many isSpace) (.both (.one isMark) (.many isSpace)))

def keywords : List (List Char) :=
  [password, token, authorization, cookie]

theorem accepts_secretWord {text : List Char} :
    secretWord.Accepts text ↔ text.map caseless ∈ keywords := by
  simp [secretWord, Pattern.Accepts, Pattern.accepts_word, keywords]

theorem accepts_secretFront {text : List Char} :
    secretFront.Accepts text ↔
      ∃ keyword gap mark blanks,
        text = keyword ++ (gap ++ mark :: blanks) ∧
          keyword.map caseless ∈ keywords ∧
          (∀ c ∈ gap, isSpace c = true) ∧ isMark mark = true ∧
          ∀ c ∈ blanks, isSpace c = true := by
  simp only [secretFront, Pattern.Accepts, accepts_secretWord]
  constructor
  · rintro ⟨keyword, _, rfl, hkeyword, gap, _, rfl, hgap, _, blanks, rfl,
      ⟨mark, rfl, hmark⟩, hblanks⟩
    exact ⟨keyword, gap, mark, blanks, rfl, hkeyword, hgap, hmark, hblanks⟩
  · rintro ⟨keyword, gap, mark, blanks, rfl, hkeyword, hgap, hmark, hblanks⟩
    exact ⟨keyword, _, rfl, hkeyword, gap, _, rfl, hgap, [mark], blanks, rfl,
      ⟨mark, rfl, hmark⟩, hblanks⟩

theorem not_accepts_secretFront_nil : ¬secretFront.Accepts [] := by
  rw [accepts_secretFront]
  rintro ⟨keyword, gap, mark, blanks, h, -⟩
  simp at h

def secretPattern : Finder Char :=
  .ofPattern secretFront (.atLeastOne isPlain) not_accepts_secretFront_nil

def redacted : List Char := "[REDACTED]".toList

/-- The copied and replaced parts of a text. -/
def parts (text : String) : List (Segment Char) :=
  secretPattern.segments text.toList

/-- The substitution in a text. -/
def sub (text : String) : String :=
  String.ofList (render redacted (parts text))

/-! ## Nested values -/

inductive Value (κ ν : Type) where
  | str (text : String)
  | dict (entries : List (κ × Value κ ν))
  | list (items : List (Value κ ν))
  | tuple (items : List (Value κ ν))
  | other (value : ν)

variable {κ ν : Type}

mutual

/-- `redact`, with what it does to a text as a parameter. -/
def redactWith (f : String → String) : Value κ ν → Value κ ν
  | .str text => .str (f text)
  | .dict entries => .dict (redactEntries f entries)
  | .list items => .list (redactItems f items)
  | .tuple items => .tuple (redactItems f items)
  | .other value => .other value

def redactEntries (f : String → String) :
    List (κ × Value κ ν) → List (κ × Value κ ν)
  | [] => []
  | (key, item) :: entries =>
      (key, redactWith f item) :: redactEntries f entries

def redactItems (f : String → String) : List (Value κ ν) → List (Value κ ν)
  | [] => []
  | item :: items => redactWith f item :: redactItems f items

end

/-- The processor of log events. -/
def redactSecrets (event : List (κ × Value κ ν)) : List (κ × Value κ ν) :=
  redactEntries sub event

mutual

/-- The texts of a value, in order. -/
def texts : Value κ ν → List String
  | .str text => [text]
  | .dict entries => textsOfEntries entries
  | .list items => textsOfItems items
  | .tuple items => textsOfItems items
  | .other _ => []

def textsOfEntries : List (κ × Value κ ν) → List String
  | [] => []
  | (_, item) :: entries => texts item ++ textsOfEntries entries

def textsOfItems : List (Value κ ν) → List String
  | [] => []
  | item :: items => texts item ++ textsOfItems items

end

/-- The event with every text blotted out: its keys, its containers and its
other values. -/
def outline (event : List (κ × Value κ ν)) : List (κ × Value κ ν) :=
  redactEntries (fun _ => "") event

section Nested

variable (f g : String → String)

mutual

theorem redactWith_redactWith : ∀ value : Value κ ν,
    redactWith f (redactWith g value) = redactWith (f ∘ g) value
  | .str _ => rfl
  | .dict entries => by
      simp only [redactWith, redactEntries_redactEntries entries]
  | .list items => by simp only [redactWith, redactItems_redactItems items]
  | .tuple items => by simp only [redactWith, redactItems_redactItems items]
  | .other _ => rfl

theorem redactEntries_redactEntries : ∀ entries : List (κ × Value κ ν),
    redactEntries f (redactEntries g entries) = redactEntries (f ∘ g) entries
  | [] => rfl
  | (key, item) :: entries => by
      simp only [redactEntries, redactWith_redactWith item,
        redactEntries_redactEntries entries]

theorem redactItems_redactItems : ∀ items : List (Value κ ν),
    redactItems f (redactItems g items) = redactItems (f ∘ g) items
  | [] => rfl
  | item :: items => by
      simp only [redactItems, redactWith_redactWith item,
        redactItems_redactItems items]

end

mutual

theorem texts_redactWith : ∀ value : Value κ ν,
    texts (redactWith f value) = (texts value).map f
  | .str _ => rfl
  | .dict entries => texts_redactEntries entries
  | .list items => texts_redactItems items
  | .tuple items => texts_redactItems items
  | .other _ => rfl

theorem texts_redactEntries : ∀ entries : List (κ × Value κ ν),
    textsOfEntries (redactEntries f entries) = (textsOfEntries entries).map f
  | [] => rfl
  | (key, item) :: entries => by
      simp only [redactEntries, textsOfEntries, texts_redactWith item,
        texts_redactEntries entries, List.map_append]

theorem texts_redactItems : ∀ items : List (Value κ ν),
    textsOfItems (redactItems f items) = (textsOfItems items).map f
  | [] => rfl
  | item :: items => by
      simp only [redactItems, textsOfItems, texts_redactWith item,
        texts_redactItems items, List.map_append]

end

end Nested

/-- The keys, the containers and the other values are left as they are. -/
theorem outline_redactSecrets (event : List (κ × Value κ ν)) :
    outline (redactSecrets event) = outline event :=
  redactEntries_redactEntries _ _ event

theorem texts_redactSecrets (event : List (κ × Value κ ν)) :
    textsOfEntries (redactSecrets event) = (textsOfEntries event).map sub :=
  texts_redactEntries sub event

end Workstream.Observability
