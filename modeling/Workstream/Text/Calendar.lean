import Mathlib.Data.Nat.Basic
import Mathlib.Tactic.IntervalCases

/-!
# The calendar

Days of the proleptic Gregorian calendar, counted from the first of January of
the year one, which is day one.
-/

namespace Text

structure Day where
  year : ℕ
  month : ℕ
  day : ℕ
  deriving DecidableEq

/-- `_is_leap`. -/
def leap (year : ℕ) : Bool :=
  year % 4 = 0 ∧ (year % 100 ≠ 0 ∨ year % 400 = 0)

/-- `_DAYS_IN_MONTH`, and the twenty-ninth of February. -/
def daysInMonth (leapyear : Bool) (month : ℕ) : ℕ :=
  [0, 31, 28, 31, 30, 31, 30, 31, 31, 30, 31, 30, 31].getD month 0 +
    if month = 2 ∧ leapyear then 1 else 0

/-- `_DAYS_BEFORE_MONTH`, and the twenty-ninth of February. -/
def daysBeforeMonth (leapyear : Bool) (month : ℕ) : ℕ :=
  [0, 0, 31, 59, 90, 120, 151, 181, 212, 243, 273, 304, 334].getD month 0 +
    if 2 < month ∧ leapyear then 1 else 0

/-- `_days_before_year`. -/
def daysBeforeYear (year : ℕ) : ℕ :=
  (year - 1) * 365 + (year - 1) / 4 - (year - 1) / 100 + (year - 1) / 400

/-- `_ymd2ord`. -/
def Day.ordinal (d : Day) : ℕ :=
  daysBeforeYear d.year + daysBeforeMonth (leap d.year) d.month + d.day

/-- The month and the day of a day of the year, counted from zero.  The
estimate of the month is right or one too high. -/
def monthDay (leapyear : Bool) (n : ℕ) : ℕ × ℕ :=
  let month := (n + 50) / 32
  let preceding := daysBeforeMonth leapyear month
  if n < preceding then
    (month - 1, n - (preceding - daysInMonth leapyear (month - 1)) + 1)
  else (month, n - preceding + 1)

/-- `_ord2ymd`. -/
def ofOrdinal (ordinal : ℕ) : Day :=
  let n := ordinal - 1
  let n400 := n / 146097
  let n := n % 146097
  let n100 := n / 36524
  let n := n % 36524
  let n4 := n / 1461
  let n := n % 1461
  let n1 := n / 365
  let n := n % 365
  let year := n400 * 400 + 1 + n100 * 100 + n4 * 4 + n1
  if n1 = 4 ∨ n100 = 4 then { year := year - 1, month := 12, day := 31 }
  else
    let md := monthDay (n1 = 3 ∧ (n4 ≠ 24 ∨ n100 = 3)) n
    { year, month := md.1, day := md.2 }

/-- What `_check_date_fields` asks of a date. -/
structure Day.Valid (d : Day) : Prop where
  year_pos : 1 ≤ d.year
  year_le : d.year ≤ 9999
  month_pos : 1 ≤ d.month
  month_le : d.month ≤ 12
  day_pos : 1 ≤ d.day
  day_le : d.day ≤ daysInMonth (leap d.year) d.month

instance (d : Day) : Decidable d.Valid :=
  decidable_of_iff (1 ≤ d.year ∧ d.year ≤ 9999 ∧ 1 ≤ d.month ∧ d.month ≤ 12 ∧
      1 ≤ d.day ∧ d.day ≤ daysInMonth (leap d.year) d.month)
    ⟨fun ⟨a, b, c, d, e, f⟩ => ⟨a, b, c, d, e, f⟩,
      fun ⟨a, b, c, d, e, f⟩ => ⟨a, b, c, d, e, f⟩⟩

theorem daysInMonth_le (leapyear : Bool) : ∀ month < 13,
    daysInMonth leapyear month ≤ 31 := by
  cases leapyear <;> decide

theorem Day.Valid.day_le_31 {d : Day} (h : d.Valid) : d.day ≤ 31 := by
  have hmonth := h.month_le
  exact h.day_le.trans (daysInMonth_le _ _ (by omega))

/-- The last day, the thirty-first of December 9999. -/
def maxOrdinal : ℕ := 3652059

/-! ## Inverse -/

theorem monthDay_spec (leapyear : Bool) : ∀ n < 365 + leapyear.toNat,
    1 ≤ (monthDay leapyear n).1 ∧ (monthDay leapyear n).1 ≤ 12 ∧
      1 ≤ (monthDay leapyear n).2 ∧
      (monthDay leapyear n).2 ≤ daysInMonth leapyear (monthDay leapyear n).1 ∧
      daysBeforeMonth leapyear (monthDay leapyear n).1 +
        (monthDay leapyear n).2 = n + 1 := by
  cases leapyear <;> decide +kernel

/-- The year and the day of the year of an ordinal number: of the four years
of a cycle the last one is a leap year, but of the twenty-five cycles of a
century only every fourth time. -/
theorem year_spec (n400 : ℕ) {n100 n4 n1 : ℕ} (h100 : n100 < 4) (h4 : n4 < 25)
    (h1 : n1 < 4) :
    leap (n400 * 400 + 1 + n100 * 100 + n4 * 4 + n1) =
        decide (n1 = 3 ∧ (n4 ≠ 24 ∨ n100 = 3)) ∧
      daysBeforeYear (n400 * 400 + 1 + n100 * 100 + n4 * 4 + n1) =
        n400 * 146097 + n100 * 36524 + n4 * 1461 + n1 * 365 := by
  constructor
  · rw [leap]
    congr 1
    apply propext
    omega
  · rw [daysBeforeYear]
    omega

/-- The last day of a leap year that ends a cycle. -/
theorem last_spec (n400 : ℕ) {n100 n4 : ℕ} (h100 : n100 < 4) (h4 : n4 < 25)
    (hleap : n4 ≠ 24 ∨ n100 = 3) {year : ℕ}
    (hyear : year = n400 * 400 + 1 + n100 * 100 + n4 * 4 + 3)
    (hmax : year ≤ 9999) :
    (Day.mk year 12 31).Valid ∧ (Day.mk year 12 31).ordinal =
      n400 * 146097 + n100 * 36524 + n4 * 1461 + 3 * 365 + 366 := by
  obtain ⟨hyes, hdays⟩ := year_spec n400 h100 h4
    (show 3 < 4 by omega)
  rw [← hyear] at hyes hdays
  have hyes' : leap year = true := by
    rw [hyes]
    simpa using hleap
  refine ⟨⟨?_, hmax, by simp, by simp, by simp, ?_⟩, ?_⟩
  · dsimp only
    omega
  · simp [daysInMonth]
  · simp [Day.ordinal, daysBeforeMonth, hyes', hdays]

theorem ofOrdinal_spec {n : ℕ} (hpos : 1 ≤ n) (hle : n ≤ maxOrdinal) :
    (ofOrdinal n).Valid ∧ (ofOrdinal n).ordinal = n := by
  unfold maxOrdinal at hle
  unfold ofOrdinal
  dsimp only
  have h0 := Nat.div_add_mod (n - 1) 146097
  have hr := Nat.mod_lt (n - 1) (show 146097 > 0 by omega)
  generalize (n - 1) / 146097 = n400 at *
  generalize (n - 1) % 146097 = r at *
  have h1 := Nat.div_add_mod r 36524
  have hs := Nat.mod_lt r (show 36524 > 0 by omega)
  generalize r / 36524 = n100 at *
  generalize r % 36524 = s at *
  have h2 := Nat.div_add_mod s 1461
  have ht := Nat.mod_lt s (show 1461 > 0 by omega)
  generalize s / 1461 = n4 at *
  generalize s % 1461 = t at *
  have h3 := Nat.div_add_mod t 365
  have hd := Nat.mod_lt t (show 365 > 0 by omega)
  generalize t / 365 = n1 at *
  generalize t % 365 = d at *
  split
  · next hlast =>
      rcases hlast with rfl | rfl
      · have hvalues : n100 < 4 ∧ n4 < 24 ∧ d = 0 := by omega
        obtain ⟨hvalid, hordinal⟩ := last_spec n400 hvalues.1
          (show n4 < 25 by omega) (Or.inl (by omega))
          (show n400 * 400 + 1 + n100 * 100 + n4 * 4 + 4 - 1 = _ by omega)
          (by omega)
        refine ⟨hvalid, ?_⟩
        rw [hordinal]
        omega
      · have hvalues : n4 = 0 ∧ n1 = 0 ∧ d = 0 := by omega
        obtain ⟨rfl, rfl, rfl⟩ := hvalues
        obtain ⟨hvalid, hordinal⟩ := last_spec n400
          (show 3 < 4 by omega) (show 24 < 25 by omega) (Or.inr rfl)
          (show n400 * 400 + 1 + 4 * 100 + 0 * 4 + 0 - 1 = _ by omega)
          (by omega)
        refine ⟨hvalid, ?_⟩
        rw [hordinal]
        omega
  · next hlast =>
      have hn100 : n100 < 4 := by omega
      have hn4 : n4 < 25 := by omega
      have hn1 : n1 < 4 := by omega
      obtain ⟨hleap, hyear⟩ := year_spec n400 hn100 hn4 hn1
      obtain ⟨hmonth, hmonth', hday, hday', hsum⟩ := monthDay_spec
        (decide (n1 = 3 ∧ (n4 ≠ 24 ∨ n100 = 3))) d (by omega)
      constructor
      · constructor
        · dsimp only
          omega
        · dsimp only
          omega
        · exact hmonth
        · exact hmonth'
        · exact hday
        · dsimp only
          rw [hleap]
          exact hday'
      · rw [Day.ordinal]
        dsimp only
        rw [hleap, hyear]
        omega

end Text
