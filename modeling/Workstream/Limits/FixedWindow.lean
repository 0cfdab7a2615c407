import Mathlib.Algebra.Order.Monoid.Unbundled.Basic
import Mathlib.Data.List.Basic
import Mathlib.Data.List.Induction
import Mathlib.Order.Basic

/-!
# Counting in fixed windows

The first hit opens a window of a fixed length, the hits before its end are
numbered in it, and the first one after that opens the next.  A limit on the
numbers is a limit on every interval of that length, up to a factor of two.
-/

namespace FixedWindow

/-- A window and the number of the last hit in it. -/
structure Window (τ : Type) where
  opened : τ
  hits : ℕ

section Counting

variable {τ : Type} [Add τ] [LinearOrder τ] (d : τ)

def Window.closes (w : Window τ) : τ := w.opened + d

/-- The window that a hit is counted in, with the number of this hit. -/
def next (w : Option (Window τ)) (t : τ) : Window τ :=
  match w with
  | some w =>
      if t < w.closes d then { w with hits := w.hits + 1 }
      else { opened := t, hits := 1 }
  | none => { opened := t, hits := 1 }

/-- Every hit with the window that it is counted in. -/
def counted (w : Option (Window τ)) : List τ → List (τ × Window τ)
  | [] => []
  | t :: ts => (t, next d w t) :: counted (some (next d w t)) ts

/-- The window that is left by the hits. -/
def after (w : Option (Window τ)) (ts : List τ) : Option (Window τ) :=
  ts.foldl (fun w t => some (next d w t)) w

/-- A hit at `t` opens a window of its own. -/
def Opens (w : Option (Window τ)) (t : τ) : Prop :=
  ∀ v ∈ w, v.closes d ≤ t

variable {d} {w : Option (Window τ)} {v : Window τ} {t : τ} {ts : List τ}

theorem next_of_opens (h : Opens d w t) :
    next d w t = { opened := t, hits := 1 } := by
  cases w with
  | none => rfl
  | some v => exact if_neg (not_lt.mpr (h v rfl))

theorem next_of_lt (h : t < v.closes d) :
    next d (some v) t = { v with hits := v.hits + 1 } :=
  if_pos h

theorem not_opens_iff : ¬Opens d (some v) t ↔ t < v.closes d := by
  constructor
  · intro hopens
    refine not_le.mp fun hle => hopens fun u hu => ?_
    obtain rfl := Option.some.inj hu
    exact hle
  · exact fun hlt hopens => not_le.mpr hlt (hopens v rfl)

theorem opens_none : Opens d none t :=
  fun v hv => absurd hv (Option.not_mem_none v)

theorem one_le_next_hits (t : τ) : 1 ≤ (next d w t).hits := by
  by_cases hopens : Opens d w t
  · rw [next_of_opens hopens]
  · match w with
    | none => exact absurd opens_none hopens
    | some v =>
        rw [next_of_lt (not_opens_iff.mp hopens)]
        exact Nat.le_add_left 1 v.hits

theorem after_cons : after d w (t :: ts) =
    after d (some (next d w t)) ts := rfl

theorem after_append (xs ys : List τ) :
    after d w (xs ++ ys) = after d (after d w xs) ys :=
  List.foldl_append

theorem counted_fst : (counted d w ts).map Prod.fst = ts := by
  induction ts generalizing w with
  | nil => rfl
  | cons t ts ih => simp only [counted, List.map_cons, ih]

/-! ## One window -/

/-- As long as it has not closed, the window keeps its opening. -/
theorem after_within (h : ∀ t ∈ ts, t < v.closes d) :
    after d (some v) ts = some { v with hits := v.hits + ts.length } := by
  induction ts generalizing v with
  | nil => rfl
  | cons t ts ih =>
      have hts : ∀ u ∈ ts, u < v.closes d :=
        fun u hu => h u (List.mem_cons_of_mem t hu)
      have hrest := ih (v := { v with hits := v.hits + 1 }) hts
      have hadd : v.hits + (ts.length + 1) = v.hits + 1 + ts.length := by
        omega
      rw [after_cons, next_of_lt (h t List.mem_cons_self), hrest,
        List.length_cons, hadd]

/-- The hits before the end of the window are numbered one after the other. -/
theorem numbers_within (h : ts.Pairwise (· ≤ ·)) :
    ((counted d (some v) ts).filter fun e => e.1 < v.closes d).map
        (fun e => e.2.hits) =
      List.range' (v.hits + 1) (ts.filter (· < v.closes d)).length := by
  induction ts generalizing v with
  | nil => rfl
  | cons t ts ih =>
      obtain ⟨ht, hts⟩ := List.pairwise_cons.mp h
      by_cases hlive : t < v.closes d
      · have hrest := ih (v := { v with hits := v.hits + 1 }) hts
        simp only [counted, next_of_lt hlive, List.filter_cons, hlive,
          decide_true, if_true, List.map_cons, List.length_cons,
          List.range'_succ]
        exact congrArg _ hrest
      · have hlate : ∀ u ∈ t :: ts, ¬u < v.closes d := by
          intro u hu hlt
          rcases List.mem_cons.mp hu with rfl | hu
          · exact hlive hlt
          · exact hlive (lt_of_le_of_lt (ht u hu) hlt)
        have hnone : (t :: ts).filter (· < v.closes d) = [] :=
          List.filter_eq_nil_iff.mpr fun u hu => by simpa using hlate u hu
        rw [hnone, List.map_eq_nil_iff.mpr]
        · rfl
        · refine List.filter_eq_nil_iff.mpr fun e he => ?_
          have hmem := List.mem_map_of_mem (f := Prod.fst) he
          rw [counted_fst] at hmem
          simpa using hlate e.1 hmem

/-- Of consecutive numbers the first ones are within the limit. -/
theorem within_limit (limit n : ℕ) :
    (List.range' 1 n).map (fun m => decide (m ≤ limit)) =
      List.replicate (min limit n) true ++
        List.replicate (n - limit) false := by
  induction n with
  | zero => simp
  | succ n ih =>
      rw [List.range'_concat, List.map_append, ih]
      by_cases h : n + 1 ≤ limit
      · have hmin : min limit (n + 1) = min limit n + 1 := by omega
        have hsub : n + 1 - limit = 0 := by omega
        have hsub' : n - limit = 0 := by omega
        have hle : 1 + n ≤ limit := by omega
        simp only [hmin, hsub, hsub', List.replicate_zero, List.append_nil,
          List.replicate_succ', List.map_cons, List.map_nil, Nat.one_mul, hle,
          decide_true]
      · have hmin : min limit (n + 1) = min limit n := by omega
        have hsub : n + 1 - limit = (n - limit) + 1 := by omega
        have hlt : limit < 1 + n := by omega
        simp [hmin, hsub, List.replicate_succ', hlt]

/-- The numbers in a window begin with one. -/
theorem numbers_of_opens (hopens : Opens d w t) (hd : t < t + d)
    (h : (t :: ts).Pairwise (· ≤ ·)) :
    ((counted d w (t :: ts)).filter fun e => e.1 < t + d).map
        (fun e => e.2.hits) =
      List.range' 1 ((t :: ts).filter (· < t + d)).length := by
  have hrest := numbers_within (d := d)
    (v := { opened := t, hits := 1 }) (List.pairwise_cons.mp h).2
  simp only [counted, next_of_opens hopens, List.filter_cons, hd,
    decide_true, if_true, List.map_cons, List.length_cons, List.range'_succ]
  exact congrArg _ hrest

/-- From the hit that opens a window to its end the first `limit` hits are
within the limit, and the others are not. -/
theorem allowed_of_opens (limit : ℕ) (hopens : Opens d w t) (hd : t < t + d)
    (h : (t :: ts).Pairwise (· ≤ ·)) :
    ((counted d w (t :: ts)).filter fun e => e.1 < t + d).map
        (fun e => decide (e.2.hits ≤ limit)) =
      List.replicate (min limit ((t :: ts).filter (· < t + d)).length) true ++
        List.replicate (((t :: ts).filter (· < t + d)).length - limit)
          false := by
  have hnumbers := congrArg (List.map fun m => decide (m ≤ limit))
    (numbers_of_opens hopens hd h)
  rw [List.map_map, within_limit] at hnumbers
  exact hnumbers

/-! ## Any interval -/

/-- A hit between `a` and `b` that is within the limit. -/
def Allowed (limit : ℕ) (a b : τ) (e : τ × Window τ) : Prop :=
  a ≤ e.1 ∧ e.1 < b ∧ e.2.hits ≤ limit

instance (limit : ℕ) (a b : τ) : DecidablePred (Allowed limit a b) :=
  fun _ => inferInstanceAs (Decidable (_ ∧ _ ∧ _))

theorem fst_mem_of_mem_counted {e : τ × Window τ}
    (h : e ∈ counted d w ts) : e.1 ∈ ts := by
  have hmem := List.mem_map_of_mem (f := Prod.fst) h
  rwa [counted_fst] at hmem

theorem countP_counted_eq_zero {limit : ℕ} {a b : τ}
    (h : ∀ t ∈ ts, b ≤ t) :
    (counted d w ts).countP (Allowed limit a b) = 0 := by
  refine List.countP_eq_zero.mpr fun e he => ?_
  have hlate := h e.1 (fst_mem_of_mem_counted he)
  intro hallowed
  exact not_lt.mpr hlate (of_decide_eq_true hallowed).2.1

/-- An interval that ends with the window has room for the numbers that are
left in it. -/
theorem countP_le_of_closes {a b : τ} (h : ts.Pairwise (· ≤ ·))
    (hb : b ≤ v.closes d) (limit : ℕ) :
    (counted d (some v) ts).countP (Allowed limit a b) ≤ limit - v.hits := by
  induction ts generalizing v with
  | nil => exact Nat.zero_le _
  | cons t ts ih =>
      obtain ⟨ht, hts⟩ := List.pairwise_cons.mp h
      by_cases hlive : t < b
      · have hrest := ih (v := { v with hits := v.hits + 1 }) hts hb
        simp only [counted, next_of_lt (lt_of_lt_of_le hlive hb),
          List.countP_cons]
        split
        · rename_i hallowed
          have hle : v.hits + 1 ≤ limit := (of_decide_eq_true hallowed).2.2
          simp only at hrest
          omega
        · simp only at hrest
          omega
      · have hzero : (counted d (some v) (t :: ts)).countP
            (Allowed limit a b) = 0 := by
          refine countP_counted_eq_zero fun u hu => ?_
          rcases List.mem_cons.mp hu with rfl | hu
          · exact not_lt.mp hlive
          · exact (not_lt.mp hlive).trans (ht u hu)
        omega

section Interval

variable [AddRightMono τ] {limit : ℕ} {a : τ}

/-- A window that is opened in an interval of its length closes after it. -/
theorem countP_le_of_opens (hopens : Opens d w t) (hlimit : 1 ≤ limit)
    (ha : a ≤ t) (h : (t :: ts).Pairwise (· ≤ ·)) :
    (counted d w (t :: ts)).countP (Allowed limit a (a + d)) ≤ limit := by
  have hb : a + d ≤ Window.closes d { opened := t, hits := 1 } :=
    add_le_add_left ha d
  have hrest := countP_le_of_closes (a := a) (List.pairwise_cons.mp h).2
    hb limit
  simp only [counted, next_of_opens hopens, List.countP_cons]
  simp only at hrest
  split <;> omega

/-- The window that is open at the beginning of an interval, and the one that
follows it. -/
theorem countP_le_of_open (hlimit : 1 ≤ limit) (ha : ∀ t ∈ ts, a ≤ t)
    (h : ts.Pairwise (· ≤ ·)) :
    (counted d (some v) ts).countP (Allowed limit a (a + d)) ≤
      (limit - v.hits) + limit := by
  induction ts generalizing v with
  | nil => exact Nat.zero_le _
  | cons t ts ih =>
      by_cases hlive : t < v.closes d
      · have hrest := ih (v := { v with hits := v.hits + 1 })
          (fun u hu => ha u (List.mem_cons_of_mem t hu))
          (List.pairwise_cons.mp h).2
        simp only [counted, next_of_lt hlive, List.countP_cons]
        split
        · rename_i hallowed
          have hle : v.hits + 1 ≤ limit := (of_decide_eq_true hallowed).2.2
          simp only at hrest
          omega
        · simp only at hrest
          omega
      · have hopens : Opens d (some v) t := by
          rintro u hu
          obtain rfl := Option.some.inj hu
          exact not_lt.mp hlive
        have hle := countP_le_of_opens hopens hlimit
          (ha t List.mem_cons_self) h
        omega

/-- An interval of the length of a window meets at most two windows. -/
theorem countP_le (hlimit : 1 ≤ limit) (h : ts.Pairwise (· ≤ ·)) :
    (counted d w ts).countP (Allowed limit a (a + d)) ≤ 2 * limit := by
  induction ts generalizing w with
  | nil => exact Nat.zero_le _
  | cons t ts ih =>
      obtain ⟨ht, hts⟩ := List.pairwise_cons.mp h
      by_cases ha : a ≤ t
      · by_cases hopens : Opens d w t
        · have hle := countP_le_of_opens hopens hlimit ha h
          omega
        · cases w with
          | none => exact absurd opens_none hopens
          | some v =>
              have hle := countP_le_of_open (d := d) (v := v) (a := a) hlimit
                (fun u hu => by
                  rcases List.mem_cons.mp hu with rfl | hu
                  · exact ha
                  · exact ha.trans (ht u hu)) h
              omega
      · have hrest := ih (w := some (next d w t)) hts
        simp only [counted, List.countP_cons]
        split
        · rename_i hallowed
          exact absurd (of_decide_eq_true hallowed).1 ha
        · exact hrest

end Interval

/-! ## The window that is left -/

/-- The open window was opened by a hit at which no window was open, and all
later hits fell into it. -/
theorem after_eq_some (h : after d none ts = some v) :
    ∃ xs ys, ts = xs ++ v.opened :: ys ∧ Opens d (after d none xs) v.opened ∧
      (∀ t ∈ ys, t < v.closes d) ∧ v.hits = ys.length + 1 := by
  induction ts using List.reverseRecOn generalizing v with
  | nil => cases h
  | append_singleton ts t ih =>
      rw [after_append] at h
      obtain rfl := Option.some.inj h
      by_cases hopens : Opens d (after d none ts) t
      · rw [next_of_opens hopens]
        exact ⟨ts, [], rfl, hopens, fun u hu => absurd hu List.not_mem_nil,
          rfl⟩
      · match hw : after d none ts with
        | none =>
            rw [hw] at hopens
            exact absurd opens_none hopens
        | some u =>
            rw [hw] at hopens
            have hlive : t < u.closes d := not_opens_iff.mp hopens
            obtain ⟨xs, ys, rfl, hxs, hys, hhits⟩ := ih hw
            rw [next_of_lt hlive]
            refine ⟨xs, ys ++ [t], ?_, hxs, ?_, ?_⟩
            · simp only [List.append_assoc, List.cons_append]
            · intro s hs
              rcases List.mem_append.mp hs with hs | hs
              · exact hys s hs
              · obtain rfl := List.mem_singleton.mp hs
                exact hlive
            · simp only [hhits, List.length_append, List.length_singleton]

end Counting

end FixedWindow
