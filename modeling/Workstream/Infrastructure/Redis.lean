import Mathlib.Algebra.Order.Group.Nat
import Mathlib.Tactic.Common
import Workstream.Limits.FixedWindow

/-!
# The rate limiter

The commands of the script as Redis performs them, and `RateLimiter.hit` over
them.  Along every sequence of hits the counter of a key is the window that
its hits are counted in.
-/

namespace Workstream.Redis

/-- The clock of the server, in milliseconds. -/
abbrev Millis : Type := ℕ

/-- A counter, with the deadline that `EXPIRE` has given it. -/
structure Counter where
  value : ℕ
  deadline : Option Millis
  deriving DecidableEq

abbrev Keyspace : Type := String → Option Counter

/-- What a command finds under a key.  A key vanishes at its deadline. -/
def Keyspace.find (db : Keyspace) (time : Millis) (key : String) :
    Option Counter :=
  (db key).filter fun c => c.deadline.all (time < ·)

def Keyspace.set (db : Keyspace) (key : String) (c : Counter) : Keyspace :=
  fun k => if k = key then some c else db k

/-! ## Commands -/

/-- `INCR` creates a key without a deadline, and keeps the one there is. -/
def incr (db : Keyspace) (time : Millis) (key : String) : ℕ × Keyspace :=
  let c := (db.find time key).getD { value := 0, deadline := none }
  (c.value + 1, db.set key { c with value := c.value + 1 })

def expire (db : Keyspace) (time : Millis) (key : String) (seconds : ℕ) :
    Keyspace :=
  match db.find time key with
  | some c => db.set key { c with deadline := some (time + seconds * 1000) }
  | none => db

/-- `TTL` rounds to seconds. -/
def ttl (db : Keyspace) (time : Millis) (key : String) : ℤ :=
  match db.find time key with
  | none => -2
  | some { deadline := none, .. } => -1
  | some { deadline := some deadline, .. } =>
      ((deadline - time + 500) / 1000 : ℕ)

/-- `RATE_LIMIT_SCRIPT`, which runs at one moment of the server's clock. -/
def rateLimitScript (db : Keyspace) (time : Millis) (key : String)
    (window : ℕ) : (ℕ × ℤ) × Keyspace :=
  let (current, db) := incr db time key
  let db := if current = 1 then expire db time key window else db
  ((current, ttl db time key), db)

/-! ## Hits -/

/-- A call of `RateLimiter.hit`, with the time at which its script runs. -/
structure Hit where
  time : Millis
  key : String
  limit : ℕ
  window : ℕ

structure Answer where
  allowed : Bool
  retryAfter : ℤ

/-- The key that Redis sees. -/
def redisKey (key : String) : String := "workstream:rate:" ++ key

/-- `RateLimiter.hit` -/
def hit (db : Keyspace) (h : Hit) : Answer × Keyspace :=
  let ((count, ttl), db) :=
    rateLimitScript db h.time (redisKey h.key) h.window
  ({ allowed := count ≤ h.limit, retryAfter := max ttl 1 }, db)

/-- The hits with their answers. -/
def transcript (db : Keyspace) : List Hit → List (Hit × Answer)
  | [] => []
  | h :: hs => (h, (hit db h).1) :: transcript (hit db h).2 hs

/-- What the hits leave behind. -/
def leave (db : Keyspace) (hs : List Hit) : Keyspace :=
  hs.foldl (fun db h => (hit db h).2) db

def Keyspace.empty : Keyspace := fun _ => none

/-- The hit creates the counter of its key. -/
def Creates (db : Keyspace) (h : Hit) : Prop :=
  db.find h.time (redisKey h.key) = none

/-- When a counter expires that the hit creates. -/
def Hit.expiry (h : Hit) : Millis := h.time + h.window * 1000

/-- The times of the hits on a key, with what they were answered. -/
def verdicts (db : Keyspace) (key : String) (hs : List Hit) :
    List (Millis × Bool) :=
  ((transcript db hs).filter (·.1.key = key)).map
    fun e => (e.1.time, e.2.allowed)

/-! ## The counter of a key is a window -/

open FixedWindow

/-- The times of the hits on a key. -/
def times (key : String) (hs : List Hit) : List Millis :=
  (hs.filter (·.key = key)).map (·.time)

/-- A window as its counter stands in the store. -/
def stored (window : ℕ) (w : Window Millis) : Counter where
  value := w.hits
  deadline := some (w.closes (window * 1000))

section Run

variable {db : Keyspace} {key : String} {limit window : ℕ} {h : Hit}
  {hs : List Hit} {w : Option (Window Millis)}

theorem set_self (c : Counter) : db.set key c key = some c := if_pos rfl

theorem set_of_ne {k : String} (hk : k ≠ key) (c : Counter) :
    db.set key c k = db k := if_neg hk

theorem redisKey_inj {k : String} (h : redisKey k = redisKey key) :
    k = key :=
  String.append_right_inj _ |>.mp h

theorem incr_of_ne {k : String} {time : Millis} (hk : k ≠ key) :
    (incr db time key).2 k = db k :=
  set_of_ne hk _

theorem expire_of_ne {k : String} {time : Millis} {seconds : ℕ}
    (hk : k ≠ key) : expire db time key seconds k = db k := by
  unfold expire
  cases db.find time key with
  | none => rfl
  | some c => exact set_of_ne hk _

/-- The script writes no other key. -/
theorem hit_of_ne (hkey : h.key ≠ key) :
    (hit db h).2 (redisKey key) = db (redisKey key) := by
  have hne : redisKey key ≠ redisKey h.key := fun heq =>
    hkey (redisKey_inj heq).symm
  by_cases hfirst : (incr db h.time (redisKey h.key)).1 = 1
  · simp only [hit, rateLimitScript, if_pos hfirst]
    rw [expire_of_ne hne, incr_of_ne hne]
  · simp only [hit, rateLimitScript, if_neg hfirst]
    exact incr_of_ne hne

/-- A hit that finds no counter starts one, with its expiry. -/
theorem hit_creates (hnone : Creates db h) :
    (hit db h).2 (redisKey h.key) =
        some { value := 1, deadline := some h.expiry } ∧
      (hit db h).1.allowed = decide (1 ≤ h.limit) := by
  have hincr : incr db h.time (redisKey h.key) =
      (1, db.set (redisKey h.key) { value := 1, deadline := none }) := by
    unfold incr
    rw [hnone]
    rfl
  have hfind : (db.set (redisKey h.key)
      { value := 1, deadline := none }).find h.time (redisKey h.key) =
        some { value := 1, deadline := none } := by
    simp only [Keyspace.find, set_self]
    rfl
  simp only [hit, rateLimitScript, hincr, if_true, expire, hfind]
  exact ⟨set_self _, trivial⟩

/-- A hit that finds a counter moves it, and leaves its expiry. -/
theorem hit_counts {c : Counter}
    (hfind : db.find h.time (redisKey h.key) = some c) (hc : 1 ≤ c.value) :
    (hit db h).2 (redisKey h.key) = some { c with value := c.value + 1 } ∧
      (hit db h).1.allowed = decide (c.value + 1 ≤ h.limit) := by
  have hincr : incr db h.time (redisKey h.key) = (c.value + 1,
      db.set (redisKey h.key) { c with value := c.value + 1 }) := by
    unfold incr
    rw [hfind]
    rfl
  have hnext : c.value + 1 ≠ 1 := by omega
  simp only [hit, rateLimitScript, hincr, if_neg hnext]
  exact ⟨set_self _, trivial⟩

theorem find_stored (hdb : db key = w.map (stored window)) (time : Millis) :
    db.find time key =
      (w.filter fun v => time < v.closes (window * 1000)).map
        (stored window) := by
  unfold Keyspace.find
  rw [hdb]
  cases w with
  | none => rfl
  | some v =>
      by_cases hlive : time < v.closes (window * 1000) <;>
        simp [Option.filter, stored, hlive]

/-- A counter is created when no window is open. -/
theorem creates_iff (hdb : db (redisKey h.key) = w.map (stored window)) :
    Creates db h ↔ Opens (window * 1000) w h.time := by
  unfold Creates
  rw [find_stored hdb, Option.map_eq_none_iff, Option.filter_eq_none_iff]
  simp only [decide_eq_true_eq, not_lt, Opens, Option.mem_def]

/-- A hit moves the counter as it moves the window. -/
theorem hit_stored (hpos : ∀ v ∈ w, 1 ≤ v.hits)
    (hdb : db (redisKey h.key) = w.map (stored h.window)) :
    (hit db h).2 (redisKey h.key) =
        some (stored h.window (next (h.window * 1000) w h.time)) ∧
      (hit db h).1.allowed =
        decide ((next (h.window * 1000) w h.time).hits ≤ h.limit) := by
  by_cases hopens : Opens (h.window * 1000) w h.time
  · rw [next_of_opens hopens]
    exact hit_creates ((creates_iff hdb).mpr hopens)
  · match w, hopens, hpos, hdb with
    | none, hopens, _, _ => exact absurd opens_none hopens
    | some v, hopens, hpos, hdb =>
        have hlive := not_opens_iff.mp hopens
        have hfind := find_stored hdb h.time
        rw [Option.filter_some_pos (by simpa using hlive)] at hfind
        rw [next_of_lt hlive]
        exact hit_counts hfind (hpos v rfl)

theorem times_cons_self (hkey : h.key = key) :
    times key (h :: hs) = h.time :: times key hs := by
  simp only [times, List.filter_cons, hkey, decide_true, if_true,
    List.map_cons]

theorem times_cons_of_ne (hkey : h.key ≠ key) :
    times key (h :: hs) = times key hs := by
  simp only [times, List.filter_cons, hkey, decide_false, Bool.false_eq_true,
    if_false]

/-- The hits on a key keep to one limit and one window. -/
def Uniform (key : String) (limit window : ℕ) (hs : List Hit) : Prop :=
  ∀ h ∈ hs, h.key = key → h.limit = limit ∧ h.window = window

theorem Uniform.tail (hu : Uniform key limit window (h :: hs)) :
    Uniform key limit window hs :=
  fun x hx => hu x (List.mem_cons_of_mem h hx)

/-- Whatever happens to other keys, the counter of a key is the window of its
own hits. -/
theorem leave_stored (hu : Uniform key limit window hs)
    (hpos : ∀ v ∈ w, 1 ≤ v.hits)
    (hdb : db (redisKey key) = w.map (stored window)) :
    leave db hs (redisKey key) =
      (after (window * 1000) w (times key hs)).map (stored window) := by
  induction hs generalizing db w with
  | nil => exact hdb
  | cons h hs ih =>
      by_cases hkey : h.key = key
      · obtain ⟨hlimit, rfl⟩ := hu h List.mem_cons_self hkey
        obtain ⟨hstep, _⟩ := hit_stored hpos (hkey ▸ hdb)
        rw [times_cons_self hkey, after_cons]
        have hpos' : ∀ v ∈ some (next (h.window * 1000) w h.time),
            1 ≤ v.hits := by
          intro v hv
          obtain rfl := Option.some.inj hv
          exact one_le_next_hits h.time
        exact ih hu.tail hpos' (hkey ▸ hstep)
      · rw [times_cons_of_ne hkey]
        exact ih hu.tail hpos ((hit_of_ne hkey).trans hdb)

/-- The answers go by the numbers of the hits in their windows. -/
theorem verdicts_stored (hu : Uniform key limit window hs)
    (hpos : ∀ v ∈ w, 1 ≤ v.hits)
    (hdb : db (redisKey key) = w.map (stored window)) :
    verdicts db key hs =
      (counted (window * 1000) w (times key hs)).map
        fun e => (e.1, decide (e.2.hits ≤ limit)) := by
  induction hs generalizing db w with
  | nil => rfl
  | cons h hs ih =>
      by_cases hkey : h.key = key
      · obtain ⟨rfl, rfl⟩ := hu h List.mem_cons_self hkey
        obtain ⟨hstep, hallowed⟩ := hit_stored hpos (hkey ▸ hdb)
        have hpos' : ∀ v ∈ some (next (h.window * 1000) w h.time),
            1 ≤ v.hits := by
          intro v hv
          obtain rfl := Option.some.inj hv
          exact one_le_next_hits h.time
        have hrest := ih hu.tail hpos' (hkey ▸ hstep)
        rw [times_cons_self hkey, counted, List.map_cons, ← hrest, ← hallowed]
        simp only [verdicts, transcript, List.filter_cons, hkey, decide_true,
          if_true, List.map_cons]
      · rw [times_cons_of_ne hkey,
          ← ih hu.tail hpos ((hit_of_ne hkey).trans hdb)]
        simp only [verdicts, transcript, List.filter_cons, hkey,
          decide_false, Bool.false_eq_true, if_false]

theorem times_append (xs ys : List Hit) :
    times key (xs ++ ys) = times key xs ++ times key ys := by
  simp only [times, List.filter_append, List.map_append]

theorem times_eq_nil (h : ∀ x ∈ hs, x.key ≠ key) : times key hs = [] := by
  have hnone : hs.filter (·.key = key) = [] :=
    List.filter_eq_nil_iff.mpr fun x hx => by simpa using h x hx
  rw [times, hnone, List.map_nil]

/-- A hit on the key, found by its place among the times. -/
theorem exists_of_times {xs ys : List Millis} {t : Millis}
    (h : times key hs = xs ++ t :: ys) :
    ∃ before first later, hs = before ++ first :: later ∧ first.key = key ∧
      first.time = t ∧ times key before = xs ∧ times key later = ys := by
  obtain ⟨as, bs, hab, has, hbs⟩ := List.map_eq_append_iff.mp h
  obtain ⟨first, cs, rfl, rfl, hcs⟩ := List.map_eq_cons_iff.mp hbs
  obtain ⟨ls, rs, rfl, hls, hrs⟩ := List.filter_eq_append_iff.mp hab
  obtain ⟨skipped, later, rfl, hskipped, hfirst, hlater⟩ :=
    List.filter_eq_cons_iff.mp hrs
  refine ⟨ls ++ skipped, first, later, ?_, of_decide_eq_true hfirst, rfl, ?_,
    ?_⟩
  · rw [List.append_assoc]
  · have hnone : times key skipped = [] :=
      times_eq_nil fun x hx => by simpa using hskipped x hx
    rw [times_append, hnone, List.append_nil, times, hls, has]
  · rw [times, hlater, hcs]

theorem Uniform.append_left {xs ys : List Hit}
    (hu : Uniform key limit window (xs ++ ys)) :
    Uniform key limit window xs :=
  fun x hx => hu x (List.mem_append_left ys hx)

theorem Uniform.append_right {xs ys : List Hit}
    (hu : Uniform key limit window (xs ++ ys)) :
    Uniform key limit window ys :=
  fun x hx => hu x (List.mem_append_right xs hx)

theorem leave_empty (hu : Uniform key limit window hs) :
    leave .empty hs (redisKey key) =
      (after (window * 1000) none (times key hs)).map (stored window) :=
  leave_stored hu (fun v hv => absurd hv (Option.not_mem_none v)) rfl

theorem mem_times : (∀ t ∈ times key hs, t < limit) ↔
    ∀ h ∈ hs, h.key = key → h.time < limit := by
  simp only [times, List.mem_map, List.mem_filter, decide_eq_true_eq]
  constructor
  · exact fun hall h hh hkey => hall h.time ⟨h, ⟨hh, hkey⟩, rfl⟩
  · rintro hall t ⟨h, ⟨hh, hkey⟩, rfl⟩
    exact hall h hh hkey

end Run

/-! ## What the limiter guarantees -/

/-- The guarantees for the hits on one key, among any others. -/
structure Limited (key : String) (limit window : ℕ) (hs : List Hit) :
    Prop where
  /-- Every counter that is stored expires a window after the hit that created
  it. -/
  expires : ∀ c, leave .empty hs (redisKey key) = some c →
    ∃ before first later, hs = before ++ first :: later ∧ first.key = key ∧
      Creates (leave .empty before) first ∧
      (∀ h ∈ later, h.key = key → h.time < first.expiry) ∧
      c.deadline = some first.expiry
  /-- No later hit postpones this. -/
  keeps : ∀ before first later, hs = before ++ first :: later →
    first.key = key → Creates (leave .empty before) first →
    (∀ h ∈ later, h.key = key → h.time < first.expiry) →
    ∃ c, leave .empty hs (redisKey key) = some c ∧
      c.deadline = some first.expiry
  /-- Of the hits on a counter the first ones are allowed. -/
  answers : ∀ before first later, hs = before ++ first :: later →
    first.key = key → Creates (leave .empty before) first →
    ((verdicts (leave .empty before) key (first :: later)).filter
        fun e => e.1 < first.expiry).map Prod.snd =
      List.replicate (min limit ((first :: later).countP fun h =>
          h.key = key ∧ h.time < first.expiry)) true ++
        List.replicate (((first :: later).countP fun h =>
          h.key = key ∧ h.time < first.expiry) - limit) false
  /-- Any interval of the length of a window. -/
  sliding : ∀ a : Millis, (verdicts .empty key hs).countP
    (fun e => e.2 ∧ a ≤ e.1 ∧ e.1 < a + window * 1000) ≤ 2 * limit
  /-- The first hit after an expiry. -/
  reopens : ∀ before first middle next later,
    hs = before ++ first :: middle ++ next :: later →
    first.key = key → Creates (leave .empty before) first →
    (∀ h ∈ middle, h.key = key → h.time < first.expiry) →
    next.key = key → first.expiry ≤ next.time →
    (hit (leave .empty (before ++ first :: middle)) next).1.allowed = true

section Guarantees

variable {key : String} {limit window : ℕ} {hs before later : List Hit}
  {first : Hit}

theorem times_pairwise (key : String)
    (h : hs.Pairwise fun x y => x.time ≤ y.time) :
    (times key hs).Pairwise (· ≤ ·) :=
  List.pairwise_map.mpr (h.filter _)

theorem countP_times (b : Millis) :
    (hs.countP fun h => h.key = key ∧ h.time < b) =
      ((times key hs).filter (· < b)).length := by
  rw [← List.countP_eq_length_filter, times, List.countP_map,
    List.countP_filter]
  refine List.countP_congr fun h _ => ?_
  simp only [Function.comp, Bool.and_eq_true, decide_eq_true_eq, and_comm]

theorem one_le_hits {d : Millis} {ts : List Millis} :
    ∀ v ∈ after d none ts, 1 ≤ v.hits := by
  intro v hv
  obtain ⟨_, ys, _, _, _, hhits⟩ := after_eq_some hv
  omega

/-- A created counter is an opened window. -/
theorem opens_of_creates (hu : Uniform key limit window before)
    (hkey : first.key = key) (h : Creates (leave .empty before) first) :
    Opens (window * 1000) (after (window * 1000) none (times key before))
      first.time := by
  subst hkey
  exact (creates_iff (leave_empty hu)).mp h

/-- While it lasts, the window of a hit is the one that the hit has opened. -/
theorem after_creates
    (hu : Uniform key limit window (before ++ first :: later))
    (hkey : first.key = key) (h : Creates (leave .empty before) first)
    (hlater : ∀ h ∈ later, h.key = key → h.time < first.expiry) :
    ∃ n, after (window * 1000) none (times key (before ++ first :: later)) =
        some { opened := first.time, hits := n } ∧
      first.expiry = first.time + window * 1000 := by
  have hopens := opens_of_creates hu.append_left hkey h
  obtain ⟨_, hwindow⟩ := hu.append_right first List.mem_cons_self hkey
  have hexpiry : first.expiry = first.time + window * 1000 := by
    rw [Hit.expiry, hwindow]
  rw [hexpiry] at hlater
  have hwithin := after_within (v := { opened := first.time, hits := 1 })
    (mem_times.mpr hlater)
  rw [times_append, times_cons_self hkey, after_append, after_cons,
    next_of_opens hopens]
  exact ⟨_, hwithin, hexpiry⟩

theorem expires_of_stored (hu : Uniform key limit window hs) {c : Counter}
    (hc : leave .empty hs (redisKey key) = some c) :
    ∃ before first later, hs = before ++ first :: later ∧ first.key = key ∧
      Creates (leave .empty before) first ∧
      (∀ h ∈ later, h.key = key → h.time < first.expiry) ∧
      c.deadline = some first.expiry := by
  rw [leave_empty hu] at hc
  obtain ⟨v, hv, rfl⟩ := Option.map_eq_some_iff.mp hc
  obtain ⟨xs, ys, hts, hopens, hys, _⟩ := after_eq_some hv
  obtain ⟨before, first, later, rfl, hkey, htime, rfl, rfl⟩ :=
    exists_of_times hts
  obtain ⟨_, hwindow⟩ := hu.append_right first List.mem_cons_self hkey
  have hcloses : v.closes (window * 1000) = first.expiry := by
    rw [Hit.expiry, hwindow, htime, Window.closes]
  refine ⟨before, first, later, rfl, hkey, ?_, ?_, congrArg some hcloses⟩
  · subst hkey
    rw [← htime] at hopens
    exact (creates_iff (leave_empty hu.append_left)).mpr hopens
  · rw [hcloses] at hys
    exact mem_times.mp hys

theorem answers_of_creates
    (hu : Uniform key limit window (before ++ first :: later))
    (hsorted : (before ++ first :: later).Pairwise fun x y => x.time ≤ y.time)
    (hwindow : 1 ≤ window) (hkey : first.key = key)
    (h : Creates (leave .empty before) first) :
    ((verdicts (leave .empty before) key (first :: later)).filter
        fun e => e.1 < first.expiry).map Prod.snd =
      List.replicate (min limit ((first :: later).countP fun h =>
          h.key = key ∧ h.time < first.expiry)) true ++
        List.replicate (((first :: later).countP fun h =>
          h.key = key ∧ h.time < first.expiry) - limit) false := by
  have hopens := opens_of_creates hu.append_left hkey h
  obtain ⟨_, hfirst⟩ := hu.append_right first List.mem_cons_self hkey
  have hsorted' := times_pairwise key
    (List.pairwise_append.mp hsorted).2.1
  rw [times_cons_self hkey] at hsorted'
  have hlive : first.time < first.time + window * 1000 := by
    have hpos : 0 < window * 1000 := by omega
    exact Nat.lt_add_of_pos_right hpos
  have hallowed := allowed_of_opens limit hopens hlive hsorted'
  rw [verdicts_stored hu.append_right one_le_hits (leave_empty hu.append_left),
    countP_times, times_cons_self hkey, Hit.expiry, hfirst, ← hallowed,
    List.filter_map, List.map_map]
  rfl

theorem sliding_le (hu : Uniform key limit window hs)
    (hsorted : hs.Pairwise fun x y => x.time ≤ y.time) (hlimit : 1 ≤ limit)
    (a : Millis) : (verdicts .empty key hs).countP
      (fun e => e.2 ∧ a ≤ e.1 ∧ e.1 < a + window * 1000) ≤ 2 * limit := by
  have hle := countP_le (d := window * 1000) (w := none) (a := a) hlimit
    (times_pairwise key hsorted)
  rw [verdicts_stored hu (fun v hv => absurd hv (Option.not_mem_none v)) rfl,
    List.countP_map]
  refine le_of_eq_of_le (List.countP_congr fun e _ => ?_) hle
  simp only [Function.comp, decide_eq_true_eq]
  constructor
  · exact fun ⟨hhits, ha, hb⟩ => ⟨ha, hb, hhits⟩
  · exact fun ⟨ha, hb, hhits⟩ => ⟨hhits, ha, hb⟩

theorem reopens_of_expiry {next : Hit}
    (hu : Uniform key limit window (before ++ first :: later))
    (hnext : next.limit = limit ∧ next.window = window) (hlimit : 1 ≤ limit)
    (hkey : first.key = key) (h : Creates (leave .empty before) first)
    (hlater : ∀ h ∈ later, h.key = key → h.time < first.expiry)
    (hnextKey : next.key = key) (hexpired : first.expiry ≤ next.time) :
    (hit (leave .empty (before ++ first :: later)) next).1.allowed = true := by
  obtain ⟨n, hafter, hexpiry⟩ := after_creates hu hkey h hlater
  obtain ⟨hnextLimit, hnextWindow⟩ := hnext
  have hstored := leave_empty hu
  rw [hafter, ← hnextKey, ← hnextWindow] at hstored
  have hpos : ∀ v ∈ some ({ opened := first.time, hits := n } : Window Millis),
      1 ≤ v.hits := by
    rw [← hafter]
    exact one_le_hits
  have hopens : Opens (next.window * 1000)
      (some { opened := first.time, hits := n }) next.time := by
    intro v hv
    obtain rfl := Option.some.inj hv
    rw [hnextWindow, Window.closes, ← hexpiry]
    exact hexpired
  rw [(hit_stored hpos hstored).2, next_of_opens hopens, hnextLimit]
  exact decide_eq_true hlimit

/-- The limiter keeps its guarantees along every sequence of hits. -/
theorem limited (hlimit : 1 ≤ limit) (hwindow : 1 ≤ window)
    (hsorted : hs.Pairwise fun x y => x.time ≤ y.time)
    (hu : Uniform key limit window hs) : Limited key limit window hs where
  expires := fun c hc => expires_of_stored hu hc
  keeps := by
    rintro before first later rfl hkey h hlater
    obtain ⟨n, hafter, hexpiry⟩ := after_creates hu hkey h hlater
    refine ⟨stored window { opened := first.time, hits := n }, ?_, ?_⟩
    · rw [leave_empty hu, hafter]
      rfl
    · rw [hexpiry]
      rfl
  answers := by
    rintro before first later rfl hkey h
    exact answers_of_creates hu hsorted hwindow hkey h
  sliding := sliding_le hu hsorted hlimit
  reopens := by
    rintro before first middle next later rfl hkey h hmiddle hnext hexpired
    exact reopens_of_expiry hu.append_left
      (hu.append_right next List.mem_cons_self hnext) hlimit hkey h hmiddle
      hnext hexpired

end Guarantees

end Workstream.Redis
