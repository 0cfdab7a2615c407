import Mathlib.Data.List.Range
import Workstream.Modules.Issues.Commits

/-!
# Issue numbers

The counter of a project and its issues move together: in every committed
state the issues bear the numbers below the counter, each of them once.
-/

namespace Workstream.Issues

open ReadCommitted Contract World

/-- The issue with key `k` bears the number `n` in the project `P`. -/
def Bears (db : Db) (P k : Uuid) (n : ℕ) : Prop :=
  ∃ x : Issue, (db .issues).lookup (.id k) = some x ∧ x.projectId = P ∧
    x.number = n

/-- The counter of a project, if there is one. -/
def counter (db : Db) (P : Uuid) : Option ℕ :=
  ((db .projects).lookup (.id P)).map Project.nextIssueNumber

/-! ## What a commit does to the numbers -/

/-- A commit leaves the numbers alone, adds a project, or takes the next
number of a project for a new issue. -/
inductive NumberChange (b a : Db) : Prop where
  | same (hcounter : ∀ P, counter a P = counter b P)
      (hbears : ∀ P k n, Bears a P k n ↔ Bears b P k n)
  | opened (O : Uuid) (hnew : counter b O = none)
      (hcounter : ∀ P, counter a P = if P = O then some 1 else counter b P)
      (hbears : ∀ P k n, Bears a P k n ↔ Bears b P k n)
  | taken (O j : Uuid) (m : ℕ) (hold : counter b O = some m)
      (hnew : ∀ P n, ¬ Bears b P j n)
      (hcounter : ∀ P, counter a P =
        if P = O then some (m + 1) else counter b P)
      (hbears : ∀ P k n, Bears a P k n ↔
        Bears b P k n ∨ P = O ∧ k = j ∧ n = m)

theorem bears_congr {b a : Db} (h : a .issues = b .issues) (P k : Uuid)
    (n : ℕ) : Bears a P k n ↔ Bears b P k n := by
  unfold Bears
  rw [h]

/-- Replacing an issue by one with its project and number changes nothing. -/
theorem bears_put {b a : Db} {r r' : Issue}
    (hr : (b .issues).lookup (.id r.id) = some r)
    (h : a .issues = (b .issues).put r') (hsame : SameIssue r r')
    (P k : Uuid) (n : ℕ) :
    Bears a P k n ↔ Bears b P k n := by
  unfold Bears
  rw [h, lookup_put_issues, hsame.id]
  by_cases hk : Key.id k = .id r.id
  · rw [if_pos hk, hk, hr]
    simp [hsame.project, hsame.number]
  · rw [if_neg hk]

theorem counter_congr {b a : Db} (h : a .projects = b .projects) (P : Uuid) :
    counter a P = counter b P := by
  rw [counter, h, counter]

theorem counter_put {b a : Db} {r : Project}
    (h : a .projects = (b .projects).put r) (P : Uuid) :
    counter a P =
      if P = r.id then some r.nextIssueNumber else counter b P := by
  have hlook : (a .projects).lookup (.id P) =
      if Key.id P = .id r.id then some r
      else (b .projects).lookup (.id P) := by
    rw [h]
    exact Relation.lookup_put (σ := schema) (t := .projects) _ r _
  rw [counter, hlook]
  by_cases hP : P = r.id
  · simp [hP]
  · rw [if_neg (by simpa using hP), if_neg hP, counter]

theorem Effects.numberChange {request : Request} {c : Commit schema}
    (h : Effects request c) : NumberChange c.before c.after := by
  have hafter : ∀ ws, c.session.writes = ws →
      c.after = Store.view ws c.before := by
    rintro _ rfl
    rfl
  cases h with
  | nothing _ hwrites =>
      exact .same (counter_congr (hwrites.view _ (by decide) (by decide)))
        (bears_congr (hwrites.view _ (by decide) (by decide)))
  | projectCreated project rest _ hnew hfirst hwrites hrest =>
      refine .opened project.id (by simp [counter, hnew]) ?_ (bears_congr ?_)
      · rw [← hfirst]
        refine counter_put ?_
        rw [hafter _ hwrites, Store.view_cons, hrest.view _ (by decide)
          (by decide), Store.write_put_self]
      · rw [hafter _ hwrites, Store.view_cons, hrest.view _ (by decide)
          (by decide), Store.write_put_of_ne _ _ (by decide)]
  | projectChanged p p' rest _ hlook hid hnext hwrites hrest =>
      refine .same (fun P => ?_) (bears_congr ?_)
      · have hput : c.after .projects = (c.before .projects).put p' := by
          rw [hafter _ hwrites, Store.view_cons, hrest.view _ (by decide)
            (by decide), Store.write_put_self]
        rw [counter_put hput, hid]
        by_cases hP : P = p.id
        · rw [if_pos hP, counter, hP, hlook, Option.map_some, hnext]
        · rw [if_neg hP]
      · rw [hafter _ hwrites, Store.view_cons, hrest.view _ (by decide)
          (by decide), Store.write_put_of_ne _ _ (by decide)]
  | created project issue rest _ hproject hnew hprojectId hnumber _ _ _ hwrites
      hrest =>
      have hbefore : ∀ P n, ¬ Bears c.before P issue.id n := by
        rintro P n ⟨x, hx, _⟩
        rw [hnew] at hx
        cases hx
      refine .taken project.id issue.id project.nextIssueNumber
        (by simp [counter, hproject]) hbefore ?_ fun P k n => ?_
      · refine counter_put (r := { project with
          nextIssueNumber := project.nextIssueNumber + 1 }) ?_
        rw [hafter _ hwrites, Store.view_cons, Store.view_cons,
          hrest.view _ (by decide) (by decide),
          Store.write_put_of_ne _ _ (by decide), Store.write_put_self]
      · have hput : c.after .issues = (c.before .issues).put issue := by
          rw [hafter _ hwrites, Store.view_cons, Store.view_cons,
            hrest.view _ (by decide) (by decide), Store.write_put_self,
            Store.write_put_of_ne _ _ (by decide)]
        by_cases hk : k = issue.id
        · subst hk
          have hself : Bears c.after P issue.id n ↔
              issue.projectId = P ∧ issue.number = n := by
            unfold Bears
            rw [hput, lookup_put_issues, if_pos rfl]
            simp
          rw [hself, hprojectId, hnumber]
          constructor
          · rintro ⟨rfl, rfl⟩
            exact Or.inr ⟨rfl, rfl, rfl⟩
          · rintro (hold | ⟨rfl, _, rfl⟩)
            · exact absurd hold (hbefore P n)
            · exact ⟨rfl, rfl⟩
        · have hother : Bears c.after P k n ↔ Bears c.before P k n := by
            unfold Bears
            rw [hput, lookup_put_issues, if_neg (by simpa using hk)]
          rw [hother]
          simp [hk]
  | revised i r v time rest events _ hlook _ hvalues hwrites hrest =>
      obtain rfl : r.id = i := Key.id.inj (Relation.key_of_lookup hlook)
      have hsame := Request.revise_same hvalues
      have hput : c.after .issues = (c.before .issues).put
          { v with version := r.version + 1, updatedAt := time } := by
        rw [hafter _ hwrites, Store.view_cons, hrest.view _ (by decide)
          (by decide), Store.write_put_self]
      refine .same (counter_congr ?_) (bears_put hlook hput
        ⟨hsame.id, hsame.organization, hsame.project, hsame.number⟩)
      rw [hafter _ hwrites, Store.view_cons, hrest.view _ (by decide)
        (by decide), Store.write_put_of_ne _ _ (by decide)]
  | archived i r archivedAt updatedAt _ _ hlook _ hwrites =>
      obtain rfl : r.id = i := Key.id.inj (Relation.key_of_lookup hlook)
      have hput : c.after .issues = (c.before .issues).put
          { r with archivedAt := some archivedAt, updatedAt } := by
        rw [hafter _ hwrites, Store.view_cons, Store.view_nil,
          Store.write_put_self]
      refine .same (counter_congr ?_) (bears_put hlook hput
        ⟨rfl, rfl, rfl, rfl⟩)
      rw [hafter _ hwrites, Store.view_cons, Store.view_nil,
        Store.write_put_of_ne _ _ (by decide)]

/-! ## The invariant -/

/-- The issues of `P` bear the numbers below its counter, each of them once;
without a counter there are no issues. -/
structure Gapless (db : Db) (P : Uuid) : Prop where
  counted : ∀ k n, Bears db P k n →
    ∃ m, counter db P = some m ∧ 1 ≤ n ∧ n < m
  taken : ∀ m, counter db P = some m → 1 ≤ m ∧
    ∀ n, 1 ≤ n → n < m → ∃ k, Bears db P k n
  injective : ∀ k j n, Bears db P k n → Bears db P j n → k = j

theorem Gapless.change {b a : Db} {P : Uuid} (h : Gapless b P)
    (hchange : NumberChange b a) : Gapless a P := by
  cases hchange with
  | same hcounter hbears =>
      constructor
      · intro k n hk
        rw [hcounter]
        exact h.counted k n ((hbears P k n).mp hk)
      · intro m hm
        rw [hcounter] at hm
        simpa only [hbears] using h.taken m hm
      · intro k j n hk hj
        exact h.injective k j n ((hbears P k n).mp hk) ((hbears P j n).mp hj)
  | opened O hnew hcounter hbears =>
      by_cases hP : P = O
      · subst hP
        have hnone : ∀ k n, ¬ Bears a P k n := by
          intro k n hk
          obtain ⟨m, hm, _⟩ := h.counted k n ((hbears P k n).mp hk)
          rw [hnew] at hm
          cases hm
        constructor
        · exact fun k n hk => absurd hk (hnone k n)
        · intro m hm
          rw [hcounter, if_pos rfl] at hm
          obtain rfl := Option.some.inj hm
          exact ⟨le_rfl, fun n hn hlt => absurd hlt (by omega)⟩
        · exact fun k j n hk => absurd hk (hnone k n)
      · constructor
        · intro k n hk
          rw [hcounter, if_neg hP]
          exact h.counted k n ((hbears P k n).mp hk)
        · intro m hm
          rw [hcounter, if_neg hP] at hm
          simpa only [hbears] using h.taken m hm
        · intro k j n hk hj
          exact h.injective k j n ((hbears P k n).mp hk)
            ((hbears P j n).mp hj)
  | taken O j₀ m₀ hold hnew hcounter hbears =>
      by_cases hP : P = O
      · subst hP
        have hbelow : ∀ k n, Bears b P k n → 1 ≤ n ∧ n < m₀ := by
          intro k n hk
          obtain ⟨m, hm, hrange⟩ := h.counted k n hk
          rw [hold] at hm
          obtain rfl := Option.some.inj hm
          exact hrange
        have hpos := (h.taken m₀ hold).1
        constructor
        · intro k n hk
          refine ⟨m₀ + 1, by rw [hcounter, if_pos rfl], ?_⟩
          rcases (hbears P k n).mp hk with hk | ⟨_, _, rfl⟩
          · have hrange := hbelow k n hk
            omega
          · omega
        · intro m hm
          rw [hcounter, if_pos rfl] at hm
          obtain rfl := Option.some.inj hm
          refine ⟨by omega, fun n hn hlt => ?_⟩
          by_cases hlast : n = m₀
          · exact ⟨j₀, (hbears P j₀ n).mpr (Or.inr ⟨rfl, rfl, hlast⟩)⟩
          · obtain ⟨k, hk⟩ := (h.taken m₀ hold).2 n hn (by omega)
            exact ⟨k, (hbears P k n).mpr (Or.inl hk)⟩
        · intro k j n hk hj
          rcases (hbears P k n).mp hk with hk | ⟨_, rfl, rfl⟩
          · rcases (hbears P j n).mp hj with hj | ⟨_, _, rfl⟩
            · exact h.injective k j n hk hj
            · have hrange := hbelow k n hk
              omega
          · rcases (hbears P j n).mp hj with hj | ⟨_, rfl, _⟩
            · have hrange := hbelow j n hj
              omega
            · rfl
      · have hsame : ∀ k n, Bears a P k n ↔ Bears b P k n := by
          intro k n
          rw [hbears]
          simp [hP]
        constructor
        · intro k n hk
          rw [hcounter, if_neg hP]
          exact h.counted k n ((hsame k n).mp hk)
        · intro m hm
          rw [hcounter, if_neg hP] at hm
          simpa only [hsame] using h.taken m hm
        · intro k j n hk hj
          exact h.injective k j n ((hsame k n).mp hk) ((hsame j n).mp hj)

/-! ## Runs -/

/-- The numbers of the issues of a project. -/
def numbers (P : Uuid) (db : Db) : List ℕ :=
  ((db .issues).rows.filter fun x : Issue => x.projectId = P).map Issue.number

theorem Gapless.numbers_perm {db : Db} {P : Uuid} (h : Gapless db P) {m : ℕ}
    (hm : counter db P = some m) :
    (numbers P db).Perm (List.range' 1 (m - 1)) := by
  have hbears : ∀ x ∈ (db .issues).rows.filter
      fun x : Issue => x.projectId = P, Bears db P x.id x.number := by
    intro x hx
    rw [List.mem_filter, decide_eq_true_eq] at hx
    exact ⟨x, mem_issues_iff.mp hx.1, hx.2, rfl⟩
  refine (List.perm_ext_iff_of_nodup ?_ List.nodup_range').mpr fun n => ?_
  · refine List.Nodup.map_on ?_ ((db .issues).nodup_rows.filter _)
    intro x hx y hy hxy
    have hkey := h.injective _ _ _ (hbears x hx) (hxy ▸ hbears y hy)
    exact (db .issues).eq_of_key_eq (List.mem_filter.mp hx).1
      (List.mem_filter.mp hy).1 (congrArg Key.id hkey)
  · rw [List.mem_range'_1, numbers, List.mem_map]
    obtain ⟨hpos, htaken⟩ := h.taken m hm
    constructor
    · rintro ⟨x, hx, rfl⟩
      obtain ⟨m', hm', hrange⟩ := h.counted _ _ (hbears x hx)
      rw [hm] at hm'
      obtain rfl := Option.some.inj hm'
      omega
    · intro hn
      obtain ⟨k, x, hx, hP, hnumber⟩ := htaken n (by omega) (by omega)
      refine ⟨x, List.mem_filter.mpr ⟨Relation.mem_of_lookup hx, ?_⟩, hnumber⟩
      simpa using hP

/-- A commit adds an issue. -/
def Adds (c : Commit schema) (x : Issue) : Prop :=
  (c.after .issues).lookup (.id x.id) = some x ∧
    (c.before .issues).lookup (.id x.id) = none

/-- A number that is borne after a commit and not before is the next one. -/
theorem Adds.number {c : Commit schema} {x : Issue} (h : Adds c x)
    (hchange : NumberChange c.before c.after) :
    counter c.before x.projectId = some x.number := by
  have hafter : Bears c.after x.projectId x.id x.number :=
    ⟨x, h.1, rfl, rfl⟩
  have hbefore : ¬ Bears c.before x.projectId x.id x.number := by
    rintro ⟨y, hy, _⟩
    rw [h.2] at hy
    cases hy
  cases hchange with
  | same _ hbears => exact absurd ((hbears _ _ _).mp hafter) hbefore
  | opened _ _ _ hbears => exact absurd ((hbears _ _ _).mp hafter) hbefore
  | taken O j m hold _ _ hbears =>
      rcases (hbears _ _ _).mp hafter with hold' | ⟨hP, _, hn⟩
      · exact absurd hold' hbefore
      · rw [hP, hn]
        exact hold

/-- What has been borne stays borne. -/
theorem NumberChange.bears {b a : Db} (h : NumberChange b a) {P k : Uuid}
    {n : ℕ} (hk : Bears b P k n) : Bears a P k n := by
  cases h with
  | same _ hbears => exact (hbears P k n).mpr hk
  | opened _ _ _ hbears => exact (hbears P k n).mpr hk
  | taken _ _ _ _ _ _ hbears => exact (hbears P k n).mpr (Or.inl hk)

/-- The database does not know the project `P`. -/
structure NoProject (db : Db) (P : Uuid) : Prop where
  project : (db .projects).lookup (.id P) = none
  issues : ∀ x ∈ (db .issues).rows, Issue.projectId x ≠ P

theorem NoProject.gapless {db : Db} {P : Uuid} (h : NoProject db P) :
    Gapless db P := by
  have hnone : ∀ k n, ¬ Bears db P k n := by
    rintro k n ⟨x, hx, hP, _⟩
    exact h.issues x (Relation.mem_of_lookup hx) hP
  constructor
  · exact fun k n hk => absurd hk (hnone k n)
  · intro m hm
    simp [counter, h.project] at hm
  · exact fun k j n hk => absurd hk (hnone k n)

section Runs

variable {requests : Pid → Request} {s₀ : Db}
  {w : World schema AppError Response}

/-- In every committed state the issues of a project bear the numbers below
its counter, and a later issue bears a larger number. -/
theorem numbers_gapless {P : Uuid} (habsent : NoProject s₀ P)
    (hreach : Reachable (clients requests s₀) w) :
    (∀ project : Project,
      (w.store .projects).lookup (.id P) = some project →
      (numbers P w.store).Perm
        (List.range' 1 (project.nextIssueNumber - 1))) ∧
    w.log.Pairwise fun c d => ∀ x y, Adds c x → Adds d y →
      x.projectId = P → y.projectId = P → y.number < x.number := by
  have hsound := sound_services hreach
  have hchain := (wellFormed_of_reachable hreach).chain
  have hchange : ∀ c ∈ w.log, NumberChange c.before c.after :=
    fun c hc => (hsound.guar c hc).numberChange
  suffices hinv : Gapless w.store P ∧
      (∀ d ∈ w.log, ∀ y, Adds d y → y.projectId = P →
        Bears w.store P y.id y.number) ∧
      w.log.Pairwise fun c d => ∀ x y, Adds c x → Adds d y →
        x.projectId = P → y.projectId = P → y.number < x.number by
    refine ⟨fun project hproject => hinv.1.numbers_perm ?_, hinv.2.2⟩
    rw [counter, hproject, Option.map_some]
  refine hchain.induction hchange (P := fun log (s : Db) => Gapless s P ∧
      (∀ d ∈ log, ∀ y, Adds d y → y.projectId = P →
        Bears s P y.id y.number) ∧
      log.Pairwise fun c d => ∀ x y, Adds c x → Adds d y →
        x.projectId = P → y.projectId = P → y.number < x.number)
    ⟨habsent.gapless, by simp, List.Pairwise.nil⟩ ?_
  rintro c older hc ⟨hgapless, hborne, hordered⟩
  refine ⟨hgapless.change hc, ?_, List.pairwise_cons.mpr ⟨?_, hordered⟩⟩
  · intro d hd y hy hP
    rcases List.mem_cons.mp hd with rfl | hd
    · exact ⟨y, hy.1, hP, rfl⟩
    · exact hc.bears (hborne d hd y hy hP)
  · intro d hd x y hx hy hxP hyP
    obtain ⟨m, hm, _, hlt⟩ := hgapless.counted _ _ (hborne d hd y hy hyP)
    have hnext := hx.number hc
    rw [hxP, hm] at hnext
    obtain rfl := Option.some.inj hnext
    exact hlt

end Runs

/-! ## A run with a failed creation -/

def alice : User where
  id := 1
  email := "alice@example.org"
  passwordHash := 0
  displayName := "Alice"

/-- A database with one organization and its owner. -/
def oneOwner : Db :=
  ((Store.empty schema).write (.put Table.users alice)).write
    (.put Table.memberships
      { organizationId := 2, userId := 1, role := .owner })

theorem noProject_oneOwner (P : Uuid) : NoProject oneOwner P where
  project := rfl
  issues := by
    intro x hx
    cases hx

/-- A project, and three requests for an issue in it. -/
def threeCreations : Pid → Request
  | 0 => .createProject 2 alice { name := "Board", key := "BRD" }
  | _ => .createIssue 2 alice { projectId := 50, title := "Task" }

def projectSteps : List (Pid × Input schema) :=
  steps 0 [.go, .value 50, .value 100, .go, .value 51, .value 100, .go, .go]

/-- A creation up to its commit. -/
def creationSteps (p id : ℕ) : List (Pid × Input schema) :=
  steps p [.go, .go, .order [.id 50], .go, .go, .value id, .value 200,
    .value 200, .go, .value (id + 1), .value 200, .go]

/-- The second creation fails when it has taken a number. -/
def failedCreation : List (Pid × Input schema) :=
  projectSteps ++ creationSteps 1 60 ++ steps 1 [.go] ++
    creationSteps 2 70 ++ steps 2 [.fail] ++
    creationSteps 3 80 ++ steps 3 [.go]

theorem numbers_gapless_failedCreation :
    ∃ w, Reachable (clients threeCreations oneOwner) w ∧
      (w.procs 2).prog matches .halt ∧
      (numbers 50 w.store).Perm [1, 2] := by
  have hrun : ((clients threeCreations oneOwner).run failedCreation).any
      (fun w => ((w.procs 2).prog matches .halt) ∧
        ((w.store .projects).lookup (.id 50)).any
          (fun project : Project => project.nextIssueNumber = 3) = true) =
        true := by
    decide +kernel
  obtain ⟨w, hreach, hhalt, hproject⟩ := exists_reachable hrun
  obtain ⟨project, hlook, hnext⟩ := (Option.any_eq_true _ _).mp hproject
  rw [decide_eq_true_eq] at hnext
  have hperm :=
    (numbers_gapless (noProject_oneOwner 50) hreach).1 project hlook
  rw [hnext] at hperm
  exact ⟨w, hreach, hhalt, hperm⟩

end Workstream.Issues
