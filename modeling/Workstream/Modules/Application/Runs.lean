import Workstream.Modules.Application.Checks
import Workstream.Modules.Tracker.Isolation
import Workstream.ReadCommitted.Requests

/-!
# What holds in every run of the application

Any number of requests, dispatchers and seeds on one database, in any order of
their statements, and from any database.  Rows keep their identity, requests
commit as often as they should, and errors come from the catalogue.
-/

namespace Workstream.Application

open ReadCommitted World Discipline

section Runs

variable {E : Environment} {requests : Pid → Request} {s₀ : Db}
  {w w' : World schema AppError Response} {p : Pid}

/-- All requests keep to their duties. -/
theorem disciplined (hreach : Reachable (clients E requests s₀) w) :
    Disciplined (fun p => duty E (requests p)) {}
      (fun p => Answers (requests p)) w :=
  disciplined_of_reachable (fun p => follows_serve E (requests p)) hreach

/-! ## Rows -/

theorem Persists.of_chain {t : Table} {request : Request} {r r' : Row t}
    (h : Relation.ReflTransGen (duty E request).alters r r') :
    r' = r ∨ t ∈ request.alters ∧ Persists t r r' := by
  induction h with
  | refl => exact .inl rfl
  | tail _ halters ih =>
      obtain ⟨htable, hpersists, _⟩ := halters
      rcases ih with rfl | ⟨_, ih⟩
      · exact .inr ⟨htable, hpersists⟩
      · exact .inr ⟨htable, ih.trans hpersists⟩

theorem Persists.of_eq_or {t : Table} {request : Request} {r r' : Row t}
    (h : r' = r ∨ t ∈ request.alters ∧ Persists t r r') : Persists t r r' := by
  rcases h with rfl | ⟨_, h⟩
  · exact .refl t r'
  · exact h

/-- The libraries and settings of a test deployment. -/
def testing : Environment :=
  { Tracker.deployment with
    dispatching := {}
    className := fun _ => "SMTPException"
    uuid5 := fun name =>
      name.toList.foldl (fun n c => 257 * n + c.toNat) 0 }

/-- Bob has joined Mallory's organization, which has a project. -/
def office : Db :=
  Store.view (σ := schema)
    [.put .authSessions
        { id := 33, userId := 1, familyId := 34, refreshTokenHash := 35
          createdAt := 0, expiresAt := 1000 },
      .put .memberships { organizationId := 11, userId := 1, role := .member },
      .put .projects
        { id := 60, organizationId := 11, name := "Board", key := "BRD"
          description := "", createdAt := 0 }]
    Tracker.twoTeams

def sender : Auth.Client := ⟨none, none, "request"⟩

/-- Mallory assigns a new issue to Bob, who reads the notification; he logs in
once more, and Mallory looks for a project that is not hers. -/
def officeRequests : Pid → Request
  | 0 => .tracker sender (.claims 3 31)
      (.createIssue 11
        { projectId := 60, title := "Task", assigneeId := some 1 })
  | 1 => .notifications (.claims 1 34) (.read 75)
  | 2 => .account (.login
      { email := "bob@example.org", password := "secret" } sender)
  | 3 => .tracker sender (.claims 3 31) (.getProject 10 60)
  | _ => .seed

def assigningSteps : List (Pid × Input schema) :=
  steps 0 [.go, .go, .go, .go, .order [.id 60], .go, .go, .value 70, .value 5,
    .value 5, .go, .value 71, .value 5, .go, .value 75, .value 5, .go, .go]

def readingSteps : List (Pid × Input schema) :=
  steps 1 [.go, .value 7, .order [.id 75], .go, .go, .go]

abbrev officeClients : World schema AppError Response :=
  clients testing officeRequests office

/-- The tables from which some request erases rows. -/
def erasable : List Table := [.memberships, .labels, .issueLabels, .comments]

theorem mem_erasable {request : Request} {t : Table}
    (h : t ∈ request.erases) : t ∈ erasable := by
  cases request with
  | tracker client authorization endpoint =>
      cases endpoint <;> simp_all [Request.erases, trackerErases, erasable]
      rcases h with rfl | rfl <;> simp
  | _ => simp [Request.erases] at h

/-- What any request may do to rows. -/
def anything : Licence schema where
  adds := fun _ => True
  alters := fun {t} r r' => Persists t r r'
  erases := fun {t} _ => t ∈ erasable

/-- A row outside the erasable tables is there in all later states, and stays
the same but for the columns that may be altered. -/
theorem rows_persist (hreach : Reachable (clients E requests s₀) w)
    (hlater : Reachable w w') {t : Table} (ht : t ∉ erasable) {k : Key}
    {r : Row t} (hr : (w.store t).lookup k = some r) :
    ∃ r', (w'.store t).lookup k = some r' ∧ Persists t r r' := by
  have hedits : anything.Edits ((w.store t).lookup k)
      ((w'.store t).lookup k) :=
    edits_of_reachable (fun p => follows_serve E (requests p))
      (fun _ _ _ _ => trivial) (fun _ _ _ _ h => h.2.1)
      (fun _ _ _ h => mem_erasable h) hreach hlater t k
  rw [hr] at hedits
  obtain ⟨r', hr', hchain⟩ := hedits.kept fun x hx => ht hx
  refine ⟨r', hr', ?_⟩
  clear hr' hedits
  induction hchain with
  | refl => exact .refl t r
  | tail _ hstep ih => exact ih.trans hstep

/-- The notification is there before and after Bob has read it. -/
theorem rows_persist_office :
    ∃ w w' n n', Reachable officeClients w ∧ Reachable w w' ∧
      (w.store .notifications).lookup (.id 75) = some n ∧
      (w'.store .notifications).lookup (.id 75) = some n' ∧
      Persists .notifications n n' := by
  have hrun : (officeClients.run assigningSteps).any (fun w =>
      ((w.store .notifications).lookup (.id 75)).isSome = true ∧
        (w.run readingSteps).any (fun w' => w'.log.length = 2) = true) =
      true := by
    decide +kernel
  obtain ⟨w, hreach, hsome, hread⟩ := exists_reachable hrun
  obtain ⟨w', hlater, _⟩ := exists_reachable hread
  obtain ⟨n, hn⟩ := Option.isSome_iff_exists.mp hsome
  obtain ⟨n', hn', hpersists⟩ := rows_persist hreach hlater (by decide) hn
  exact ⟨w, w', n, n', hreach, hlater, hn, hn', hpersists⟩

/-! ## Commits and answers -/

/-- A phase counts the commits that the client has observed. -/
theorem phase_commits (request : Request) (os : List (Obs schema)) :
    ((duty E request).phase {} os).commits = os.countP Obs.isCommit := by
  induction os with
  | nil => rfl
  | cons o os ih =>
      cases o with
      | answered c n =>
          rw [phase, List.countP_cons_of_neg (by simp [Obs.isCommit]), ← ih]
          cases c <;> rfl
      | committed =>
          rw [phase, List.countP_cons_of_pos rfl, ← ih]
          rfl
      | _ =>
          rw [List.countP_cons_of_neg (by simp [Obs.isCommit])]
          exact ih

theorem commits_eq_phase (hreach : Reachable (clients E requests s₀) w) :
    w.commits p =
      ((duty E (requests p)).phase {} (w.session p).seen).commits := by
  rw [phase_commits]
  exact World.commits_eq_observed hreach p

/-- A request that is not a dispatcher commits once at most. -/
theorem commits_le_one (hreach : Reachable (clients E requests s₀) w)
    (hoften : (requests p).commits ≠ .often) : w.commits p ≤ 1 := by
  induction hreach with
  | start => simp [World.commits, World.start]
  | @step w w' q x hprev hstep ih =>
      have hnext := hprev.step q x hstep
      rcases (change_of_advance hstep).log with ⟨hlog, _⟩ | ⟨_, hlog, _⟩
      · rwa [World.commits, hlog]
      · by_cases hq : q = p
        · subst q
          have hkeeps := (disciplined hnext).log (w.commitOf p)
            (hlog ▸ List.mem_cons_self)
          have hnone : w.commits p = 0 := by
            rw [commits_eq_phase hprev]
            exact hkeeps.commits.2.1.resolve_left hoften
          rw [World.commits, hlog, List.countP_cons]
          change w.commits p + _ ≤ 1
          rw [hnone]
          split <;> simp
        · have hpid : (w.commitOf q).pid ≠ p := hq
          rw [World.commits, hlog,
            List.countP_cons_of_neg (by simpa using hpid)]
          exact ih

/-- Every error is from the catalogue of its endpoint. -/
theorem errors_catalogued (hreach : Reachable (clients E requests s₀) w)
    {e : AppError} (he : (w.procs p).error = some e) :
    Catalogued e ∧ e.code ∈ (requests p).errors := by
  have hraises := (disciplined hreach).raised he
  exact ⟨hraises.1, hraises.2.1⟩

/-- Mallory is told that there is no such project. -/
theorem errors_catalogued_office :
    ∃ w e, Reachable officeClients w ∧ (w.procs 3).error = some e ∧
      Catalogued e ∧ e.code ∈ (officeRequests 3).errors := by
  have hrun : (officeClients.run (steps 3 [.go, .go])).any (fun w =>
      (w.procs 3).error.isSome = true) = true := by
    decide +kernel
  obtain ⟨w, hreach, hsome⟩ := exists_reachable hrun
  obtain ⟨e, herror⟩ := Option.isSome_iff_exists.mp hsome
  exact ⟨w, e, hreach, herror, errors_catalogued hreach herror⟩

end Runs

end Workstream.Application
