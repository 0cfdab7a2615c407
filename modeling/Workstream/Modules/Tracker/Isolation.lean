import Workstream.Modules.Tracker.Strangers

/-!
# Isolation of the tenants

Two stores that differ only in the rows of one organization answer a user
without a membership in it alike, and his requests leave these rows alone.
-/

namespace Workstream.Tracker

open ReadCommitted World Organizations

/-- A store that requests can leave, from a start without any issues. -/
def Arises (H : TokenHash) (db : Db) : Prop :=
  ∃ requests s₀ x, Vacant s₀ ∧ s₀.Unique ∧
    Reachable (clients H requests s₀) x ∧ x.store = db

theorem Arises.tenancy {H : TokenHash} {db : Db} (h : Arises H db) :
    Tenancy db := by
  obtain ⟨requests, s₀, x, hs₀, _, hreach, rfl⟩ := h
  exact (organizations_apart hs₀ hreach).1

theorem Arises.unique {H : TokenHash} {db : Db} (h : Arises H db) :
    db.Unique := by
  obtain ⟨requests, s₀, x, _, hunique, hreach, rfl⟩ := h
  exact (indexed_of_reachable hunique hreach).store

section Isolation

variable {A : Deployment} {O : Uuid} {s s' : Db} {used : List ℕ}

/-- Whatever a stranger asks for, and whatever identifiers he has got hold of,
the two stores answer alike, and go on to differ in the same rows. -/
theorem tenants_isolated (hs : Arises A.tokens s) (hs' : Arises A.tokens s')
    (hO : Registered s O) (hdiffer : DifferOnlyIn O s s')
    (hdealt : Dealt A.tokens used s) (hdealt' : Dealt A.tokens used s')
    {u : Uuid} (hu : (s .memberships).lookup (membershipKey O u) = none)
    (hu' : (s' .memberships).lookup (membershipKey O u) = none)
    {endpoint : Endpoint} (haccepts : ¬endpoint.Accepts A.tokens O s)
    (haccepts' : ¬endpoint.Accepts A.tokens O s') {client : Auth.Client}
    {sessionId : Uuid} {inputs : List (Input schema)}
    {w : World schema AppError Answer}
    (hrun : (alone used s (endpoint.serve A client
      (.claims u sessionId))).run (steps 0 inputs) = some w) :
    ∃ w', (alone used s' (endpoint.serve A client
        (.claims u sessionId))).run (steps 0 inputs) = some w' ∧
      (w'.procs 0).answer = (w.procs 0).answer ∧
      DifferOnlyIn O w.store w'.store ∧
      (∀ t, tenantRows O w.store t = tenantRows O s t) ∧
      ∀ t, tenantRows O w'.store t = tenantRows O s' t := by
  let B : Divide A.tokens :=
    { organization := O, left := s, right := s', used, registered := hO
      differ := hdiffer, tenancy := hs.tenancy, tenancy' := hs'.tenancy
      unique := hs.unique, unique' := hs'.unique, dealt := hdealt
      dealt' := hdealt' }
  have hstranger : B.Stranger u := ⟨hu, hu'⟩
  have hblind : B.Blind (endpoint.serve A client (.claims u sessionId)) :=
    Divide.blind_serve hstranger haccepts haccepts'
  obtain ⟨w', hrun', hanswer, halign⟩ :=
    run_alike hblind Divide.aligned (fun _ hn => hn) hrun
  refine ⟨w', hrun', hanswer, Divide.differ_of_aligned halign, ?_, ?_⟩
  · exact fun t => Divide.tenantRows_kept (Or.inl rfl) halign.kept
  · exact fun t => Divide.tenantRows_kept (Or.inr rfl) halign.kept'

end Isolation

/-! ## A project out of sight -/

def tables : List Table :=
  [.users, .organizations, .memberships, .invitations, .projects, .issues,
    .labels, .issueLabels, .comments, .notifications, .auditEvents,
    .authSessions, .oneTimeTokens, .outboxEvents]

theorem mem_tables (t : Table) : t ∈ tables := by
  cases t <;> decide

/-- A key that names no identifier outside of `used`. -/
def dealtKey (used : List ℕ) : Key → Bool
  | .id n => n ∈ used
  | _ => true

theorem dealt_of_tables {H : TokenHash} {used : List ℕ} {db : Db}
    (hkeys : ∀ t ∈ tables, ∀ r ∈ (db t).rows, dealtKey used (primaryKey t r))
    (hinvitations : (db .invitations).rows = []) : Dealt H used db where
  ids := by
    intro t n hn
    obtain ⟨r, hr⟩ := Option.ne_none_iff_exists'.mp hn
    have hkey := hkeys t (mem_tables t) r (Relation.mem_of_lookup hr)
    rw [show primaryKey t r = .id n from Relation.key_of_lookup hr] at hkey
    exact of_decide_eq_true hkey
  tokens := by
    rw [hinvitations]
    exact fun x hx => absurd hx List.not_mem_nil

def mallory : User where
  id := 3
  email := "mallory@example.org"
  passwordHash := 0
  displayName := "Mallory"

/-- Bob's organization and Mallory's, who is logged in. -/
def twoTeams : Db :=
  Store.view (σ := schema)
    [.put .users bob, .put .users mallory,
      .put .organizations
        { id := 10, name := "Team", slug := "team", createdAt := 0
          updatedAt := 0 },
      .put .organizations
        { id := 11, name := "Rivals", slug := "rivals", createdAt := 0
          updatedAt := 0 },
      .put .memberships { organizationId := 10, userId := 1, role := .owner },
      .put .memberships { organizationId := 11, userId := 3, role := .owner },
      .put .authSessions
        { id := 30, userId := 3, familyId := 31, refreshTokenHash := 32
          createdAt := 0, expiresAt := 1000 }]
    (Store.empty schema)

theorem vacant_twoTeams : Vacant twoTeams where
  projects := rfl
  issues := rfl
  labels := rfl
  issueLabels := rfl
  comments := rfl
  notifications := rfl

theorem unique_twoTeams : twoTeams.Unique := by
  intro t x hx y hy e hex hey
  have hall : ∀ t ∈ tables, ∀ x ∈ (twoTeams t).rows, ∀ y ∈ (twoTeams t).rows,
      ∀ e ∈ uniqueEntries t x, e ∈ uniqueEntries t y →
        primaryKey t x = primaryKey t y := by
    decide +kernel
  exact hall t (mem_tables t) x hx y hy e hex hey

/-- Bob creates a project. -/
def bobsProject : Request :=
  .issue (.createProject 10 bob { name := "Board", key := "BRD" })

def bobsSteps : List (Pid × Input schema) :=
  steps 0 [.go, .value 50, .value 100, .go, .value 51, .value 100, .go, .go]

theorem codePoints_trans (a b c : String) (hab : decide (a ≤ b) = true)
    (hbc : decide (b ≤ c) = true) : decide (a ≤ c) = true :=
  decide_eq_true (Std.le_trans (of_decide_eq_true hab) (of_decide_eq_true hbc))

theorem codePoints_total (a b : String) :
    (decide (a ≤ b) || decide (b ≤ a)) = true := by
  simpa using Std.le_total (a := a) (b := b)

def deployment : Deployment where
  tokens := plainHash
  platform := libraries
  collation :=
    { le := fun a b => a ≤ b, trans := codePoints_trans
      total := codePoints_total }
  settings := {}

/-- Mallory wants an issue of her organization to be in Bob's project. -/
def malloryRequest : Tx Answer :=
  Endpoint.serve deployment ⟨none, none, "request"⟩ (.claims 3 31)
    (.createIssue 11 { projectId := 50, title := "Peek" })

/-- The identifiers of Bob and Mallory and their rows. -/
def dealtIds : List ℕ := [1, 3, 10, 11, 30, 31, 50, 51]

/-- She is not told whether there is one. -/
theorem tenants_isolated_mallory :
    ∃ x w w', Reachable (clients plainHash (fun _ => bobsProject) twoTeams) x ∧
      ((x.store .projects).lookup (.id 50)).isSome = true ∧
      (alone dealtIds twoTeams malloryRequest).run
        (steps 0 [.go, .go, .go]) = some w ∧
      (w.procs 0).error = some (notFound "Project not found") ∧
      (alone dealtIds x.store malloryRequest).run
        (steps 0 [.go, .go, .go]) = some w' ∧
      (w'.procs 0).answer = (w.procs 0).answer ∧
      DifferOnlyIn 10 w.store w'.store ∧
      (∀ t, tenantRows 10 w.store t = tenantRows 10 twoTeams t) ∧
      ∀ t, tenantRows 10 w'.store t = tenantRows 10 x.store t := by
  have hbob : ((clients plainHash (fun _ => bobsProject) twoTeams).run
      bobsSteps).any (fun x => ((x.store .projects).lookup (.id 50)).isSome ∧
        (∀ t ∈ tables, otherRows 10 x.store t = otherRows 10 twoTeams t) ∧
        (x.store .organizations).rows = (twoTeams .organizations).rows ∧
        (∀ t ∈ tables, ∀ r ∈ (x.store t).rows,
          dealtKey dealtIds (primaryKey t r)) ∧
        (x.store .invitations).rows = [] ∧
        (x.store .memberships).lookup (membershipKey 10 3) = none) = true := by
    decide +kernel
  have hmallory : ((alone dealtIds twoTeams malloryRequest).run
      (steps 0 [.go, .go, .go])).any (fun w =>
        (w.procs 0).error = some (notFound "Project not found")) = true := by
    decide +kernel
  have hdealt : Dealt plainHash dealtIds twoTeams :=
    dealt_of_tables (by decide +kernel) rfl
  obtain ⟨x, hreach, hproject, hothers, horganizations, hkeys, hinvitations,
    hmember⟩ := exists_reachable hbob
  obtain ⟨w, hrun, herror⟩ := (Option.any_eq_true _ _).mp hmallory
  obtain ⟨w', hrun', hanswer, hdiffer, hkept, hkept'⟩ := tenants_isolated
    (A := deployment) (O := 10) (u := 3)
    ⟨fun _ => bobsProject, twoTeams, _, vacant_twoTeams, unique_twoTeams,
      .start, rfl⟩
    ⟨_, twoTeams, x, vacant_twoTeams, unique_twoTeams, hreach, rfl⟩
    ⟨_, rfl⟩ ⟨fun t => hothers t (mem_tables t), Relation.ext horganizations⟩
    hdealt (dealt_of_tables hkeys hinvitations) (by decide +kernel) hmember
    id id hrun
  exact ⟨x, w, w', hreach, hproject, hrun, of_decide_eq_true herror, hrun',
    hanswer, hdiffer, hkept, hkept'⟩

end Workstream.Tracker
