import Workstream.Modules.Auth.Router
import Workstream.Modules.Labels.Service
import Workstream.Modules.Organizations.Service
import Workstream.ReadCommitted.Undisturbed

/-!
# Uniqueness conflicts

Four endpoints insert a row whose name, key, slug or address has to be unique,
catch the integrity error of their `INSERT` and answer with a conflict.
`update_` of the label service writes to the same unique index and catches
nothing.
-/

namespace Workstream.Conflicts

open ReadCommitted World

inductive Request where
  | createOrganization (user : User) (body : Organizations.OrganizationCreate)
      (requestId : String)
  | createProject (organizationId : Uuid) (user : User)
      (body : Projects.ProjectCreate)
  | createLabel (organizationId : Uuid) (user : User)
      (body : Labels.LabelCreate)
  | updateLabel (organizationId labelId : Uuid) (user : User)
      (body : Labels.LabelCreate)
  | register (body : Auth.RegisterRequest) (client : Auth.Client)

def serve (H : TokenHash) : Request → Tx Unit
  | .createOrganization user body requestId => do
      let _ ← Organizations.create user body requestId
  | .createProject organizationId user body => do
      let _ ← Projects.createProject organizationId user body
  | .createLabel organizationId user body => do
      let _ ← Labels.create organizationId user body
  | .updateLabel organizationId labelId user body => do
      let _ ← Labels.update organizationId labelId user body
  | .register body client => do
      let _ ← Auth.register H body client

/-! ## What is promised -/

/-- A writer of the organization. -/
def Writer (O u : Uuid) (db : Db) : Prop :=
  ∃ m : Membership, (db .memberships).lookup (membershipKey O u) = some m ∧
    m.role ∈ [Role.owner, .admin, .member]

/-- The request is permitted, and the label that it names is there. -/
def Permitted (db : Db) : Request → Prop
  | .createOrganization _ _ _ => True
  | .createProject O user _ => Writer O user.id db
  | .createLabel O user _ => Writer O user.id db
  | .updateLabel O k user _ => Writer O user.id db ∧
      ∃ l : Label, (db .labels).lookup (.id k) = some l ∧ l.organizationId = O
  | .register _ _ => True

/-- Another row has what has to be unique in the row that the request
writes. -/
def Collides (db : Db) : Request → Prop
  | .createOrganization _ body _ =>
      ∃ o ∈ (db .organizations).rows, Organization.slug o = body.slug
  | .createProject O _ body =>
      ∃ p ∈ (db .projects).rows, Project.organizationId p = O ∧ p.key = body.key
  | .createLabel O _ body =>
      ∃ l ∈ (db .labels).rows, Label.organizationId l = O ∧ l.name = body.name
  | .updateLabel O k _ body =>
      ∃ l ∈ (db .labels).rows, Label.id l ≠ k ∧ l.organizationId = O ∧
        l.name = body.name
  | .register body _ =>
      ∃ u ∈ (db .users).rows, lower (User.email u) = lower body.email

def conflict : Request → AppError
  | .createOrganization _ _ _ => Organizations.slugConflict
  | .createProject _ _ _ => Projects.projectKeyConflict
  | .createLabel _ _ _ => Labels.labelNameConflict
  | .updateLabel _ _ _ _ => Labels.labelNameConflict
  | .register _ _ => Auth.emailAlreadyRegistered

/-- The row that the request writes is there. -/
def Stored (db : Db) : Request → Prop
  | .createOrganization _ body _ =>
      ∃ o ∈ (db .organizations).rows, Organization.slug o = body.slug ∧
        o.name = body.name
  | .createProject O _ body =>
      ∃ p ∈ (db .projects).rows, Project.organizationId p = O ∧
        p.key = body.key ∧ p.name = body.name ∧ p.description = body.description
  | .createLabel O _ body =>
      ∃ l ∈ (db .labels).rows, Label.organizationId l = O ∧
        l.name = body.name ∧ l.color = body.color
  | .updateLabel O k _ body => (db .labels).lookup (.id k) =
      some { id := k, organizationId := O, name := body.name
             color := body.color : Label }
  | .register body _ =>
      ∃ u ∈ (db .users).rows, User.email u = lower body.email ∧
        u.displayName = body.displayName

/-- A collision is answered with its conflict and changes nothing; without one
the row is stored. -/
def Reported (request : Request) (db : Db) (answer : Except AppError Unit)
    (db' : Db) : Prop :=
  (Collides db request → answer = .error (conflict request) ∧ db' = db) ∧
    (¬ Collides db request → answer = .ok () ∧ Stored db' request)

/-- The identifiers and tokens of the rows in `db` have been drawn before. -/
structure Drawn (H : TokenHash) (used : List ℕ) (db : Db) : Prop where
  ids : ∀ t n, (db t).lookup (.id n) ≠ none → n ∈ used
  members : ∀ m ∈ (db .memberships).rows, Membership.organizationId m ∈ used
  tokens : ∀ r ∈ (db .oneTimeTokens).rows, ∀ n,
    OneTimeToken.tokenHash r = H.hash n → n ∈ used

theorem Drawn.new {H : TokenHash} {used : List ℕ} {db : Db}
    (h : Drawn H used db) {t : Table} {n : ℕ} (hn : n ∉ used) :
    (db t).lookup (.id n) = none := by
  by_contra hold
  exact hn (h.ids t n hold)

theorem Drawn.mono {H : TokenHash} {used : List ℕ} {db : Db}
    (h : Drawn H used db) (n : ℕ) : Drawn H (n :: used) db where
  ids := fun t k hk => List.mem_cons_of_mem n (h.ids t k hk)
  members := fun m hm => List.mem_cons_of_mem n (h.members m hm)
  tokens := fun r hr k hk => List.mem_cons_of_mem n (h.tokens r hr k hk)

/-- The first row that a request writes is stored. -/
theorem mem_view_first {t : Table} {r : Row t} {ws : List (Write schema)}
    {db : Db} (hws : ∀ w ∈ ws, w.ref.1 ≠ t) :
    r ∈ (Store.view (.put t r :: ws) db t).rows :=
  Relation.mem_of_lookup (Store.lookup_view_put [] fun w hw href =>
    hws w hw (by rw [href]))

/-! ## Rules -/

section Rules

variable {α : Type} {Q : Except AppError α → Db → Prop} {G : Handler schema}
  {db : Db} {ws : List (Write schema)} {used : List ℕ} {H : TokenHash}

theorem conflict_none {t : Table} {r : Row t}
    (hnew : (db t).lookup (primaryKey t r) = none)
    (hunique : ∀ e ∈ uniqueEntries t r, ∀ x ∈ (db t).rows,
      e ∉ uniqueEntries t x) : db.conflict t r = none := by
  rw [Store.conflict_eq_clash hnew]
  exact Store.clash_eq_none_iff.mpr fun e he x hx hex =>
    absurd hex (hunique e he x hx)

/-- The insertion of a row that has a new identifier and one entry in a unique
index, which another row may have. -/
theorem yields_insertUnique_bind {t : Table} {r : Row t} {e : Key} {P : Prop}
    {f : Option Key → Tx α}
    (hnew : (db t).lookup (primaryKey t r) = none)
    (hunique : uniqueEntries t r = [e])
    (hP : P ↔ ∃ x ∈ (db t).rows, e ∈ uniqueEntries t x)
    (hsome : P → (f (some e)).Yields Q G db [] used)
    (hnone : ¬ P → (f none).Yields Q G db [.put t r] used) :
    (Prog.insertRow (σ := schema) t r >>= f).Yields Q G db [] used := by
  have hkeys := Relation.lookup_eq_none_iff.mp hnew
  by_cases hold : P
  · have hclash : (Store.view [] db).conflict (σ := schema) t r = some e := by
      obtain ⟨x, hx, he⟩ := hP.mp hold
      rw [Store.view_nil, Store.conflict_eq_clash hnew]
      change (uniqueEntries t r).find? _ = _
      rw [hunique, List.find?_singleton, if_pos]
      exact List.any_eq_true.mpr ⟨x, hx, decide_eq_true ⟨hkeys x hx, he⟩⟩
    rw [Prog.yields_insertRow_bind hclash]
    exact hsome hold
  · have hclash : (Store.view [] db).conflict (σ := schema) t r = none := by
      refine conflict_none hnew fun e' he' x hx hex => hold (hP.mpr ?_)
      rw [hunique] at he'
      exact ⟨x, hx, List.mem_singleton.mp he' ▸ hex⟩
    rw [Prog.yields_insertRow_bind hclash]
    exact hnone hold

/-- A writer passes `require_membership`. -/
theorem yields_writer_bind {O : Uuid} {user : User} {f : Membership → Tx α}
    (hwriter : Writer O user.id db) :
    ∃ m, (requireMembership O user.id [.owner, .admin, .member] >>= f).Yields Q
      G db [] used ↔ (f m).Yields Q G db [] used := by
  obtain ⟨m, hm, hrole⟩ := hwriter
  refine ⟨m, ?_⟩
  simp only [requireMembership, get, bind_assoc, pure_bind]
  rw [Prog.yields_select_bind, Store.view_nil, Prog.require_bind hm,
    Prog.ensure_bind (by simpa using hrole)]

/-- An audit event gets a new identifier. -/
theorem yields_audit_bind {actorId : Uuid} {organizationId : Option Uuid}
    {action entityType : String} {entityId : Uuid} {metadata : Metadata}
    {requestId : Option String} {f : Unit → Tx α}
    (hws : ∀ w ∈ ws, w.ref.1 ≠ Table.auditEvents)
    (hnew : ∀ n, n ∉ used → (db .auditEvents).lookup (.id n) = none)
    (h : ∀ event n, (f ()).Yields Q G db (ws ++ [.put .auditEvents event])
      (n :: used)) :
    (audit actorId organizationId action entityType entityId metadata
      requestId >>= f).Yields Q G db ws used := by
  simp only [audit, now, bind_assoc]
  rw [Prog.yields_freshId_bind]
  intro n hn
  rw [Prog.yields_callOut_bind]
  intro time
  rw [Prog.yields_insertOrHalt_bind]
  · exact h _ n
  · refine conflict_none ?_ (by simp [uniqueEntries])
    rw [Store.view_of_table_ne hws]
    exact hnew n hn

/-- The token and the event of a user get new identifiers. -/
theorem yields_issueToken_bind {user : User} {purpose : Purpose}
    {topic : String} {lifetime : Instant} {f : Unit → Tx α}
    (htokens : ∀ w ∈ ws, w.ref.1 ≠ Table.oneTimeTokens)
    (hevents : ∀ w ∈ ws, w.ref.1 ≠ Table.outboxEvents)
    (hdrawn : Drawn H used db)
    (h : ∀ token event raw n m, (f ()).Yields Q G db
      (ws ++ [.put .oneTimeTokens token] ++ [.put .outboxEvents event])
      (m :: n :: raw :: used)) :
    (Auth.issueToken H user purpose topic lifetime >>= f).Yields Q G db ws
      used := by
  simp only [Auth.issueToken, now, bind_assoc]
  rw [Prog.yields_freshId_bind]
  intro raw hraw
  rw [Prog.yields_callOut_bind]
  intro time
  rw [Prog.yields_freshId_bind]
  intro n hn
  rw [Prog.yields_insertOrHalt_bind]
  · rw [Prog.yields_freshId_bind]
    intro m hm
    rw [Prog.yields_callOut_bind]
    intro occurredAt
    rw [Prog.yields_insertOrHalt_bind]
    · exact h _ _ raw n m
    · refine conflict_none ?_ (by simp [uniqueEntries])
      rw [Store.view_of_table_ne]
      · by_contra hold
        have hused := hdrawn.ids _ m hold
        simp [hused] at hm
      · intro w hw
        rcases List.mem_append.mp hw with hw | hw
        · exact hevents w hw
        · rw [List.mem_singleton.mp hw]
          simp [Write.ref]
  · refine conflict_none ?_ ?_
    · rw [Store.view_of_table_ne htokens]
      by_contra hold
      have hused := hdrawn.ids _ n hold
      simp [hused] at hn
    · rw [Store.view_of_table_ne htokens]
      intro e he x hx hex
      have hhash : OneTimeToken.tokenHash x = H.hash raw := by
        simp only [uniqueEntries, List.mem_singleton] at he hex
        exact Key.tokenHash.inj (hex.symm.trans he)
      exact hraw (hdrawn.tokens x hx raw hhash)

end Rules

/-! ## Endpoints -/

section Endpoints

variable {H : TokenHash} {db : Db} {used : List ℕ}

theorem yields_createOrganization {user : User}
    {body : Organizations.OrganizationCreate} {requestId : String}
    (hdrawn : Drawn H used db) :
    (serve H (.createOrganization user body requestId)).Yields
      (Reported (.createOrganization user body requestId) db) none db [] used := by
  simp only [serve, Organizations.create, now, bind_assoc]
  rw [Prog.yields_freshId_bind]
  intro id hid
  rw [Prog.yields_callOut_bind]
  intro createdAt
  rw [Prog.yields_callOut_bind]
  intro updatedAt
  have hcollides : Collides db (.createOrganization user body requestId) ↔
      ∃ o ∈ (db .organizations).rows,
        Key.slug body.slug ∈ uniqueEntries .organizations o := by
    simp [Collides, uniqueEntries, eq_comm]
  refine yields_insertUnique_bind (hdrawn.new hid) rfl hcollides
    (fun hc => ⟨fun _ => ⟨rfl, rfl⟩, fun hnot => absurd hc hnot⟩) fun hc => ?_
  simp only [bind_assoc]
  rw [Prog.yields_insertOrHalt_bind]
  · refine yields_audit_bind (by simp [Write.ref]) (fun n hn => ?_)
      fun event n => ?_
    · refine hdrawn.new fun hused => hn (List.mem_cons_of_mem _ hused)
    · exact ⟨fun hc' => absurd hc' hc,
        fun _ => ⟨rfl, _, mem_view_first (by simp [Write.ref]), rfl, rfl⟩⟩
  · refine conflict_none ?_ (by simp [uniqueEntries])
    rw [Store.view_of_table_ne (by simp [Write.ref])]
    refine Relation.lookup_eq_none_iff.mpr fun m hm hkey => hid ?_
    have hpair : Key.pair m.organizationId m.userId = .pair id user.id := hkey
    exact (Key.pair.inj hpair).1 ▸ hdrawn.members m hm

theorem yields_createProject {O : Uuid} {user : User}
    {body : Projects.ProjectCreate} (hdrawn : Drawn H used db)
    (hpermitted : Permitted db (.createProject O user body)) :
    (serve H (.createProject O user body)).Yields
      (Reported (.createProject O user body) db) none db [] used := by
  simp only [serve, Projects.createProject, now, bind_assoc]
  obtain ⟨m, hwriter⟩ := yields_writer_bind hpermitted
  rw [hwriter, Prog.yields_freshId_bind]
  intro id hid
  rw [Prog.yields_callOut_bind]
  intro createdAt
  have hcollides : Collides db (.createProject O user body) ↔
      ∃ p ∈ (db .projects).rows,
        Key.projectKey O body.key ∈ uniqueEntries .projects p := by
    simp [Collides, uniqueEntries, eq_comm]
  refine yields_insertUnique_bind (hdrawn.new hid) rfl hcollides
    (fun hc => ⟨fun _ => ⟨rfl, rfl⟩, fun hnot => absurd hc hnot⟩) fun hc => ?_
  simp only [bind_assoc]
  refine yields_audit_bind (by simp [Write.ref]) (fun n hn => ?_)
    fun event n => ?_
  · exact hdrawn.new fun hused => hn (List.mem_cons_of_mem _ hused)
  · exact ⟨fun hc' => absurd hc' hc, fun _ =>
      ⟨rfl, _, mem_view_first (by simp [Write.ref]), rfl, rfl, rfl, rfl⟩⟩

theorem yields_createLabel {O : Uuid} {user : User} {body : Labels.LabelCreate}
    (hdrawn : Drawn H used db)
    (hpermitted : Permitted db (.createLabel O user body)) :
    (serve H (.createLabel O user body)).Yields
      (Reported (.createLabel O user body) db) none db [] used := by
  simp only [serve, Labels.create, bind_assoc]
  obtain ⟨m, hwriter⟩ := yields_writer_bind hpermitted
  rw [hwriter, Prog.yields_freshId_bind]
  intro id hid
  have hcollides : Collides db (.createLabel O user body) ↔
      ∃ l ∈ (db .labels).rows,
        Key.labelName O body.name ∈ uniqueEntries .labels l := by
    simp [Collides, uniqueEntries, eq_comm]
  refine yields_insertUnique_bind (hdrawn.new hid) rfl hcollides
    (fun hc => ⟨fun _ => ⟨rfl, rfl⟩, fun hnot => absurd hc hnot⟩) fun hc => ?_
  exact ⟨fun hc' => absurd hc' hc, fun _ =>
    ⟨rfl, _, mem_view_first (by simp), rfl, rfl, rfl⟩⟩

theorem flush_eq (body : Labels.LabelCreate) (l : Label) :
    body.flush l l = { l with name := body.name, color := body.color } := by
  simp only [Labels.LabelCreate.flush, Label.mk.injEq, true_and]
  constructor
  · split <;> simp [*]
  · split <;> simp [*]

/-- The new version of a label clashes with the other labels of its name. -/
theorem clash_updateLabel {O k : Uuid} {user : User} {body : Labels.LabelCreate}
    {l : Label} (hid : l.id = k) (hO : l.organizationId = O) :
    db.clash (σ := schema) .labels
      { l with name := body.name, color := body.color } = none ↔
      ¬ Collides db (.updateLabel O k user body) := by
  subst hid hO
  rw [Store.clash_eq_none_iff]
  constructor
  · rintro hclash ⟨x, hx, hother, hO, hname⟩
    have hkey : Key.id x.id = .id l.id :=
      hclash (.labelName l.organizationId body.name) List.mem_cons_self x hx (by
        rw [← hO, ← hname]
        exact List.mem_cons_self)
    exact hother (Key.id.inj hkey)
  · intro hnone e he x hx hex
    obtain rfl := List.mem_singleton.mp he
    obtain ⟨hO, hname⟩ := Key.labelName.inj (List.mem_singleton.mp hex)
    by_contra hkey
    exact hnone ⟨x, hx, fun hid => hkey (congrArg Key.id hid), hO.symm,
      hname.symm⟩

/-- A label is changed, unless its new name is the name of another one. -/
theorem yields_updateLabel {O k : Uuid} {user : User}
    {body : Labels.LabelCreate} (hunique : db.Unique)
    (hpermitted : Permitted db (.updateLabel O k user body)) :
    (serve H (.updateLabel O k user body)).Yields
      (Reported (.updateLabel O k user body) db) none db [] used ↔
      ¬ Collides db (.updateLabel O k user body) := by
  obtain ⟨hmember, l, hl, hO⟩ := hpermitted
  have hid : l.id = k := Key.id.inj (Relation.key_of_lookup hl)
  have hrows : ((db .labels).rows.filter fun x : Label =>
      x.id = k ∧ x.organizationId = O) = [l] := by
    refine eq_singleton ((db .labels).nodup_rows.filter _) fun x => ?_
    rw [List.mem_filter, decide_eq_true_eq]
    constructor
    · rintro ⟨hx, hxk, -⟩
      refine (db .labels).eq_of_key_eq hx (Relation.mem_of_lookup hl) ?_
      exact congrArg Key.id (hxk.trans hid.symm)
    · rintro rfl
      exact ⟨Relation.mem_of_lookup hl, hid, hO⟩
  have hclash : db.clash (σ := schema) .labels
      { l with name := body.name, color := body.color } = none ↔
      ¬ Collides db (.updateLabel O k user body) :=
    clash_updateLabel hid hO
  simp only [serve, Labels.update, Labels.get, bind_assoc]
  obtain ⟨m, hwriter⟩ := yields_writer_bind hmember
  rw [hwriter, Prog.yields_select_bind, Store.view_nil, hrows]
  simp only [scalarOneOrNone, pure_bind]
  rw [Prog.require_bind rfl]
  by_cases hsame : body.name = l.name ∧ body.color = l.color
  · rw [if_pos hsame, pure_bind, Prog.yields_commitNow_bind]
    have hrow : l = { l with name := body.name, color := body.color } := by
      rw [hsame.1, hsame.2]
    have hnone : ¬ Collides db (.updateLabel O k user body) := by
      refine hclash.mp (Store.clash_eq_none_iff.mpr fun e he x hx hex => ?_)
      exact hunique .labels x hx l (Relation.mem_of_lookup hl) e hex
        (hrow ▸ he)
    refine iff_of_true ⟨fun hc => absurd hc hnone, fun _ => ⟨rfl, ?_⟩⟩ hnone
    change (db .labels).lookup (.id k) = _
    rw [hl, hrow, hid, hO]
  · have hrow : (Store.view [] db .labels).lookup (.id l.id) = some l :=
      hid ▸ hl
    rw [if_neg hsame, Prog.yields_updateKey_bind (σ := schema) (t := .labels)
      (g := body.flush l) hrow rfl, flush_eq, Store.view_nil]
    by_cases hc : Collides db (.updateLabel O k user body)
    · rw [if_neg fun hnone => hclash.mp hnone hc]
      exact iff_of_false id (not_not.mpr hc)
    · rw [if_pos (hclash.mpr hc)]
      refine iff_of_true ⟨fun hc' => absurd hc' hc, fun _ => ⟨rfl, ?_⟩⟩ hc
      subst hid hO
      exact Store.lookup_view_put (σ := schema) (t := .labels) []
        fun w hw => absurd hw List.not_mem_nil

theorem yields_register {body : Auth.RegisterRequest} {client : Auth.Client}
    (hdrawn : Drawn H used db) :
    (serve H (.register body client)).Yields
      (Reported (.register body client) db) none db [] used := by
  simp only [serve, Auth.register, bind_assoc]
  rw [Prog.yields_callOut_bind]
  intro passwordHash
  rw [Prog.yields_freshId_bind]
  intro id hid
  have hcollides : Collides db (.register body client) ↔
      ∃ u ∈ (db .users).rows,
        Key.email (lower (lower body.email)) ∈ uniqueEntries .users u := by
    simp [Collides, uniqueEntries, eq_comm, lower_lower]
  refine yields_insertUnique_bind (hdrawn.new hid) rfl hcollides
    (fun hc => ⟨fun _ => ⟨rfl, rfl⟩, fun hnot => absurd hc hnot⟩) fun hc => ?_
  simp only [bind_assoc]
  refine yields_issueToken_bind (by simp [Write.ref]) (by simp [Write.ref])
    (hdrawn.mono id) fun token event raw n m => ?_
  refine yields_audit_bind (by simp [Write.ref]) (fun k hk => ?_)
    fun event' k => ?_
  · refine hdrawn.new fun hused => hk ?_
    simp [hused]
  · exact ⟨fun hc' => absurd hc' hc, fun _ =>
      ⟨rfl, _, mem_view_first (by simp [Write.ref]), rfl, rfl⟩⟩

end Endpoints

/-! ## Every endpoint -/

/-- A new name for a label. -/
def Request.updatesLabel : Request → Bool
  | .updateLabel _ _ _ _ => true
  | _ => false

/-- Conflicts are reported on every path but one: nobody catches the error of
a label that takes the name of another one. -/
theorem conflicts_reported {H : TokenHash} {request : Request} {db : Db}
    {used : List ℕ} (hunique : db.Unique) (hdrawn : Drawn H used db)
    (hpermitted : Permitted db request) :
    Ends (Reported request db) (alone used db (serve H request)) ↔
      ¬ (request.updatesLabel = true ∧ Collides db request) := by
  rw [ends_iff_yields]
  cases request with
  | createOrganization user body requestId =>
      exact iff_of_true (yields_createOrganization hdrawn)
        (by simp [Request.updatesLabel])
  | createProject O user body =>
      exact iff_of_true (yields_createProject hdrawn hpermitted)
        (by simp [Request.updatesLabel])
  | createLabel O user body =>
      exact iff_of_true (yields_createLabel hdrawn hpermitted)
        (by simp [Request.updatesLabel])
  | updateLabel O k user body =>
      rw [yields_updateLabel hunique hpermitted]
      simp [Request.updatesLabel]
  | register body client =>
      exact iff_of_true (yields_register hdrawn)
        (by simp [Request.updatesLabel])

/-! ## Requests on given inputs -/

def alice : User where
  id := 1
  email := "alice@example.org"
  passwordHash := 0
  displayName := "Alice"

/-- An organization with two labels. -/
def twoLabels : Db :=
  Store.view (σ := schema)
    [.put .memberships { organizationId := 2, userId := 1, role := .owner },
      .put .labels
        { id := 3, organizationId := 2, name := "Bug", color := "#112233" },
      .put .labels
        { id := 4, organizationId := 2, name := "Chore", color := "#112233" }]
    (Store.empty schema)

def chore : Labels.LabelCreate where
  name := "Chore"
  color := "#112233"

theorem permitted_twoLabels :
    Permitted twoLabels (.updateLabel 2 3 alice chore) ∧
      Permitted twoLabels (.createLabel 2 alice chore) := by
  have hwriter : Writer 2 1 twoLabels :=
    ⟨{ organizationId := 2, userId := 1, role := .owner }, by decide +kernel,
      by decide⟩
  exact ⟨⟨hwriter, { id := 3, organizationId := 2, name := "Bug"
                     color := "#112233" }, by decide +kernel, rfl⟩, hwriter⟩

theorem unique_twoLabels : twoLabels.Unique := by
  intro t x hx y hy e hex hey
  cases t with
  | labels =>
      have hall : ∀ x ∈ (twoLabels .labels).rows,
          ∀ y ∈ (twoLabels .labels).rows, ∀ e ∈ uniqueEntries .labels x,
            e ∈ uniqueEntries .labels y → Label.id x = Label.id y := by
        decide +kernel
      exact congrArg Key.id (hall x hx y hy e hex hey)
  | memberships => cases hex
  | _ => cases hx

theorem drawn_twoLabels : Drawn plainHash [2, 3, 4] twoLabels where
  ids := by
    intro t n hn
    obtain ⟨r, hr⟩ := Option.ne_none_iff_exists'.mp hn
    have hmem := Relation.mem_of_lookup hr
    have hkey := Relation.key_of_lookup hr
    cases t with
    | labels =>
        have hall : ∀ l ∈ (twoLabels .labels).rows, Label.id l ∈ [2, 3, 4] := by
          decide +kernel
        exact Key.id.inj hkey ▸ hall r hmem
    | memberships => cases hkey
    | _ => cases hmem
  members := by decide +kernel
  tokens := by
    intro r hr
    cases hr

theorem conflicts_reported_twoLabels :
    Ends (Reported (.createLabel 2 alice chore) twoLabels)
      (alone [2, 3, 4] twoLabels
        (serve plainHash (.createLabel 2 alice chore))) :=
  (conflicts_reported unique_twoLabels drawn_twoLabels
    permitted_twoLabels.2).mpr (by simp [Request.updatesLabel])

/-- The label that takes the name of another one ends in an error that nobody
answers. -/
theorem rename_unanswered :
    ¬ Ends (Reported (.updateLabel 2 3 alice chore) twoLabels)
      (alone [2, 3, 4] twoLabels
        (serve plainHash (.updateLabel 2 3 alice chore))) := by
  rw [ends_iff_yields, yields_updateLabel unique_twoLabels
    permitted_twoLabels.1, not_not]
  exact ⟨{ id := 4, organizationId := 2, name := "Chore", color := "#112233" },
    by decide +kernel, by decide, rfl, rfl⟩

end Workstream.Conflicts
