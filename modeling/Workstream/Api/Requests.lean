import Workstream.Api.Dependencies
import Workstream.ReadCommitted.Requests

/-!
# What the commits of the endpoints have in common

Almost every endpoint checks a membership first and adds an audit event last.
The check reads a past store, on which nothing is locked; the event is new in
the store on which it is committed.
-/

namespace Workstream

open ReadCommitted Contract

/-- The actor's membership `m`, as some past store has it, has one of
`roles`. -/
def Permitted (past : List schema.Ref → Db → Prop)
    (organizationId userId : Uuid) (roles : List Role) (m : Membership) :
    Prop :=
  m.role ∈ roles ∧ ∃ db, past [] db ∧
    (db .memberships).lookup (membershipKey organizationId userId) = some m

/-- `event` records an action and is not in `db` yet. -/
structure Audited (db : Db) (actorId organizationId : Uuid)
    (action entityType : String) (entityId : Uuid) (metadata : Metadata)
    (event : AuditEvent) : Prop where
  new : (db .auditEvents).lookup (.id event.id) = none
  actor : event.actorId = some actorId
  organization : event.organizationId = some organizationId
  action : event.action = action
  entityType : event.entityType = entityType
  entity : event.entityId = some entityId
  metadata : event.metadata = metadata

/-! ## Rows -/

section Rows

variable {t : Table} {k j : Key} {c : Commit schema} {s : Db}

/-- A row that a commit writes once, and no other one in its place. -/
theorem lookup_after_put {r : Row t} (vs : List (Write schema))
    {ws : List (Write schema)}
    (hwrites : c.session.writes = vs ++ .put t r :: ws)
    (hws : ∀ w ∈ ws, w.ref ≠ (t, primaryKey t r)) :
    (c.after t).lookup (primaryKey t r) = some r := by
  unfold Commit.after Session.view
  rw [hwrites]
  exact Store.lookup_view_put vs hws

theorem lookup_after_of_writes
    (h : ∀ w ∈ c.session.writes, w.ref ≠ (t, k)) :
    (c.after t).lookup k = (c.before t).lookup k :=
  Store.lookup_view_of_not_mem h

/-- A row after a commit was there before it, or is written. -/
theorem after_cases {r : Row t} (h : (c.after t).lookup k = some r) :
    (c.before t).lookup k = some r ∨ .put t r ∈ c.session.writes :=
  Store.lookup_view_cases h

/-- A row that a commit adds is written. -/
theorem put_of_added {r : Row t} (hnew : (c.before t).lookup k = none)
    (h : (c.after t).lookup k = some r) : .put t r ∈ c.session.writes := by
  rcases after_cases h with hold | hput
  · rw [hnew] at hold
    cases hold
  · exact hput

/-- A row that is gone after a commit was so before it, or is deleted. -/
theorem after_none (h : (c.after t).lookup k = none) :
    (c.before t).lookup k = none ∨ .del t k ∈ c.session.writes :=
  Store.lookup_view_none h

/-- A row that a commit deletes, and does not put back. -/
theorem after_of_del (hdel : .del t k ∈ c.session.writes)
    (hput : ∀ r, .put t r ∈ c.session.writes → primaryKey t r ≠ k) :
    (c.after t).lookup k = none := by
  by_contra hsome
  obtain ⟨r, hr⟩ := Option.ne_none_iff_exists'.mp hsome
  have hview : (c.after t).lookup k =
      (Store.view c.session.writes (Store.empty schema) t).lookup k :=
    Store.lookup_view_of_mem _ _ ⟨_, hdel, rfl⟩
  rw [hr] at hview
  rcases Store.lookup_view_cases hview.symm with hempty | hmem
  · cases hempty
  · exact hput r hmem (Relation.key_of_lookup hr)

/-- A row that is new is not one that is there. -/
theorem ne_of_lookup {x : Row t}
    (hnew : (s t).lookup j = none) (hx : (s t).lookup k = some x) : j ≠ k := by
  rintro rfl
  rw [hnew] at hx
  cases hx

/-- A write with the key of a row that is there is a write of that row. -/
theorem eq_of_put_ref {r r' x : Row t}
    (hr : (s t).lookup j = some r)
    (hkey : primaryKey t r' = primaryKey t r)
    (href : Write.ref (.put (σ := schema) t r') = (t, k))
    (hx : (s t).lookup k = some x) : x = r := by
  have hk : primaryKey t r' = k := (Prod.mk.inj href).2
  have hj : primaryKey t r = j := Relation.key_of_lookup hr
  rw [← hk, hkey, hj, hr] at hx
  exact (Option.some.inj hx).symm

/-- A row stays, with its `g`, if every write of it is a `put` that agrees on
`g`. -/
theorem lookup_put_keeps {β : Type} {ws : List (Write schema)}
    (g : Row t → β) {x : Row t}
    (hws : ∀ w ∈ ws, w.ref = (t, k) → ∃ r, w = .put t r ∧ g r = g x)
    (hx : (s t).lookup k = some x) :
    ∃ y, (Store.view ws s t).lookup k = some y ∧ g y = g x := by
  by_cases hmem : ∃ w ∈ ws, w.ref = (t, k)
  · have hput : ∀ w ∈ ws, w.ref = (t, k) → ∃ r, w = .put t r := by
      intro w hw href
      obtain ⟨r, hr, _⟩ := hws w hw href
      exact ⟨r, hr⟩
    obtain ⟨y, hy, hkey, hlook⟩ := Store.lookup_view_last (s := s) hput hmem
    obtain ⟨r, hr, hg⟩ := hws _ hy (congrArg (Prod.mk t) hkey)
    obtain rfl : y = r := eq_of_heq (Write.put.inj hr).2
    exact ⟨y, hlook, hg⟩
  · push Not at hmem
    exact ⟨x, (Store.lookup_view_of_not_mem hmem).trans hx, rfl⟩

/-- A commit that writes nothing but new rows keeps the old ones. -/
theorem lookup_after_of_new {x : Row t}
    (hnew : ∀ w ∈ c.session.writes, w.ref.1 = t →
      (c.before t).lookup w.ref.2 = none)
    (hx : (c.before t).lookup k = some x) : (c.after t).lookup k = some x := by
  rw [lookup_after_of_writes, hx]
  intro w hw href
  have hnone := hnew w hw (by rw [href])
  rw [href, hx] at hnone
  cases hnone

/-- The commit adds a row. -/
def Added (c : Commit schema) (t : Table) (k : Key) : Prop :=
  (c.before t).lookup k = none ∧ (c.after t).lookup k ≠ none

theorem Added.written (h : Added c t k) :
    ∃ w ∈ c.session.writes, w.ref = (t, k) := by
  by_contra hnot
  push Not at hnot
  exact h.2 ((lookup_after_of_writes hnot).trans h.1)

end Rows

/-! ## Clocks -/

/-- The first answer of the clock, if it is the first call of all: what
`accept` and the endpoints for one-time tokens compare with the expiry. -/
def readNow (c : Commit schema) : Option Instant :=
  match c.session.calls.getLast? with
  | some (.answered .now τ) => some τ
  | _ => none

theorem readNow_eq {c : Commit schema} {l l' : Local schema} {τ : Instant}
    {ws : List (Write schema)} (hc : c.session = l'.session)
    (hg : Grows (l.observe (.answered .now τ)) l' ws)
    (hcalls : l.session.calls = []) : readNow c = some τ := by
  have hlast : (l.session.observe (.answered Call.now τ)).calls =
      [.answered Call.now τ] := by
    rw [Session.calls_observe _ rfl, hcalls]
  obtain ⟨pre, hpre⟩ := hg.seen.filter fun o => !o.isRead
  have hseen : c.session.calls = pre ++ [.answered Call.now τ] := by
    rw [hc, ← hlast]
    exact hpre.symm
  simp [readNow, hseen]

section Rules

variable {α : Type} {C : Contract schema} {p : Pid}
  {Q : α → Local schema → Shared schema → Prop}
  {E : AppError → Local schema → Shared schema → Prop}
  {l : Local schema} {s : Shared schema}

theorem contains_of_permitted {roles : List Role} {m : Membership}
    (hroles : roles ≠ []) (h : (roles.isEmpty || roles.contains m.role) = true) :
    m.role ∈ roles := by
  cases roles with
  | nil => exact absurd rfl hroles
  | cons => simpa using h

/-- The permission check of a request. -/
theorem wp_permitted_bind {organizationId userId : Uuid} {roles : List Role}
    {f : Membership → Tx α} (hroles : roles ≠ [])
    (h : ∀ m l' s', C.Along p l s [] l' s' → C.inv s' →
      l' = l.observe (.saw (l.view s')) →
      (∀ {ws l'' s''}, C.Along p l' s' ws l'' s'' → l.session.writes = [] →
        Permitted (C.Past p s'') organizationId userId roles m) →
      C.wp p Q E (f m) none l' s')
    (hE : ∀ e l' s', Grows l l' [] → E e l' s') :
    C.wp p Q E (requireMembership organizationId userId roles >>= f)
      none l s := by
  refine wp_requireMembership_bind (fun m s' h' hinv hm hrole => ?_) hE
  refine h m _ s' (Along.observe h' _) hinv rfl fun ha hempty => ?_
  rw [view_of_writes_nil hempty] at hm
  exact ⟨contains_of_permitted hroles hrole, s'.store, ha.past_nil hinv, hm⟩

/-- Every role. -/
abbrev everyone : List Role := [.owner, .admin, .member, .viewer]

/-- The membership check of a request that every role may make. -/
theorem wp_member_bind {organizationId userId : Uuid}
    {f : Membership → Tx α}
    (h : ∀ m l' s', C.Along p l s [] l' s' → C.inv s' →
      (∀ {ws l'' s''}, C.Along p l' s' ws l'' s'' → l.session.writes = [] →
        Permitted (C.Past p s'') organizationId userId everyone m) →
      C.wp p Q E (f m) none l' s')
    (hE : ∀ e l' s', Grows l l' [] → E e l' s') :
    C.wp p Q E (requireMembership organizationId userId [] >>= f)
      none l s := by
  refine wp_requireMembership_bind (fun m s' h' hinv hm _ => ?_) hE
  refine h m _ s' (Along.observe h' _) hinv fun ha hempty => ?_
  rw [view_of_writes_nil hempty] at hm
  refine ⟨?_, s'.store, ha.past_nil hinv, hm⟩
  cases m.role <;> simp

/-- The audit event of a request. -/
theorem wp_audited_bind {actorId organizationId : Uuid}
    {action entityType : String} {entityId : Uuid} {metadata : Metadata}
    {requestId : Option String} {f : Unit → Tx α} {l₀ : Local schema}
    {ws : List (Write schema)} (hg : Grows l₀ l ws)
    (hempty : l₀.session.writes = [])
    (hws : ∀ x ∈ ws, x.ref.1 ≠ Table.auditEvents)
    (h : ∀ l' s' (event : AuditEvent),
      C.Along p l s [.put .auditEvents event] l' s' → C.inv s' →
      (∀ {vs l'' s'' c}, C.Along p l' s' vs l'' s'' → Makes p l'' s'' c →
        Audited c.before actorId organizationId action entityType entityId
          metadata event) →
      C.wp p Q E (f ()) none l' s') :
    C.wp p Q E (audit actorId (some organizationId) action entityType entityId
      metadata requestId >>= f) none l s := by
  refine wp_audit_bind fun l' s' event h' hinv' hactor horganization haction
    hentityType hentity hmetadata hnew hg' hlock => ?_
  refine h l' s' event ⟨hg', h'⟩ hinv' fun ha hc => ?_
  refine ⟨?_, hactor, horganization, haction, hentityType, hentity,
    hmetadata⟩
  have hview : l.view s' .auditEvents = s'.store .auditEvents := by
    rw [hg.view, view_of_writes_nil hempty]
    exact Store.view_of_table_ne hws
  rw [hview] at hnew
  exact (ha.committed hc hlock).trans hnew

end Rules

end Workstream
