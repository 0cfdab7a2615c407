import Workstream.Modules.Models
import Workstream.ReadCommitted.Rules

/-!
# What the endpoints share

The error type, the session statements that every service uses, the rate
limiter, `current_principal` and `require_membership`.  An object that
`Session.get` finds in the identity map is passed along explicitly; everything
else is read from the database.
-/

namespace Workstream

open ReadCommitted

/-- `retryAfter` is the `Retry-After` header. -/
structure AppError where
  status : ℕ
  code : String
  detail : String
  retryAfter : Option ℕ := none
  deriving DecidableEq

/-- A request handler over one database session. -/
abbrev Tx : Type → Type := Prog schema AppError

/-- One client moves several times in a row. -/
def steps (p : Pid) (xs : List (Input schema)) : List (Pid × Input schema) :=
  xs.map fun x => (p, x)

/-- `datetime.now(UTC)`, and `now()` where the schema has it as a default. -/
def now : Tx Instant := Prog.callOut .now

/-- `db.get` of an object that the session does not hold. -/
def get (t : Table) (k : Key) : Tx (Option (Row t)) :=
  Prog.select fun db => (db t).lookup k

/-- `scalar_one_or_none`, which does not answer when there is a second row. -/
def scalarOneOrNone {α : Type} (rows : List α) : Tx (Option α) :=
  match rows with
  | [] => pure none
  | [row] => pure (some row)
  | _ => .halt

/-- `db.add` of an audit event, with the `INSERT` that its flush sends. -/
def audit (actorId : Uuid) (organizationId : Option Uuid)
    (action entityType : String) (entityId : Uuid)
    (metadata : Metadata) (requestId : Option String) : Tx Unit := do
  let id ← Prog.freshId
  let createdAt ← now
  Prog.insertOrHalt (σ := schema) .auditEvents
    { id, actorId := some actorId, organizationId, action, entityType,
      entityId := some entityId, metadata, requestId, createdAt }

/-- The settings that the endpoints read. -/
structure Settings where
  accessTokenMinutes : ℕ := 15
  refreshTokenDays : ℕ := 30
  loginRateLimit : ℕ := 10
  passwordResetRateLimit : ℕ := 5
  verificationRateLimit : ℕ := 3
  invitationRateLimit : ℕ := 20

/-! ## Rate limits -/

def securityServiceUnavailable : AppError where
  status := 503
  code := "security_service_unavailable"
  detail := "Security controls are unavailable"

def rateLimitExceeded (retryAfter : ℕ) : AppError where
  status := 429
  code := "rate_limit_exceeded"
  detail := "Too many requests"
  retryAfter := some retryAfter

/-- `str.strip`. -/
def strip (s : String) : String := String.ofList (Text.strip s.toList)

/-- What `account_key` makes of an account, before it is hashed. -/
def accountKey (value : String) : String := lower (strip value)

/-- `enforce_rate_limit`.  The counter starts at one; the answer zero stands
for a Redis error. -/
def enforceRateLimit (scope client account : String) (limit : ℕ) :
    Tx Unit := do
  let count ← Prog.callOut (.rateLimitHit scope client (accountKey account))
  Prog.ensure (count ≠ 0) securityServiceUnavailable
  let ttl ← Prog.callOut (.rateLimitTtl scope client (accountKey account))
  Prog.ensure (count ≤ limit) (rateLimitExceeded (max ttl 1))

/-! ## Authentication -/

/-- The `Authorization` header: no bearer token, a token that does not decode,
or the claims `sub` and `sid` of one that does. -/
inductive Authorization where
  | missing
  | invalid
  | claims (userId sessionId : Uuid)

structure Principal where
  user : User
  sessionId : Uuid

def authenticationRequired : AppError where
  status := 401
  code := "authentication_required"
  detail := "A valid bearer token is required"

def invalidAccessToken : AppError where
  status := 401
  code := "invalid_access_token"
  detail := "The access token is invalid or expired"

def sessionRevoked : AppError where
  status := 401
  code := "session_revoked"
  detail := "The session is no longer active"

/-- The join of users and sessions in `current_principal`: one row for every
live session row of the family. -/
def principalRows (userId sessionId : Uuid) (db : Db) : List User :=
  ((db .users).rows.filter fun u : User => u.id = userId ∧ u.isActive).flatMap
    fun u => ((db .authSessions).rows.filter fun s : AuthSession =>
      s.userId = u.id ∧ s.familyId = sessionId ∧ s.revokedAt = none ∧
        s.rotatedAt = none).map fun _ => u

theorem of_mem_principalRows {userId sessionId : Uuid} {db : Db} {user : User}
    (h : user ∈ principalRows userId sessionId db) :
    user ∈ (db .users).rows ∧ user.id = userId := by
  simp only [principalRows, List.mem_flatMap, List.mem_filter,
    decide_eq_true_eq, List.mem_map] at h
  obtain ⟨u, ⟨hmem, hid, _⟩, _, _, rfl⟩ := h
  exact ⟨hmem, hid⟩

def currentPrincipal : Authorization → Tx Principal
  | .missing => .raise authenticationRequired
  | .invalid => .raise invalidAccessToken
  | .claims userId sessionId => do
      let rows ← Prog.select (principalRows userId sessionId)
      let user ← scalarOneOrNone rows
      let user ← Prog.require user sessionRevoked
      return { user, sessionId }

def currentUser (authorization : Authorization) : Tx User := do
  let principal ← currentPrincipal authorization
  return principal.user

/-! ## Membership -/

def notFound (detail : String) : AppError where
  status := 404
  code := "resource_not_found"
  detail := detail

def insufficientPermission (detail : String) : AppError where
  status := 403
  code := "insufficient_permission"
  detail := detail

def membershipKey (organizationId userId : Uuid) : Key :=
  .pair organizationId userId

/-- `require_membership`; no roles means that every role will do. -/
def requireMembership (organizationId userId : Uuid)
    (roles : List Role) : Tx Membership := do
  let membership ← get .memberships (membershipKey organizationId userId)
  let membership ← Prog.require membership
    (notFound "The requested resource was not found")
  Prog.ensure (roles.isEmpty || roles.contains membership.role)
    (insufficientPermission
      "Your organization role does not permit this action")
  return membership

/-! ## Rules -/

section Rules

open Contract

variable {α : Type} {C : Contract schema} {p : Pid}
  {Q : α → Local schema → Shared schema → Prop}
  {E : AppError → Local schema → Shared schema → Prop}
  {l : Local schema} {s : Shared schema}

theorem wp_now_bind {f : Instant → Tx α}
    (h : ∀ τ s', C.Rely p l s s' → C.inv s' →
      C.wp p Q E (f τ) none (l.observe (.answered .now τ)) s') :
    C.wp p Q E (now >>= f) none l s :=
  wp_callOut_bind h

theorem wp_get_bind {t : Table} {k : Key} {f : Option (Row t) → Tx α}
    (h : ∀ s', C.Rely p l s s' → C.inv s' →
      C.wp p Q E (f ((l.view s' t).lookup k)) none
        (l.observe (.saw (l.view s'))) s') :
    C.wp p Q E (get t k >>= f) none l s :=
  wp_select_bind h

theorem wp_scalarOneOrNone_bind {β : Type} {rows : List β}
    {f : Option β → Tx α}
    (h : ∀ o : Option β, rows = o.toList → C.wp p Q E (f o) none l s) :
    C.wp p Q E (scalarOneOrNone rows >>= f) none l s := by
  match rows, h with
  | [], h => exact h none rfl
  | [row], h => exact h (some row) rfl
  | _ :: _ :: _, _ => exact wp_halt

/-- An audit event adds its own row, which is new, and nothing else. -/
theorem wp_audit_bind {actorId : Uuid} {organizationId : Option Uuid}
    {action entityType : String} {entityId : Uuid} {metadata : Metadata}
    {requestId : Option String} {f : Unit → Tx α}
    (h : ∀ l' s' (event : AuditEvent), C.Rely p l s s' → C.inv s' →
      event.actorId = some actorId → event.organizationId = organizationId →
      event.action = action → event.entityType = entityType →
      event.entityId = some entityId → event.metadata = metadata →
      (l.view s' .auditEvents).lookup (.id event.id) = none →
      Grows l l' [.put .auditEvents event] →
      l'.locks (.auditEvents, .id event.id) →
      C.wp p Q E (f ()) none l' s') :
    C.wp p Q E (audit actorId organizationId action entityType entityId
      metadata requestId >>= f) none l s := by
  simp only [audit, bind_assoc]
  refine wp_freshId_bind fun n s₁ h₁ _ _ => ?_
  refine wp_now_bind fun τ s₂ h₂ hinv₂ => ?_
  refine wp_insertOrHalt_bind fun l' s₃ h₃ hinv₃ hnone hgrows hlocks => ?_
  have hdraw := Grows.draw l n
  have hobserve := hdraw.trans (Grows.observe _ (.answered Call.now τ))
  have hrely : C.Rely p l s s₃ :=
    (h₁.trans (h₂.of_grows hdraw)).trans
      (h₃.of_grows hobserve)
  exact h l' s₃ _ hrely hinv₃ rfl rfl rfl rfl rfl rfl
    (Store.lookup_of_conflict_none hnone) (hobserve.trans hgrows)
    (hlocks _ List.mem_cons_self)

/-- The limiter asks Redis and leaves the database alone. -/
theorem wp_enforceRateLimit_bind {scope client account : String} {limit : ℕ}
    {f : Unit → Tx α}
    (h : ∀ l' s', C.Rely p l s s' → C.inv s' → Grows l l' [] →
      C.wp p Q E (f ()) none l' s')
    (hE : ∀ e l' s', Grows l l' [] → E e l' s') :
    C.wp p Q E (enforceRateLimit scope client account limit >>= f)
      none l s := by
  simp only [enforceRateLimit, bind_assoc]
  refine wp_callOut_bind fun n s₁ h₁ _ => ?_
  have hg₁ := Grows.observe l
    (.answered (Call.rateLimitHit scope client (accountKey account)) n)
  refine wp_ensure_bind (fun _ => ?_) fun _ s' => hE _ _ s' hg₁
  refine wp_callOut_bind fun m s₂ h₂ hinv₂ => ?_
  have hg₂ := hg₁.trans (Grows.observe _
    (.answered (Call.rateLimitTtl scope client (accountKey account)) m))
  refine wp_ensure_bind (fun _ => ?_) fun _ s' => hE _ _ s' hg₂
  exact h _ s₂ (h₁.trans (h₂.of_grows hg₁)) hinv₂ hg₂

/-- A principal is an active user with a live session. -/
theorem wp_currentPrincipal_bind {authorization : Authorization}
    {f : Principal → Tx α}
    (h : ∀ principal s', C.Rely p l s s' → C.inv s' →
      authorization = .claims principal.user.id principal.sessionId →
      principal.user ∈ principalRows principal.user.id principal.sessionId
        (l.view s') →
      C.wp p Q E (f principal) none (l.observe (.saw (l.view s'))) s')
    (hE : ∀ e l' s', Grows l l' [] → E e l' s') :
    C.wp p Q E (currentPrincipal authorization >>= f) none l s := by
  cases authorization with
  | missing => exact fun s' _ _ => hE _ _ s' (Grows.refl l)
  | invalid => exact fun s' _ _ => hE _ _ s' (Grows.refl l)
  | claims userId sessionId =>
      simp only [currentPrincipal, bind_assoc, pure_bind]
      refine wp_select_bind fun s₁ h₁ hinv₁ => ?_
      refine wp_scalarOneOrNone_bind fun o ho => ?_
      refine wp_require_bind (fun user huser => ?_)
        fun _ s' => hE _ _ s' (Grows.observe l _)
      have hmem : user ∈ principalRows userId sessionId (l.view s₁) := by
        rw [ho, huser]
        exact List.mem_cons_self
      obtain rfl := (of_mem_principalRows hmem).2
      exact h { user, sessionId } s₁ h₁ hinv₁ rfl hmem

theorem wp_requireMembership_bind {organizationId userId : Uuid}
    {roles : List Role} {f : Membership → Tx α}
    (h : ∀ m s', C.Rely p l s s' → C.inv s' →
      (l.view s' .memberships).lookup
        (membershipKey organizationId userId) = some m →
      (roles.isEmpty || roles.contains m.role) = true →
      C.wp p Q E (f m) none (l.observe (.saw (l.view s'))) s')
    (hE : ∀ e l' s', Grows l l' [] → E e l' s') :
    C.wp p Q E (requireMembership organizationId userId roles >>= f)
      none l s := by
  simp only [requireMembership, bind_assoc, pure_bind]
  refine wp_get_bind fun s₁ h₁ hinv₁ => ?_
  have hg := Grows.observe l (.saw (l.view s₁))
  refine wp_require_bind (fun m hm => ?_) fun _ s' => hE _ _ s' hg
  refine wp_ensure_bind (fun hrole => ?_) fun _ s' => hE _ _ s' hg
  exact h m s₁ h₁ hinv₁ hm hrole

end Rules

end Workstream
