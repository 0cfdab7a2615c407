import Workstream.Infrastructure.EventLife
import Workstream.Modules.Writes

/-!
# What the endpoints for accounts write

The endpoints of the `auth` module and the dispatcher of the outbox, checked
against the constraints of the migrated schema.  Of all that they store, only
the `User-Agent` and the address of a login and the name of a worker have no
bound of their own.
-/

namespace Workstream.Schemas

open ReadCommitted Constraints

/-! ## Authentication -/

section Rules

variable {α : Type} {Q : Set schema.Ref → α → Prop} {K : Set schema.Ref}

theorem sends_enforceRateLimit_bind {scope client account : String}
    {limit : ℕ} {f : Unit → Tx α} (h : constraints.Sends Q (f ()) K) :
    constraints.Sends Q (enforceRateLimit scope client account limit >>= f)
      K := by
  simp only [enforceRateLimit, bind_assoc]
  apply sends_callOut_bind
  intro count
  apply sends_ensure_bind
  intro _
  apply sends_callOut_bind
  intro ttl
  apply sends_ensure_bind
  exact fun _ => h

/-- A principal is a user. -/
theorem sends_currentPrincipal_bind {authorization : Authorization}
    {f : Principal → Tx α}
    (h : ∀ principal K', K ⊆ K' → userRef principal.user.id ∈ K' →
      constraints.Sends Q (f principal) K') :
    constraints.Sends Q (currentPrincipal authorization >>= f) K := by
  cases authorization with
  | missing => trivial
  | invalid => trivial
  | claims userId sessionId =>
      simp only [currentPrincipal, bind_assoc, pure_bind]
      apply sends_select_bind
      intro db hdb hK
      apply sends_scalarOneOrNone_bind
      intro o ho
      apply sends_require_bind
      intro user huser
      have hmem := (of_mem_principalRows (ho user huser)).1
      have hfound := hdb.found (t := .users) hmem
      exact h { user, sessionId } _ hK (hfound.known rfl)

theorem sends_currentUser_bind {authorization : Authorization}
    {f : User → Tx α}
    (h : ∀ user K', K ⊆ K' → userRef user.id ∈ K' →
      constraints.Sends Q (f user) K') :
    constraints.Sends Q (currentUser authorization >>= f) K := by
  simp only [currentUser, bind_assoc, pure_bind]
  apply sends_currentPrincipal_bind
  exact fun principal K' hK huser => h principal.user K' hK huser

end Rules

/-! ## Endpoints -/

section Endpoints

open Auth

variable {α : Type} {Q : Set schema.Ref → α → Prop} {K : Set schema.Ref}
  {H : TokenHash} {settings : Settings}

theorem length_purpose (purpose : Purpose) :
    (purposeText purpose).length ≤ 30 := by
  cases purpose <;> decide

theorem sends_issueToken_bind {user : User} {purpose : Purpose}
    {topic : String} {lifetime : Instant} {f : Unit → Tx α}
    (huser : userRef user.id ∈ K) (htopic : topic.length ≤ 100)
    (h : ∀ K', K ⊆ K' → constraints.Sends Q (f ()) K') :
    constraints.Sends Q (issueToken H user purpose topic lifetime >>= f)
      K := by
  simp only [issueToken, bind_assoc]
  apply sends_freshId_bind
  intro raw
  apply sends_now_bind
  intro time
  apply sends_freshId_bind
  intro id
  apply sends_insertOrHalt_bind
  · refine ⟨⟨length_purpose purpose, (length_hexdigest _).le⟩, ?_⟩
    simpa [constraints, references] using huser
  · intro K₁ h₁ htoken
    apply sends_freshId_bind
    intro eventId
    apply sends_now_bind
    intro occurredAt
    apply sends_insertOrHalt_bind
    · exact admits_outboxEvent htopic rfl
    · exact fun K₂ h₂ _ => h K₂ (h₁.trans h₂)

theorem checked_register {body : RegisterRequest} {client : Client}
    (hemail : body.email.utf8ByteSize ≤ 320) (hname : body.displayName.length ≤ 120)
    (hrequest : client.requestId.length ≤ 128) :
    Checked (register H body client) K := by
  apply sends_callOut_bind
  intro passwordHash
  apply sends_freshId_bind
  intro id
  apply sends_insertRow_bind
  · exact ⟨⟨(length_lower_le _).trans hemail, hname⟩,
      by simp [constraints, references]⟩
  · exact fun _ => trivial
  · intro K₁ h₁ hfound
    have huser : userRef id ∈ K₁ := hfound.known rfl
    apply sends_issueToken_bind huser (by decide)
    intro K₂ h₂
    apply sends_audit_bind (h₂ huser) (by simp) (by decide) (by decide)
    · intro i hi
      exact Option.some.inj hi ▸ hrequest
    · exact fun _ _ => trivial

theorem sends_userByEmail_bind {email : String} {f : Option User → Tx α}
    (h : ∀ o K', K ⊆ K' → (∀ u, o = some u → userRef u.id ∈ K') →
      constraints.Sends Q (f o) K') :
    constraints.Sends Q (userByEmail email >>= f) K := by
  simp only [userByEmail, bind_assoc]
  apply sends_select_bind
  intro db hdb hK
  apply sends_scalarOneOrNone_bind
  intro o ho
  refine h o _ hK fun u hu => ?_
  have hmem := (List.mem_filter.mp (ho u hu)).1
  exact (hdb.found (t := .users) hmem).known rfl

theorem checked_pair {user : User} {session : AuthSession} {raw : Token} :
    Checked (pair user session raw settings) K :=
  fun _ _ => trivial

theorem checked_login {body : LoginRequest} {client : Client}
    (hagent : ∀ agent, client.userAgent = some agent → agent.length ≤ 300)
    (hhost : ∀ host, client.host = some host → host.length ≤ 64)
    (hrequest : client.requestId.length ≤ 128) :
    Checked (login H settings body client) K := by
  apply sends_enforceRateLimit_bind
  apply sends_userByEmail_bind
  intro o K₁ h₁ ho
  apply sends_require_bind
  intro user huser
  apply sends_ensure_bind
  intro _
  apply sends_callOut_bind
  intro verified
  apply sends_ensure_bind
  intro _
  apply sends_freshId_bind
  intro raw
  apply sends_freshId_bind
  intro familyId
  apply sends_now_bind
  intro time
  apply sends_freshId_bind
  intro id
  apply sends_now_bind
  intro createdAt
  apply sends_insertOrHalt_bind
  · refine ⟨⟨(length_hexdigest _).le, hagent, hhost⟩, ?_⟩
    simpa [constraints, references] using ho user huser
  · intro K₂ h₂ hsession
    apply sends_audit_bind (h₂ (ho user huser)) (by simp) (by decide)
      (by decide)
    · intro i hi
      exact Option.some.inj hi ▸ hrequest
    · exact fun _ _ => checked_pair

theorem sends_revokeWhere_bind {pred : AuthSession → Bool} {time : Instant}
    {f : Unit → Tx α} (h : ∀ K', K ⊆ K' → constraints.Sends Q (f ()) K') :
    constraints.Sends Q (revokeWhere pred time >>= f) K := by
  simp only [revokeWhere, bind_assoc, pure_bind]
  apply sends_locking_bind
  · exact fun K' hK s hs _ => ⟨rfl, hs.admits.row, hs.admits.refs⟩
  · exact fun _ K' hK _ => h K' hK

/-- The successor of a session has its columns. -/
theorem checked_exchange {session : AuthSession} {user : User} {time : Instant}
    (hsession : constraints.Admits (t := .authSessions) K session) :
    Checked (exchange H settings session user time) K := by
  apply sends_freshId_bind
  intro raw
  apply sends_updateKey_bind
  · exact fun _ => rfl
  · exact fun K' _ s hs => ⟨hs.row, hs.refs⟩
  · intro K₁ h₁
    apply sends_freshId_bind
    intro id
    apply sends_now_bind
    intro createdAt
    apply sends_insertOrHalt_bind
    · obtain ⟨⟨-, hagent, haddress⟩, hrefs⟩ := hsession.mono h₁
      exact ⟨⟨(length_hexdigest _).le, hagent, haddress⟩, hrefs⟩
    · exact fun _ _ _ => checked_pair

theorem checked_refresh {body : RefreshRequest} :
    Checked (refresh H settings body) K := by
  apply sends_lockOne_bind
  intro o K₁ h₁ ho
  apply sends_now_bind
  intro time
  apply sends_require_bind
  intro session hsome
  have hsession := ho session hsome
  split
  · exact sends_revokeWhere_bind fun _ _ => trivial
  · apply sends_ensure_bind
    intro _
    apply sends_get_bind
    intro user K₂ h₂ hfound
    cases user.filter (·.isActive) with
    | none => exact sends_revokeWhere_bind fun _ _ => trivial
    | some user => exact checked_exchange (hsession.admits.mono h₂)

theorem checked_logout {authorization : Authorization} :
    Checked (logout authorization) K := by
  apply sends_currentPrincipal_bind
  intro principal K₁ h₁ huser
  apply sends_now_bind
  intro time
  exact sends_revokeWhere_bind fun _ _ => trivial

theorem checked_sessions {authorization : Authorization} :
    Checked (sessions authorization) K := by
  apply sends_currentUser_bind
  exact fun _ _ _ _ _ _ _ => trivial

theorem checked_revokeSession {sessionId : Uuid}
    {authorization : Authorization} :
    Checked (revokeSession sessionId authorization) K := by
  apply sends_currentUser_bind
  intro user K₁ h₁ huser
  apply sends_now_bind
  intro time
  exact sends_revokeWhere_bind fun _ _ => trivial

theorem checked_revokeAll {authorization : Authorization} :
    Checked (revokeAll authorization) K := by
  apply sends_currentUser_bind
  intro user K₁ h₁ huser
  apply sends_now_bind
  intro time
  exact sends_revokeWhere_bind fun _ _ => trivial

/-! ## One-time tokens -/

theorem sends_claimToken_bind {token : Token} {purpose : Purpose}
    {f : OneTimeToken × Instant → Tx α}
    (h : ∀ row K', K ⊆ K' → constraints.Sends Q (f row) K') :
    constraints.Sends Q (claimToken H token purpose >>= f) K := by
  simp only [claimToken, bind_assoc, pure_bind]
  apply sends_lockOne_bind
  intro o K₁ h₁ ho
  apply sends_now_bind
  intro time
  apply sends_require_bind
  intro row hrow
  apply sends_ensure_bind
  exact fun _ => h (row, time) K₁ h₁

/-- The owner of a token, and a change of a column that has no constraint. -/
theorem sends_owner_bind {id : Uuid} {f : User → Tx α}
    (h : ∀ user K', K ⊆ K' → constraints.Sends Q (f user) K') :
    constraints.Sends Q (do
      let user ← get .users (.id id)
      let user ← assertUser user
      f user) K := by
  apply sends_get_bind
  intro o K' hK _
  cases o with
  | none => trivial
  | some user => exact h user K' hK

theorem checked_verifyEmail {body : VerifyEmailRequest} :
    Checked (verifyEmail H body) K := by
  apply sends_claimToken_bind
  intro row K₁ h₁
  apply sends_owner_bind
  intro user K₂ h₂
  apply sends_updateKey_bind
  · exact fun _ => rfl
  · exact fun K' _ u hu => ⟨hu.row, hu.refs⟩
  · intro K₃ h₃
    exact sends_updateKey_bind (fun _ => rfl)
      (fun K' _ t ht => ⟨ht.row, ht.refs⟩) fun _ _ => trivial

theorem checked_resendVerification {authorization : Authorization}
    {client : Client} :
    Checked (resendVerification H settings authorization client) K := by
  apply sends_currentUser_bind
  intro user K₁ h₁ huser
  apply sends_enforceRateLimit_bind
  dsimp only
  split
  · exact sends_issueToken_bind huser (by decide) fun _ _ => trivial
  · trivial

theorem checked_requestReset {body : PasswordResetRequest} {client : Client} :
    Checked (requestReset H settings body client) K := by
  apply sends_enforceRateLimit_bind
  apply sends_userByEmail_bind
  intro o K₁ h₁ ho
  cases o with
  | none => trivial
  | some user =>
      exact sends_issueToken_bind (ho user rfl) (by decide) fun _ _ => trivial

theorem checked_resetPassword {body : PasswordResetConfirm} :
    Checked (resetPassword H body) K := by
  apply sends_claimToken_bind
  intro row K₁ h₁
  apply sends_owner_bind
  intro user K₂ h₂
  apply sends_callOut_bind
  intro passwordHash
  apply sends_updateKey_bind
  · exact fun _ => rfl
  · exact fun K' _ u hu => ⟨hu.row, hu.refs⟩
  · intro K₃ h₃
    apply sends_updateKey_bind
    · exact fun _ => rfl
    · exact fun K' _ t ht => ⟨ht.row, ht.refs⟩
    · exact fun _ _ => sends_revokeWhere_bind fun _ _ => trivial

end Endpoints

/-! ## The dispatcher -/

section Dispatch

open Outbox

variable {α : Type} {Q : Set schema.Ref → α → Prop} {K : Set schema.Ref}
  {settings : DispatchSettings} {className : ℕ → String} {worker : String}

theorem sends_leaseAll_bind {time : Instant} {f : Unit → Tx α}
    (hworker : worker.length ≤ 100) {events : List OutboxEvent}
    (h : ∀ K', K ⊆ K' → constraints.Sends Q (f ()) K') :
    constraints.Sends Q (leaseAll worker time events >>= f) K := by
  induction events generalizing K with
  | nil => exact h K Set.Subset.rfl
  | cons e events ih =>
      simp only [leaseAll, bind_assoc]
      apply sends_updateKey_bind
      · exact fun _ => rfl
      · intro K' hK e he
        refine ⟨⟨he.row.1, ?_⟩, he.refs⟩
        intro name hname
        exact Option.some.inj hname ▸ hworker
      · exact fun K' hK => ih fun K'' hK' => h K'' (hK.trans hK')

/-- A row that nobody holds any more. -/
theorem admits_released {e e' : OutboxEvent}
    (he : constraints.Admits (t := .outboxEvents) K e)
    (htopic : e'.topic = e.topic) (hlocked : e'.lockedBy = none) :
    constraints.Admits (t := .outboxEvents) K e' :=
  admits_outboxEvent (htopic ▸ he.row.1) hlocked

theorem checked_markProcessed {event : ClaimedEvent} :
    Checked (markProcessed event worker) K := by
  apply sends_now_bind
  intro processedAt
  apply sends_locking_bind
  · exact fun K' _ e he _ => ⟨rfl, admits_released he.admits rfl rfl⟩
  · exact fun _ _ _ _ => trivial

theorem checked_markFailed {event : ClaimedEvent} {error : String}
    {maxAttempts : ℕ} :
    Checked (markFailed event worker error maxAttempts) K := by
  apply sends_now_bind
  intro time
  apply sends_locking_bind
  · exact fun _ _ _ _ _ => trivial
  · intro rows K₁ h₁ hrows
    cases rows with
    | nil => trivial
    | cons row rows =>
        have hfail : ∀ extra, Checked (do
            Prog.updateKey (σ := schema) .outboxEvents (.id row.id)
              (fail maxAttempts error time extra)
            Prog.commitNow) K₁ := by
          intro extra
          apply sends_updateKey_bind
          · exact fun e => congrArg Key.id (fail_id _ _ _ _ e)
          · exact fun K' _ e he => admits_released he (fail_topic _ _ _ _ e)
              (fail_lockedBy _ _ _ _ e)
          · exact fun _ _ => trivial
        by_cases hlast : maxAttempts ≤ row.attempts + 1
        · simp only [if_pos hlast, pure_bind]
          exact hfail 0
        · simp only [if_neg hlast]
          exact sends_callOut_bind hfail

theorem checked_deliver {event : ClaimedEvent} :
    Checked (deliver event) K := by
  have hentry : ∀ key K, Checked (entry event.payload key) K := by
    intro key K
    unfold entry
    split <;> trivial
  apply sends_bind (hentry "token" K)
  intro token K₁ _
  split
  · trivial
  · apply sends_bind (hentry "email" K₁)
    intro recipient K₂ _
    apply sends_callOut_bind
    intro sent
    split <;> trivial

/-- The count of an event and its failure end in one transaction each. -/
theorem checked_dispatchEvent {event : ClaimedEvent} :
    Checked (dispatchEvent settings className worker event) K := by
  refine ⟨?_, ?_⟩
  · apply sends_callOut_bind
    intro error
    exact sends_bind checked_markFailed fun _ _ _ => trivial
  · apply sends_bind (P := fun _ _ => True)
    · apply sends_bind checked_deliver
      intro _ K₁ _
      exact sends_bind checked_markProcessed fun _ _ _ => trivial
    · exact fun _ _ _ => trivial

theorem checked_dispatchEvents {events : List ClaimedEvent} :
    Checked (dispatchEvents settings className worker events) K := by
  induction events generalizing K with
  | nil => trivial
  | cons event events ih =>
      apply sends_bind checked_dispatchEvent
      intro processed K₁ _
      exact sends_bind ih fun _ _ _ => trivial

theorem checked_dispatchOutbox {batchSize : ℕ}
    (hworker : worker.length ≤ 100) :
    Checked (dispatchOutbox settings className worker batchSize) K := by
  simp only [dispatchOutbox, claimEvents, bind_assoc, pure_bind]
  apply sends_now_bind
  intro time
  apply sends_locking_bind
  · exact fun _ _ _ _ _ => trivial
  · intro events K₁ h₁ hrows
    apply sends_leaseAll_bind hworker
    intro K₂ h₂
    apply sends_commitNow_bind
    exact checked_dispatchEvents

end Dispatch

end Workstream.Schemas
