import Workstream.Api.Requests
import Workstream.Modules.Auth.Revocation

/-!
# What the commits of the account endpoints do

The endpoints that register an account, log in to it, or go through a one-time
token.  `Effects` lists the rows that each of them commits and what it has
read before; users and sessions are never lost on the way.
-/

namespace Workstream.Auth

open ReadCommitted Contract

/-- The requests about accounts, as opposed to those that refresh, list or
revoke sessions. -/
def Request.account : Request → Bool
  | .register _ _ => true
  | .login _ _ => true
  | .verifyEmail _ => true
  | .resendVerification _ _ => true
  | .requestReset _ _ => true
  | .resetPassword _ => true
  | _ => false

def selected : Obs schema → Option Db
  | .saw db => some db
  | _ => none

/-- The store of the first `SELECT` of a client. -/
def selectedOn (c : Commit schema) : Option Db :=
  c.session.seen.reverse.findSome? selected

/-! ## One-time tokens -/

/-- The row that is issued. -/
def issuedToken (H : TokenHash) (userId : Uuid) (purpose : Purpose)
    (id : Uuid) (raw : Token) (expiresAt : Instant) : OneTimeToken where
  id := id
  userId := userId
  purpose := purpose
  tokenHash := H.hash raw
  expiresAt := expiresAt

/-- The event that carries the token to the user. -/
def tokenEvent (user : User) (topic : String) (raw : Token) (id : Uuid)
    (time : Instant) : OutboxEvent where
  id := id
  topic := topic
  payload := [("user_id", .uuid user.id), ("email", .text user.email),
    ("token", .token raw)]
  occurredAt := time
  availableAt := time

/-- The writes that issue a token to `user`. -/
inductive Issued (H : TokenHash) (c : Commit schema) (user : User)
    (purpose : Purpose) (topic : String) : List (Write schema) → Prop where
  | issued (raw id eventId : ℕ) (expiresAt time : Instant)
      (hdrawn : raw ∈ c.session.ids)
      (htoken : (c.before .oneTimeTokens).lookup (.id id) = none)
      (hevent : (c.before .outboxEvents).lookup (.id eventId) = none) :
      Issued H c user purpose topic
        [.put .oneTimeTokens
            (issuedToken H user.id purpose id raw expiresAt),
          .put .outboxEvents (tokenEvent user topic raw eventId time)]

/-- The row of a token that has been presented for its purpose: it is unused
when the commit marks it, and was good at the time that the request read. -/
structure Claimed (H : TokenHash) (c : Commit schema) (token : Token)
    (purpose : Purpose) (row : OneTimeToken) (time : Instant) : Prop where
  stored : (c.before .oneTimeTokens).lookup (.id row.id) = some row
  hash : row.tokenHash = H.hash token
  purpose : row.purpose = purpose
  unused : row.usedAt = none
  clock : readNow c = some time
  inTime : time < row.expiresAt

/-- The writes of the `UPDATE` that revokes the sessions of a user: they are of
his rows, and they are of the rows that its snapshot `db` has of him. -/
structure Evicts (c : Commit schema) (userId : Uuid) (time : Instant)
    (db : Db) (ws : List (Write schema)) : Prop where
  rows : ∀ w ∈ ws, ∃ x : AuthSession,
    w = .put .authSessions { x with revokedAt := some time } ∧
      x.userId = userId ∧
      (c.before .authSessions).lookup (.id x.id) = some x
  seen : ∀ w ∈ ws, ∃ k x, w.ref = (.authSessions, k) ∧
    (db .authSessions).lookup k = some x ∧ AuthSession.userId x = userId
  snapshot : ∀ k x, (db .authSessions).lookup k = some x →
    AuthSession.userId x = userId → ∃ w ∈ ws, w.ref = (.authSessions, k)

/-! ## Effects -/

/-- What the commit of a request does. -/
inductive Effects (H : TokenHash) : Request → Commit schema → Prop where
  | registered {body : RegisterRequest} {client : Client} {c : Commit schema}
      (user : User) (ws : List (Write schema)) (event : AuditEvent)
      (hemail : user.email = lower body.email)
      (hnew : (c.before .users).lookup (.id user.id) = none)
      (hissued : Issued H c user .verifyEmail "email.verification" ws)
      (hwrites : c.session.writes =
        .put .users user :: ws ++ [.put .auditEvents event]) :
      Effects H (.register body client) c
  | loggedIn {body : LoginRequest} {client : Client} {c : Commit schema}
      (db : Db) (user : User) (verified : ℕ) (r : AuthSession)
      (event : AuditEvent) (hselected : selectedOn c = some db)
      (huser : (db .users).lookup (.id user.id) = some user)
      (hemail : user.email = lower body.email) (hactive : user.isActive)
      (hcall : .answered
        (.verifyPassword body.password user.passwordHash) verified ∈
          c.session.seen)
      (hverified : verified ≠ 0)
      (hnew : (c.before .authSessions).lookup (.id r.id) = none)
      (howner : r.userId = user.id)
      (hwrites : c.session.writes =
        [.put .authSessions r, .put .auditEvents event]) :
      Effects H (.login body client) c
  | resent {authorization : Authorization} {client : Client}
      {c : Commit schema} (user owner : User)
      (howner : (c.before .users).lookup (.id user.id) = some owner)
      (hemail : owner.email = user.email)
      (hissued : Issued H c user .verifyEmail "email.verification"
        c.session.writes) :
      Effects H (.resendVerification authorization client) c
  | requested {body : PasswordResetRequest} {client : Client}
      {c : Commit schema} (user owner : User)
      (howner : (c.before .users).lookup (.id user.id) = some owner)
      (hemail : owner.email = user.email)
      (hissued : Issued H c user .passwordReset "email.password_reset"
        c.session.writes) :
      Effects H (.requestReset body client) c
  | verified {body : VerifyEmailRequest} {c : Commit schema}
      (row : OneTimeToken) (time : Instant) (user : User)
      (hclaimed : Claimed H c body.token .verifyEmail row time)
      (huser : (c.before .users).lookup (.id row.userId) = some user)
      (hwrites : c.session.writes =
        [.put .users { user with emailVerifiedAt := some time },
          .put .oneTimeTokens { row with usedAt := some time }]) :
      Effects H (.verifyEmail body) c
  | reset {body : PasswordResetConfirm} {c : Commit schema}
      (row : OneTimeToken) (time : Instant) (user : User)
      (passwordHash : PasswordHash) (db : Db) (ws : List (Write schema))
      (hclaimed : Claimed H c body.token .passwordReset row time)
      (huser : (c.before .users).lookup (.id row.userId) = some user)
      (hcall : .answered (.hashPassword body.newPassword) passwordHash ∈
        c.session.seen)
      (hupdated : updatedOn c = some db)
      (hevicts : Evicts c row.userId time db ws)
      (hwrites : c.session.writes =
        .put .users { user with passwordHash } ::
          .put .oneTimeTokens { row with usedAt := some time } :: ws) :
      Effects H (.resetPassword body) c

/-! ## Rows that stay -/

/-- Users stay, with their addresses, and so do sessions, with their users. -/
structure KeepsRows (c : Commit schema) : Prop where
  users : ∀ k u, (c.before .users).lookup k = some u →
    ∃ v, (c.after .users).lookup k = some v ∧
      User.email v = User.email u
  sessions : ∀ k x, (c.before .authSessions).lookup k = some x →
    ∃ y, (c.after .authSessions).lookup k = some y ∧
      AuthSession.userId y = AuthSession.userId x

/-- A commit that puts users with their addresses and sessions with their
users, as far as they are there. -/
theorem keepsRows_of_puts {c : Commit schema}
    (husers : ∀ w ∈ c.session.writes, ∀ k u,
      (c.before .users).lookup k = some u → w.ref = (.users, k) →
        ∃ v, w = .put .users v ∧ User.email v = User.email u)
    (hsessions : ∀ w ∈ c.session.writes, ∀ k x,
      (c.before .authSessions).lookup k = some x →
        w.ref = (.authSessions, k) →
        ∃ y, w = .put .authSessions y ∧
          AuthSession.userId y = AuthSession.userId x) :
    KeepsRows c where
  users := by
    intro k u hu
    exact lookup_put_keeps (t := Table.users) User.email
      (fun w hw => husers w hw k u hu) hu
  sessions := by
    intro k x hx
    exact lookup_put_keeps (t := Table.authSessions) AuthSession.userId
      (fun w hw => hsessions w hw k x hx) hx

theorem keepsRows_of_writes {c : Commit schema}
    (husers : ∀ w ∈ c.session.writes, w.ref.1 ≠ Table.users)
    (hsessions : ∀ w ∈ c.session.writes, w.ref.1 ≠ Table.authSessions) :
    KeepsRows c := by
  refine keepsRows_of_puts ?_ ?_
  · intro w hw k u _ href
    exact absurd (congrArg Prod.fst href) (husers w hw)
  · intro w hw k x _ href
    exact absurd (congrArg Prod.fst href) (hsessions w hw)

section Keeps

variable {H : TokenHash} {request : Request} {c : Commit schema}

theorem Issued.ref {user : User} {purpose : Purpose} {topic : String}
    {ws : List (Write schema)} (h : Issued H c user purpose topic ws) :
    ∀ w ∈ ws, w.ref.1 = Table.oneTimeTokens ∨ w.ref.1 = Table.outboxEvents := by
  cases h
  simp [Write.ref]

theorem Evicts.ref {userId : Uuid} {time : Instant} {db : Db}
    {ws : List (Write schema)} (h : Evicts c userId time db ws) :
    ∀ w ∈ ws, w.ref.1 = Table.authSessions := by
  intro w hw
  obtain ⟨x, rfl, _⟩ := h.rows w hw
  rfl

theorem Issued.keepsRows {user : User} {purpose : Purpose} {topic : String}
    (h : Issued H c user purpose topic c.session.writes) : KeepsRows c := by
  refine keepsRows_of_writes ?_ ?_
  all_goals
    intro w hw
    rcases h.ref w hw with href | href <;> simp [href]

theorem Effects.keepsRows (h : Effects H request c) : KeepsRows c := by
  cases h with
  | registered user ws event _ hnew hissued hwrites =>
      refine keepsRows_of_puts ?_ ?_
      · intro w hw k u hu href
        rw [hwrites, List.cons_append, List.mem_cons, List.mem_append,
          List.mem_singleton] at hw
        rcases hw with rfl | hw | rfl
        · exact absurd (Prod.mk.inj href).2 (ne_of_lookup hnew hu)
        · rcases hissued.ref w hw with h | h <;> simp [href] at h
        · simp [Write.ref] at href
      · intro w hw k x _ href
        rw [hwrites, List.cons_append, List.mem_cons, List.mem_append,
          List.mem_singleton] at hw
        rcases hw with rfl | hw | rfl
        · simp [Write.ref] at href
        · rcases hissued.ref w hw with h | h <;> simp [href] at h
        · simp [Write.ref] at href
  | loggedIn db user verified r event _ _ _ _ _ _ hnew _ hwrites =>
      refine keepsRows_of_puts ?_ ?_
      · simp [hwrites, Write.ref]
      · intro w hw k x hx href
        rw [hwrites, List.mem_pair] at hw
        rcases hw with rfl | rfl
        · exact absurd (Prod.mk.inj href).2 (ne_of_lookup hnew hx)
        · simp [Write.ref] at href
  | resent user owner _ _ hissued => exact hissued.keepsRows
  | requested user owner _ _ hissued => exact hissued.keepsRows
  | verified row time user hclaimed huser hwrites =>
      refine keepsRows_of_puts ?_ ?_
      · intro w hw k u hu href
        rw [hwrites, List.mem_pair] at hw
        rcases hw with rfl | rfl
        · obtain rfl := eq_of_put_ref huser rfl href hu
          exact ⟨_, rfl, rfl⟩
        · simp [Write.ref] at href
      · simp [hwrites, Write.ref]
  | reset row time user passwordHash db ws hclaimed huser _ _ hevicts
      hwrites =>
      refine keepsRows_of_puts ?_ ?_
      · intro w hw k u hu href
        rw [hwrites, List.mem_cons, List.mem_cons] at hw
        rcases hw with rfl | rfl | hw
        · obtain rfl := eq_of_put_ref huser rfl href hu
          exact ⟨_, rfl, rfl⟩
        · simp [Write.ref] at href
        · have h := hevicts.ref w hw
          simp [href] at h
      · intro w hw k x hx href
        rw [hwrites, List.mem_cons, List.mem_cons] at hw
        rcases hw with rfl | rfl | hw
        · simp [Write.ref] at href
        · simp [Write.ref] at href
        · obtain ⟨y, rfl, _, hy⟩ := hevicts.rows w hw
          obtain rfl := (Prod.mk.inj href).2
          obtain rfl : x = y := Option.some.inj (hx.symm.trans hy)
          exact ⟨_, rfl, rfl⟩

end Keeps

end Workstream.Auth
