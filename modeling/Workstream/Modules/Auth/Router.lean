import Mathlib.Data.List.Sort
import Workstream.Api.Dependencies

/-!
# The authentication endpoints

A login opens a session family.  Every refresh rotates the newest row of its
family and appends a successor, under the row lock of the rotated row; the
endpoints that revoke update all rows of the families they mean in one
statement.
-/

namespace Workstream.Auth

open ReadCommitted

/-! ## Bodies and responses -/

structure RegisterRequest where
  email : String
  password : String
  displayName : String

structure LoginRequest where
  email : String
  password : String

structure RefreshRequest where
  refreshToken : Token

structure VerifyEmailRequest where
  token : Token

structure PasswordResetRequest where
  email : String

structure PasswordResetConfirm where
  token : Token
  newPassword : String

/-- What the request itself says about its sender. -/
structure Client where
  host : Option String
  userAgent : Option String
  requestId : String

def Client.address (client : Client) : String :=
  client.host.getD "unknown"

/-- The claims of an access token that depend on the request. -/
structure AccessToken where
  sub : Uuid
  sid : Uuid
  iat : Instant
  exp : Instant
  jti : Uuid

structure TokenPair where
  accessToken : AccessToken
  refreshToken : Token
  tokenType : String := "bearer"
  expiresIn : ℕ

structure SessionResponse where
  id : Uuid
  createdAt : Instant
  expiresAt : Instant
  revokedAt : Option Instant
  userAgent : Option String
  ipAddress : Option String

def accessToken (userId logicalSessionId : Uuid) (settings : Settings) :
    Tx AccessToken := do
  let time ← now
  let jti ← Prog.freshId
  return { sub := userId, sid := logicalSessionId, iat := time
           exp := time + minutes settings.accessTokenMinutes, jti }

def pair (user : User) (session : AuthSession) (raw : Token)
    (settings : Settings) : Tx TokenPair := do
  let token ← accessToken user.id session.familyId settings
  return { accessToken := token, refreshToken := raw
           expiresIn := settings.accessTokenMinutes * 60 }

/-! ## Accounts -/

section Endpoints

variable (H : TokenHash) (settings : Settings)

/-- The one-time token and the outbox event that carries it to the user. -/
def issueToken (user : User) (purpose : Purpose) (topic : String)
    (lifetime : Instant) : Tx Unit := do
  let raw ← Prog.freshId
  let time ← now
  let id ← Prog.freshId
  Prog.insertOrHalt (σ := schema) .oneTimeTokens
    { id, userId := user.id, purpose, tokenHash := H.hash raw
      expiresAt := time + lifetime }
  let eventId ← Prog.freshId
  let occurredAt ← now
  Prog.insertOrHalt (σ := schema) .outboxEvents
    { id := eventId, topic
      payload := [("user_id", .uuid user.id), ("email", .text user.email),
        ("token", .token raw)]
      occurredAt, availableAt := occurredAt }

def emailAlreadyRegistered : AppError where
  status := 409
  code := "email_already_registered"
  detail := "An account with this email already exists"

def register (body : RegisterRequest) (client : Client) : Tx User := do
  let passwordHash ← Prog.callOut (.hashPassword body.password)
  let id ← Prog.freshId
  let user : User :=
    { id, email := lower body.email, passwordHash
      displayName := body.displayName }
  let conflict ← Prog.insertRow (σ := schema) .users user
  match conflict with
  | some _ => do
      Prog.rollbackNow
      .raise emailAlreadyRegistered
  | none => do
      issueToken H user .verifyEmail "email.verification" (hours 24)
      audit user.id none "account.registered" "user" user.id .empty
        (some client.requestId)
      Prog.commitNow
      return user

/-! ## Sessions -/

def invalidCredentials : AppError where
  status := 401
  code := "invalid_credentials"
  detail := "Email or password is incorrect"

/-- The user with this address, by the unique index on it. -/
def userByEmail (email : String) : Tx (Option User) := do
  let rows ← Prog.select fun db : Db =>
    (db .users).rows.filter fun u : User => u.email = lower email
  scalarOneOrNone rows

def login (body : LoginRequest) (client : Client) : Tx TokenPair := do
  enforceRateLimit "login" client.address body.email settings.loginRateLimit
  let user ← userByEmail body.email
  let user ← Prog.require user invalidCredentials
  Prog.ensure user.isActive invalidCredentials
  let verified ← Prog.callOut (.verifyPassword body.password user.passwordHash)
  Prog.ensure (verified ≠ 0) invalidCredentials
  let raw ← Prog.freshId
  let familyId ← Prog.freshId
  let time ← now
  let id ← Prog.freshId
  let createdAt ← now
  let session : AuthSession :=
    { id, userId := user.id, familyId, refreshTokenHash := H.hash raw
      createdAt, expiresAt := time + days settings.refreshTokenDays
      userAgent := client.userAgent, ipAddress := client.host }
  Prog.insertOrHalt (σ := schema) .authSessions session
  audit user.id none "session.created" "session" session.id .empty
    (some client.requestId)
  Prog.commitNow
  pair user session raw settings

def invalidRefreshToken : AppError where
  status := 401
  code := "invalid_refresh_token"
  detail := "Refresh token is invalid"

def deadRefreshToken : AppError where
  status := 401
  code := "invalid_refresh_token"
  detail := "Refresh token is expired or revoked"

def refreshTokenReuse : AppError where
  status := 401
  code := "refresh_token_reuse"
  detail := "Refresh token reuse detected; the session family was revoked"

/-- The `UPDATE` that revokes the rows that satisfy `pred`. -/
def revokeWhere (pred : AuthSession → Bool) (time : Instant) : Tx Unit := do
  let _ ← Prog.locking (σ := schema) (t := .authSessions)
    { pred, effect := fun s => .write { s with revokedAt := some time } }
  return ()

/-- The successor that a refresh leaves in the family of `session`. -/
def exchange (session : AuthSession) (user : User) (time : Instant) :
    Tx TokenPair := do
  let raw ← Prog.freshId
  Prog.updateKey (σ := schema) .authSessions (.id session.id)
    fun s => { s with rotatedAt := some time }
  let id ← Prog.freshId
  let createdAt ← now
  let successor : AuthSession :=
    { id, userId := session.userId, familyId := session.familyId
      refreshTokenHash := H.hash raw, createdAt
      expiresAt := session.expiresAt, userAgent := session.userAgent
      ipAddress := session.ipAddress }
  Prog.insertOrHalt (σ := schema) .authSessions successor
  Prog.commitNow
  pair user successor raw settings

def refresh (body : RefreshRequest) : Tx TokenPair := do
  let session ← Prog.locking (σ := schema) (t := .authSessions)
    { pred := fun s => s.refreshTokenHash = H.hash body.refreshToken }
  let session ← scalarOneOrNone session
  let time ← now
  let session ← Prog.require session invalidRefreshToken
  if session.rotatedAt.isSome then do
    revokeWhere (fun s => s.familyId = session.familyId) time
    Prog.commitNow
    .raise refreshTokenReuse
  else do
    Prog.ensure (session.revokedAt.isNone && time < session.expiresAt)
      deadRefreshToken
    let user ← get .users (.id session.userId)
    match user.filter (·.isActive) with
    | none => do
        revokeWhere (fun s => s.familyId = session.familyId) time
        Prog.commitNow
        .raise deadRefreshToken
    | some user => exchange H settings session user time

def logout (authorization : Authorization) : Tx Unit := do
  let principal ← currentPrincipal authorization
  let time ← now
  revokeWhere (fun s => s.userId = principal.user.id ∧
    s.familyId = principal.sessionId ∧ s.revokedAt = none) time
  Prog.commitNow

/-- The rows that `sessions` lists, newest first. -/
def sessionRows (userId : Uuid) (db : Db) : List AuthSession :=
  ((db .authSessions).rows.filter fun s : AuthSession =>
    s.userId = userId ∧ s.rotatedAt = none).insertionSort
      fun x y => y.createdAt ≤ x.createdAt

def sessionResponse (s : AuthSession) : SessionResponse where
  id := s.familyId
  createdAt := s.createdAt
  expiresAt := s.expiresAt
  revokedAt := s.revokedAt
  userAgent := s.userAgent
  ipAddress := s.ipAddress

def sessions (authorization : Authorization) : Tx (List SessionResponse) := do
  let user ← currentUser authorization
  let rows ← Prog.select (sessionRows user.id)
  return rows.map sessionResponse

def revokeSession (sessionId : Uuid) (authorization : Authorization) :
    Tx Unit := do
  let user ← currentUser authorization
  let time ← now
  revokeWhere (fun s => s.familyId = sessionId ∧ s.userId = user.id) time
  Prog.commitNow

def revokeAll (authorization : Authorization) : Tx Unit := do
  let user ← currentUser authorization
  let time ← now
  revokeWhere (fun s => s.userId = user.id ∧ s.revokedAt = none) time
  Prog.commitNow

/-! ## One-time tokens -/

def invalidToken : AppError where
  status := 400
  code := "invalid_token"
  detail := "Token is invalid or expired"

/-- The row of a one-time token, locked, with the time at which it is still
good. -/
def claimToken (token : Token) (purpose : Purpose) :
    Tx (OneTimeToken × Instant) := do
  let row ← Prog.locking (σ := schema) (t := .oneTimeTokens)
    { pred := fun t => t.tokenHash = H.hash token ∧ t.purpose = purpose }
  let row ← scalarOneOrNone row
  let time ← now
  let row ← Prog.require row invalidToken
  Prog.ensure (row.usedAt.isNone && time < row.expiresAt) invalidToken
  return (row, time)

/-- `assert user` fails without an answer. -/
def assertUser (user : Option User) : Tx User :=
  match user with
  | some user => pure user
  | none => .halt

def verifyEmail (body : VerifyEmailRequest) : Tx Unit := do
  let (row, time) ← claimToken H body.token .verifyEmail
  let user ← get .users (.id row.userId)
  let user ← assertUser user
  Prog.updateKey (σ := schema) .users (.id user.id)
    fun u => { u with emailVerifiedAt := some time }
  Prog.updateKey (σ := schema) .oneTimeTokens (.id row.id)
    fun t => { t with usedAt := some time }
  Prog.commitNow

def resendVerification (authorization : Authorization) (client : Client) :
    Tx String := do
  let user ← currentUser authorization
  enforceRateLimit "verify-resend" client.address user.email
    settings.verificationRateLimit
  if user.emailVerifiedAt.isNone then
    issueToken H user .verifyEmail "email.verification" (hours 24)
    Prog.commitNow
  return "Verification instructions will be sent if needed"

def requestReset (body : PasswordResetRequest) (client : Client) :
    Tx String := do
  enforceRateLimit "password-reset" client.address body.email
    settings.passwordResetRateLimit
  let user ← userByEmail body.email
  match user with
  | some user => do
      issueToken H user .passwordReset "email.password_reset" (hours 1)
      Prog.commitNow
  | none => pure ()
  return "If the account exists, reset instructions will be sent"

/-- The pending changes are flushed before the `UPDATE` of the sessions. -/
def resetPassword (body : PasswordResetConfirm) : Tx Unit := do
  let (row, time) ← claimToken H body.token .passwordReset
  let user ← get .users (.id row.userId)
  let user ← assertUser user
  let passwordHash ← Prog.callOut (.hashPassword body.newPassword)
  Prog.updateKey (σ := schema) .users (.id user.id)
    fun u => { u with passwordHash }
  Prog.updateKey (σ := schema) .oneTimeTokens (.id row.id)
    fun t => { t with usedAt := some time }
  revokeWhere (fun s => s.userId = user.id) time
  Prog.commitNow

end Endpoints

/-! ## Requests -/

inductive Request where
  | register (body : RegisterRequest) (client : Client)
  | login (body : LoginRequest) (client : Client)
  | refresh (body : RefreshRequest)
  | logout (authorization : Authorization)
  | sessions (authorization : Authorization)
  | revokeSession (sessionId : Uuid) (authorization : Authorization)
  | revokeAll (authorization : Authorization)
  | verifyEmail (body : VerifyEmailRequest)
  | resendVerification (authorization : Authorization) (client : Client)
  | requestReset (body : PasswordResetRequest) (client : Client)
  | resetPassword (body : PasswordResetConfirm)

inductive Response where
  | user (user : User)
  | tokens (tokens : TokenPair)
  | sessions (sessions : List SessionResponse)
  | accepted (detail : String)
  | noContent

def serve (H : TokenHash) (settings : Settings) : Request → Tx Response
  | .register body client => .user <$> register H body client
  | .login body client => .tokens <$> login H settings body client
  | .refresh body => .tokens <$> refresh H settings body
  | .logout authorization => (fun _ => .noContent) <$> logout authorization
  | .sessions authorization => .sessions <$> sessions authorization
  | .revokeSession sessionId authorization =>
      (fun _ => .noContent) <$> revokeSession sessionId authorization
  | .revokeAll authorization =>
      (fun _ => .noContent) <$> revokeAll authorization
  | .verifyEmail body => (fun _ => .noContent) <$> verifyEmail H body
  | .resendVerification authorization client =>
      .accepted <$> resendVerification H settings authorization client
  | .requestReset body client =>
      .accepted <$> requestReset H settings body client
  | .resetPassword body => (fun _ => .noContent) <$> resetPassword H body

end Workstream.Auth
