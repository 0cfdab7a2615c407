import Workstream.Infrastructure.Redis
import Workstream.Modules.Auth.Router

/-!
# Rate limits

The keys under which the endpoints count their requests.  Every spelling of an
address that a login looks up as one user is counted under one key.
-/

namespace Workstream.RateLimit

open ReadCommitted Redis

variable (digest : String → String)

/-- The key that a hit of `enforce_rate_limit` is counted under; `digest` is
the prefix of the digest of an account. -/
def limiterKey : Call → Option String
  | .rateLimitHit scope client account =>
      some (scope ++ ":" ++ client ++ ":" ++ digest account)
  | _ => none

/-- The handler begins with a hit on the key. -/
def HitsFirst {α : Type} (key : String) (tx : Tx α) : Prop :=
  ∃ (call : Call) (f : ℕ → Tx α), limiterKey digest call = some key ∧
    tx = Prog.callOut call >>= f

/-- The address is the one that a login finds the user by. -/
def Finds (db : Db) (email : String) (user : User) : Prop :=
  ((db .users).rows.filter fun u : User => u.email = lower email) = [user]

theorem accountKey_eq {a b : String} (h : lower a = lower b) :
    accountKey a = accountKey b := by
  have hkey : ∀ s, accountKey s = strip (lower s) := by
    intro s
    rw [accountKey, strip, strip, toList_lower, Text.strip_lower, lower,
      String.toList_ofList]
  rw [hkey, hkey, h]

theorem Finds.email_eq {db : Db} {email : String} {user : User}
    (h : Finds db email user) : user.email = lower email := by
  have hmem : user ∈ (db .users).rows.filter
      fun u : User => u.email = lower email := by
    rw [h]
    exact List.mem_singleton_self user
  exact of_decide_eq_true (List.mem_filter.mp hmem).2

theorem login_hitsFirst (H : TokenHash) (settings : Settings)
    (body : Auth.LoginRequest) (client : Auth.Client) :
    HitsFirst digest ("login:" ++ client.address ++ ":" ++
      digest (accountKey body.email)) (Auth.login H settings body client) := by
  unfold Auth.login enforceRateLimit
  simp only [bind_assoc]
  exact ⟨_, _, rfl, rfl⟩

/-- Every key is limited, and a login is counted for the user it looks up and
the address it comes from, however the email address is spelled. -/
theorem hits_limited (H : TokenHash) (settings : Settings) :
    (∀ (key : String) (limit window : ℕ) (hs : List Hit), 1 ≤ limit →
      1 ≤ window → (hs.Pairwise fun x y => x.time ≤ y.time) →
      Uniform key limit window hs → Limited key limit window hs) ∧
    ∀ (db db' : Db) (user : User) (body body' : Auth.LoginRequest)
      (client client' : Auth.Client), Finds db body.email user →
      Finds db' body'.email user → client.address = client'.address →
      ∃ key, HitsFirst digest key (Auth.login H settings body client) ∧
        HitsFirst digest key (Auth.login H settings body' client') := by
  constructor
  · intro key limit window hs hlimit hwindow hsorted hu
    exact limited hlimit hwindow hsorted hu
  · intro db db' user body body' client client' hfinds hfinds' haddress
    have hemail : lower body.email = lower body'.email :=
      hfinds.email_eq.symm.trans hfinds'.email_eq
    have hhit := login_hitsFirst digest H settings body client
    rw [accountKey_eq hemail, haddress] at hhit
    exact ⟨_, hhit, login_hitsFirst digest H settings body' client'⟩

def ada : User where
  id := 1
  email := "åda@example.org"
  passwordHash := 0
  displayName := "Ada"

theorem hits_limited_ada :
    Limited "login" 1 60
        [{ time := 0, key := "login", limit := 1, window := 60 },
          { time := 60000, key := "login", limit := 1, window := 60 }] ∧
      ∃ key, HitsFirst id key (Auth.login plainHash {}
          { email := "åda@example.org", password := "first" }
          { host := none, userAgent := none, requestId := "a" }) ∧
        HitsFirst id key (Auth.login plainHash {}
          { email := "ÅDA@Example.org", password := "second" }
          { host := none, userAgent := none, requestId := "b" }) := by
  obtain ⟨hlimited, hlogin⟩ := hits_limited id plainHash {}
  constructor
  · refine hlimited "login" 1 60 _ (by decide) (by decide) (by decide) ?_
    unfold Uniform
    decide
  · have hfinds : Finds (Store.view (σ := schema) [.put .users ada]
        (Store.empty schema)) "åda@example.org" ada := by
      unfold Finds
      decide +kernel
    have hfinds' : Finds (Store.view (σ := schema) [.put .users ada]
        (Store.empty schema)) "ÅDA@Example.org" ada := by
      unfold Finds
      decide +kernel
    exact hlogin _ _ ada _ _ _ _ hfinds hfinds' rfl

end Workstream.RateLimit
