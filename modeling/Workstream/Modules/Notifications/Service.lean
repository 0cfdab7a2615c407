import Workstream.Modules.Tracker.Listings

/-!
# The notification service

What a user does with the notifications that others have caused: the two
statements that mark them as read name the user in their `WHERE` clause, and
so does the count of those that are not.
-/

namespace Workstream.Notifications

open ReadCommitted

/-- The `WHERE` clause of the count, and of `mark_all_read`. -/
def Unread (userId : Uuid) (x : Notification) : Prop :=
  x.userId = userId ∧ x.readAt = none

instance (userId : Uuid) (x : Notification) : Decidable (Unread userId x) :=
  inferInstanceAs (Decidable (_ ∧ _))

def unreadRows (userId : Uuid) (db : Db) : List Notification :=
  (db .notifications).rows.filter fun x : Notification => Unread userId x

def unreadCount (user : User) : Tx ℕ :=
  Prog.select fun db => (unreadRows user.id db).length

def markRead (user : User) (notificationId : Uuid) : Tx Unit := do
  let time ← now
  let _ ← Prog.locking (σ := schema) (t := .notifications)
    { pred := fun x => x.id = notificationId ∧ x.userId = user.id
      effect := fun x => .write { x with readAt := some time } }
  Prog.commitNow

def markAllRead (user : User) : Tx Unit := do
  let time ← now
  let _ ← Prog.locking (σ := schema) (t := .notifications)
    { pred := fun x => Unread user.id x
      effect := fun x => .write { x with readAt := some time } }
  Prog.commitNow

/-! ## Endpoints -/

inductive Endpoint where
  | list (cursor : Option String) (limit : Limit)
  | unread
  | read (notificationId : Uuid)
  | readAll

inductive Answer where
  | page (page : CursorPage Notification)
  | count (count : ℕ)
  | noContent

def Endpoint.handle (P : Platform) (user : User) : Endpoint → Tx Answer
  | .list cursor limit => .page <$> Notifications.list P user cursor limit
  | .unread => .count <$> unreadCount user
  | .read notificationId =>
      (fun _ => .noContent) <$> markRead user notificationId
  | .readAll => (fun _ => .noContent) <$> markAllRead user

/-- A request with its bearer token. -/
def Endpoint.serve (P : Platform) (authorization : Authorization)
    (endpoint : Endpoint) : Tx Answer := do
  let user ← currentUser authorization
  endpoint.handle P user

end Workstream.Notifications
