import Workstream.Infrastructure.Outbox
import Workstream.Modules.Notifications.Service
import Workstream.Modules.Tracker.Endpoints
import Workstream.Seed

/-!
# The application

All that talks to the database: the endpoints of every router, from the bearer
token to the response, the dispatcher of the outbox and the command that plants
the demo data.
-/

namespace Workstream.Application

open ReadCommitted

/-- What the application knows of its surroundings. -/
structure Environment extends Tracker.Deployment where
  dispatching : Outbox.DispatchSettings
  className : ℕ → String
  uuid5 : String → Uuid

inductive Request where
  | account (request : Auth.Request)
  | tracker (client : Auth.Client) (authorization : Authorization)
      (endpoint : Tracker.Endpoint)
  | notifications (authorization : Authorization)
      (endpoint : Notifications.Endpoint)
  | dispatch (worker : String) (batchSize : ℕ)
  | seed

inductive Response where
  | account (response : Auth.Response)
  | tracker (answer : Tracker.Answer)
  | notifications (answer : Notifications.Answer)
  | dispatched (processed : ℕ)
  | seeded

def serve (E : Environment) : Request → Tx Response
  | .account request =>
      .account <$> Auth.serve E.tokens E.settings request
  | .tracker client authorization endpoint =>
      .tracker <$> endpoint.serve E.toDeployment client authorization
  | .notifications authorization endpoint =>
      .notifications <$> endpoint.serve E.platform authorization
  | .dispatch worker batchSize =>
      .dispatched <$>
        Outbox.dispatchOutbox E.dispatching E.className worker batchSize
  | .seed => (fun _ => .seeded) <$> Seed.main E.uuid5

/-- The world in which every client is about to send its request. -/
abbrev clients (E : Environment) (requests : Pid → Request) (s₀ : Db) :
    World schema AppError Response :=
  World.start s₀ fun p => serve E (requests p)

end Workstream.Application
