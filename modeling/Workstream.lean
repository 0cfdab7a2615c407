import Workstream.ReadCommitted.Rules
import Workstream.Text.Unicode
import Workstream.Text.Letters
import Workstream.Text.Lower
import Workstream.Modules.Models
import Workstream.Api.Dependencies
import Workstream.Modules.Organizations.Service
import Workstream.Modules.Organizations.FinalOwner
import Workstream.Modules.Auth.Router
import Workstream.Modules.Auth.Families
import Workstream.Modules.Auth.Revocation
import Workstream.ReadCommitted.Undisturbed
import Workstream.ReadCommitted.Steady
import Workstream.Modules.Auth.Presentation
import Workstream.Modules.Auth.SessionRuns
import Workstream.Modules.Projects.Service
import Workstream.Modules.Issues.Service
import Workstream.Modules.Issues.Effects
import Workstream.Modules.Issues.Commits
import Workstream.Modules.Issues.Numbering
import Workstream.Modules.Issues.Versions
import Workstream.Modules.Issues.Workflow
import Workstream.Infrastructure.EventLife
import Workstream.Infrastructure.Dispatching
import Workstream.Infrastructure.Leases
import Workstream.ReadCommitted.Solo
import Workstream.Infrastructure.Claims
import Workstream.Api.Requests
import Workstream.Modules.Organizations.Effects
import Workstream.Modules.Organizations.Commits
import Workstream.Modules.Organizations.Authorization
import Workstream.Modules.Organizations.Steps
import Workstream.Modules.Organizations.Invitations
import Workstream.Modules.Organizations.Removal
import Workstream.Modules.Organizations.Replay
import Workstream.Modules.Auth.Commits
import Workstream.Modules.Auth.Tokens
import Workstream.Modules.Auth.Passwords
import Workstream.Infrastructure.Delivery
import Workstream.Modules.Comments.Service
import Workstream.Modules.Labels.Service
import Workstream.Modules.Comments.Transactions
import Workstream.Modules.Labels.Transactions
import Workstream.Modules.Tracker.Requests
import Workstream.Modules.Tracker.Tenancy
import Workstream.Modules.Tracker.Archive
import Workstream.Modules.Tracker.Roles
import Workstream.Keyset.Page
import Workstream.Keyset.Walk
import Workstream.Text.Base64
import Workstream.Text.Calendar
import Workstream.Text.Numeral
import Workstream.Api.Pagination
import Workstream.ReadCommitted.Reads
import Workstream.Api.Cursors
import Workstream.Api.Listing
import Workstream.Modules.Tracker.Listings
import Workstream.Modules.Tracker.Walks
import Workstream.Modules.Issues.Search
import Workstream.Modules.Tracker.Admission
import Workstream.Modules.Tracker.Assignees
import Workstream.Modules.Conflicts
import Workstream.Limits.FixedWindow
import Workstream.Infrastructure.Redis
import Workstream.Api.RateLimit
import Workstream.Modules.Auth.Expiry
import Workstream.Text.Pattern
import Workstream.Text.Substitution
import Workstream.Observability.Redaction
import Workstream.Observability.Occurrences
import Workstream.Observability.Secrets
import Workstream.ReadCommitted.Constraints
import Workstream.Modules.Schemas
import Workstream.Modules.Writes
import Workstream.Modules.Auth.Writes
import Workstream.Modules.Validation
import Workstream.Modules.Organizations.Outcomes
import Workstream.Modules.Auth.Resets
import Workstream.ReadCommitted.UnitOfWork
import Workstream.Modules.Tracker.Edits
import Workstream.ReadCommitted.Twins
import Workstream.ReadCommitted.Sight
import Workstream.Modules.Tracker.Endpoints
import Workstream.Modules.Tracker.Divide
import Workstream.Modules.Tracker.Strangers
import Workstream.Modules.Tracker.Isolation
import Workstream.ReadCommitted.Discipline
import Workstream.Modules.Notifications.Service
import Workstream.Seed
import Workstream.Modules.Application
import Workstream.Modules.Application.Duties
import Workstream.Modules.Application.Checks
import Workstream.Modules.Application.Runs
import Workstream.Modules.Application.Records
import Workstream.ReadCommitted.References
import Workstream.Modules.Application.References
import Workstream.ReadCommitted.Permission
import Workstream.ReadCommitted.Questions
import Workstream.Modules.Application.Limits
import Workstream.ReadCommitted.Frames
import Workstream.Modules.Application.Permission
import Workstream.Modules.Application.Sessions
import Workstream.Modules.Application.Atomicity
