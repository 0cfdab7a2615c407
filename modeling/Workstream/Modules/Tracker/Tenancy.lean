import Workstream.Modules.Issues.Numbering
import Workstream.Modules.Tracker.Requests

/-!
# Tenants

Nothing in the schema keeps the rows of different organizations apart: a
foreign key names a row, not its organization.  What keeps them apart is that
every write refers to rows that have been found in the organization of the
request, and that rows never move.
-/

namespace Workstream.Tracker

open ReadCommitted Contract World

/-- The organization to which a row belongs. -/
def organizationOf : (t : Table) → Row t → Option Uuid
  | .organizations, r => some r.id
  | .memberships, r => some r.organizationId
  | .invitations, r => some r.organizationId
  | .projects, r => some r.organizationId
  | .issues, r => some r.organizationId
  | .labels, r => some r.organizationId
  | .comments, r => some r.organizationId
  | .notifications, r => r.organizationId
  | .auditEvents, r => r.organizationId
  | _, _ => none

/-- Rows that refer to one another belong to one organization. -/
structure Tenancy (db : Db) : Prop where
  issues : ∀ x ∈ (db .issues).rows, ∃ y : Project,
    (db .projects).lookup (.id (Issue.projectId x)) = some y ∧
      Issue.organizationId x = y.organizationId
  comments : ∀ x ∈ (db .comments).rows, ∃ y : Issue,
    (db .issues).lookup (.id (Comment.issueId x)) = some y ∧
      Comment.organizationId x = y.organizationId
  links : ∀ x ∈ (db .issueLabels).rows, ∃ (y : Issue) (z : Label),
    (db .issues).lookup (.id (IssueLabel.issueId x)) = some y ∧
      (db .labels).lookup (.id (IssueLabel.labelId x)) = some z ∧
      y.organizationId = z.organizationId
  notifications : ∀ x ∈ (db .notifications).rows,
    Notification.kind x = "issue.assigned" → ∃ y : Issue,
      (db .issues).lookup (.id (Notification.payload x)) = some y ∧
        Notification.organizationId x = some y.organizationId

/-- A row that stays stays in its organization. -/
def Settled (c : Commit schema) : Prop :=
  ∀ t k r r', (c.before t).lookup k = some r → (c.after t).lookup k = some r' →
    organizationOf t r' = organizationOf t r

/-! ## Writes -/

/-- A table whose rows refer to one another, or are referred to. -/
def Referring (t : Table) : Bool :=
  t ∈ [Table.projects, .issues, .labels, .issueLabels, .comments,
    .notifications]

/-- The row replaces one of its own organization, or none. -/
def Replaces (c : Commit schema) (t : Table) (r : Row t) : Prop :=
  ∀ x, (c.before t).lookup (primaryKey t r) = some x →
    organizationOf t r = organizationOf t x

/-- A write that keeps the organizations apart. -/
inductive Safe (c : Commit schema) : Write schema → Prop where
  | aside (t : Table) (r : Row t) (ht : Referring t = false)
      (hreplaces : Replaces c t r) : Safe c (.put t r)
  | asideGone (t : Table) (k : Key) (ht : Referring t = false) :
      Safe c (.del t k)
  | project (r : Project) (hreplaces : Replaces c .projects r) :
      Safe c (.put .projects r)
  | issue (r x : Issue) (hrow : (c.before .issues).lookup (.id r.id) = some x)
      (horganization : r.organizationId = x.organizationId)
      (hproject : r.projectId = x.projectId) : Safe c (.put .issues r)
  | newIssue (r : Issue) (y : Project)
      (hnew : (c.before .issues).lookup (.id r.id) = none)
      (hproject : (c.before .projects).lookup (.id r.projectId) = some y)
      (horganization : r.organizationId = y.organizationId) :
      Safe c (.put .issues r)
  | label (r : Label) (hreplaces : Replaces c .labels r) :
      Safe c (.put .labels r)
  | labelGone (k : Uuid) (hlinks : ∀ i,
        (c.after .issueLabels).lookup (Labels.linkKey i k) = none) :
      Safe c (.del .labels (.id k))
  | link (r : IssueLabel) (y : Issue) (z : Label)
      (hheld : c.Held (.labels, .id r.labelId))
      (hissue : (c.before .issues).lookup (.id r.issueId) = some y)
      (hlabel : (c.before .labels).lookup (.id r.labelId) = some z)
      (horganization : y.organizationId = z.organizationId) :
      Safe c (.put .issueLabels r)
  | linkGone (k : Key) : Safe c (.del .issueLabels k)
  | comment (r x : Comment)
      (hrow : (c.before .comments).lookup (.id r.id) = some x)
      (horganization : r.organizationId = x.organizationId)
      (hissue : r.issueId = x.issueId) : Safe c (.put .comments r)
  | newComment (r : Comment) (y : Issue)
      (hnew : (c.before .comments).lookup (.id r.id) = none)
      (hissue : (c.before .issues).lookup (.id r.issueId) = some y)
      (horganization : r.organizationId = y.organizationId) :
      Safe c (.put .comments r)
  | commentGone (k : Key) : Safe c (.del .comments k)
  | notification (r : Notification) (y : Issue)
      (hnew : (c.before .notifications).lookup (.id r.id) = none)
      (hissue : (c.after .issues).lookup (.id r.payload) = some y)
      (horganization : r.organizationId = some y.organizationId) :
      Safe c (.put .notifications r)

section Safe

variable {c : Commit schema}

theorem replaces_of_new {t : Table} {r : Row t}
    (h : (c.before t).lookup (primaryKey t r) = none) : Replaces c t r := by
  intro x hx
  rw [h] at hx
  cases hx

theorem replaces_of_row {t : Table} {r x : Row t}
    (hx : (c.before t).lookup (primaryKey t r) = some x)
    (h : organizationOf t r = organizationOf t x) : Replaces c t r := by
  intro y hy
  rw [hx] at hy
  rw [← Option.some.inj hy]
  exact h

theorem Safe.replaces {t : Table} {r : Row t} (h : Safe c (.put t r)) :
    Replaces c t r := by
  cases h with
  | aside _ _ _ hreplaces => exact hreplaces
  | project _ hreplaces => exact hreplaces
  | issue _ x hrow horganization _ =>
      exact replaces_of_row hrow (congrArg some horganization)
  | newIssue _ _ hnew _ _ => exact replaces_of_new hnew
  | label _ hreplaces => exact hreplaces
  | link _ y z _ _ _ _ => exact fun _ _ => rfl
  | comment _ x hrow horganization _ =>
      exact replaces_of_row hrow (congrArg some horganization)
  | newComment _ _ hnew _ _ => exact replaces_of_new hnew
  | notification _ _ hnew _ _ => exact replaces_of_new hnew

/-- A commit of such writes. -/
abbrev SafeCommit (c : Commit schema) : Prop :=
  ∀ w ∈ c.session.writes, Safe c w

theorem SafeCommit.settled (h : SafeCommit c) : Settled c := by
  intro t k r r' hr hr'
  rcases after_cases hr' with hsame | hput
  · rw [hr] at hsame
    rw [Option.some.inj hsame]
  · refine (h _ hput).replaces r ?_
    rw [show primaryKey t r' = k from Relation.key_of_lookup hr']
    exact hr

theorem SafeCommit.project (h : SafeCommit c) {k : Key} {x : Project}
    (hx : (c.before .projects).lookup k = some x) : ∃ y : Project,
      (c.after .projects).lookup k = some y ∧
        y.organizationId = x.organizationId := by
  rcases hy : (c.after .projects).lookup k with _ | y
  · rcases after_none hy with hnone | hdel
    · rw [hx] at hnone
      cases hnone
    · cases h _ hdel with
      | asideGone _ _ ht => cases ht
  · exact ⟨y, rfl, Option.some.inj (h.settled .projects k x y hx hy)⟩

theorem SafeCommit.issue (h : SafeCommit c) {k : Key} {x : Issue}
    (hx : (c.before .issues).lookup k = some x) : ∃ y : Issue,
      (c.after .issues).lookup k = some y ∧
        y.organizationId = x.organizationId := by
  rcases hy : (c.after .issues).lookup k with _ | y
  · rcases after_none hy with hnone | hdel
    · rw [hx] at hnone
      cases hnone
    · cases h _ hdel with
      | asideGone _ _ ht => cases ht
  · exact ⟨y, rfl, Option.some.inj (h.settled .issues k x y hx hy)⟩

/-- A label that has a link stays. -/
theorem SafeCommit.label (h : SafeCommit c) {i k : Uuid} {x : Label}
    (hx : (c.before .labels).lookup (.id k) = some x)
    (hlink : (c.after .issueLabels).lookup (Labels.linkKey i k) ≠ none) :
    ∃ y : Label, (c.after .labels).lookup (.id k) = some y ∧
      y.organizationId = x.organizationId := by
  rcases hy : (c.after .labels).lookup (.id k) with _ | y
  · rcases after_none hy with hnone | hdel
    · rw [hx] at hnone
      cases hnone
    · cases h _ hdel with
      | asideGone _ _ ht => cases ht
      | labelGone _ hlinks => exact absurd (hlinks i) hlink
  · exact ⟨y, rfl, Option.some.inj (h.settled .labels _ x y hx hy)⟩

/-- A link is added under the lock of its label. -/
theorem SafeCommit.link (h : SafeCommit c) {i k : Uuid}
    (hnew : (c.before .issueLabels).lookup (Labels.linkKey i k) = none)
    (hlink : (c.after .issueLabels).lookup (Labels.linkKey i k) ≠ none) :
    c.Held (.labels, .id k) := by
  obtain ⟨x, hx⟩ := Option.ne_none_iff_exists'.mp hlink
  have hlabel := Labels.labelId_of_linkKey hx
  cases h _ (put_of_added hnew hx) with
  | aside _ _ ht _ => cases ht
  | link _ y z hheld _ _ _ => exact hlabel ▸ hheld

theorem Tenancy.after (h : Tenancy c.before) (hsafe : SafeCommit c) :
    Tenancy c.after where
  issues := by
    intro x hx
    have hold : ∀ (y : Project) (P O : Uuid),
        (c.before .projects).lookup (.id P) = some y →
        O = y.organizationId → ∃ y' : Project,
          (c.after .projects).lookup (.id P) = some y' ∧
            O = y'.organizationId := by
      intro y P O hy hO
      obtain ⟨y', hy', hsame⟩ := hsafe.project hy
      exact ⟨y', hy', hO.trans hsame.symm⟩
    rcases after_cases (Relation.lookup_key hx) with hbefore | hput
    · obtain ⟨y, hy, hO⟩ := h.issues x (Relation.mem_of_lookup hbefore)
      exact hold y _ _ hy hO
    · cases hsafe _ hput with
      | aside _ _ ht _ => cases ht
      | issue _ z hrow horganization hproject =>
          obtain ⟨y, hy, hO⟩ := h.issues z (Relation.mem_of_lookup hrow)
          rw [← hproject] at hy
          exact hold y _ _ hy (horganization.trans hO)
      | newIssue _ y _ hproject horganization =>
          exact hold y _ _ hproject horganization
  comments := by
    intro x hx
    have hold : ∀ (y : Issue) (i O : Uuid),
        (c.before .issues).lookup (.id i) = some y →
        O = y.organizationId → ∃ y' : Issue,
          (c.after .issues).lookup (.id i) = some y' ∧
            O = y'.organizationId := by
      intro y i O hy hO
      obtain ⟨y', hy', hsame⟩ := hsafe.issue hy
      exact ⟨y', hy', hO.trans hsame.symm⟩
    rcases after_cases (Relation.lookup_key hx) with hbefore | hput
    · obtain ⟨y, hy, hO⟩ := h.comments x (Relation.mem_of_lookup hbefore)
      exact hold y _ _ hy hO
    · cases hsafe _ hput with
      | aside _ _ ht _ => cases ht
      | comment _ z hrow horganization hissue =>
          obtain ⟨y, hy, hO⟩ := h.comments z (Relation.mem_of_lookup hrow)
          rw [← hissue] at hy
          exact hold y _ _ hy (horganization.trans hO)
      | newComment _ y _ hissue horganization =>
          exact hold y _ _ hissue horganization
  links := by
    intro x hx
    have hlink : (c.after .issueLabels).lookup
        (Labels.linkKey (IssueLabel.issueId x) x.labelId) ≠ none := by
      rw [show (c.after .issueLabels).lookup
        (Labels.linkKey (IssueLabel.issueId x) x.labelId) = some x from
          Relation.lookup_key hx]
      simp
    have hold : ∀ (y : Issue) (z : Label),
        (c.before .issues).lookup (.id x.issueId) = some y →
        (c.before .labels).lookup (.id x.labelId) = some z →
        y.organizationId = z.organizationId → ∃ (y' : Issue) (z' : Label),
          (c.after .issues).lookup (.id x.issueId) = some y' ∧
            (c.after .labels).lookup (.id x.labelId) = some z' ∧
              y'.organizationId = z'.organizationId := by
      intro y z hy hz hO
      obtain ⟨y', hy', hsame⟩ := hsafe.issue hy
      obtain ⟨z', hz', hsame'⟩ := hsafe.label hz hlink
      exact ⟨y', z', hy', hz', (hsame.trans hO).trans hsame'.symm⟩
    rcases after_cases (Relation.lookup_key hx) with hbefore | hput
    · obtain ⟨y, z, hy, hz, hO⟩ := h.links x (Relation.mem_of_lookup hbefore)
      exact hold y z hy hz hO
    · cases hsafe _ hput with
      | aside _ _ ht _ => cases ht
      | link _ y z _ hissue hlabel horganization =>
          exact hold y z hissue hlabel horganization
  notifications := by
    intro x hx hkind
    rcases after_cases (Relation.lookup_key hx) with hbefore | hput
    · obtain ⟨y, hy, hO⟩ :=
        h.notifications x (Relation.mem_of_lookup hbefore) hkind
      obtain ⟨y', hy', hsame⟩ := hsafe.issue hy
      exact ⟨y', hy', hO.trans (congrArg some hsame.symm)⟩
    · cases hsafe _ hput with
      | aside _ _ ht _ => cases ht
      | notification _ y _ hissue horganization =>
          exact ⟨y, hissue, horganization⟩

end Safe

/-! ## The contract -/

/-- Labels come with identifiers that nobody else draws, so that an identifier
belongs to one organization for good, which `home` tells; what is known of a
label that has been read then holds of the one that is locked later. -/
def tenancy (home : Uuid → Uuid) : Contract schema where
  inv := fun s => Tenancy s.store ∧ ∀ x ∈ (s.store .labels).rows,
    Label.organizationId x = home (Label.id x)
  assume := fun c => ∀ x : Label,
    (c.before .labels).lookup (.id x.id) = none →
    (c.after .labels).lookup (.id x.id) = some x → x.organizationId = home x.id
  guar := SafeCommit
  inv_draw := fun _ _ _ h => h

section Past

variable {home : Uuid → Uuid} {p : Pid} {s : Shared schema} {db : Db}
  {refs : List schema.Ref}

theorem project_of_past (h : (tenancy home).Past p s refs db) {k : Key}
    {x : Project} (hx : (db .projects).lookup k = some x) : ∃ y : Project,
      (s.store .projects).lookup k = some y ∧
        y.organizationId = x.organizationId := by
  obtain ⟨used, _, hrely⟩ := h
  refine hrely.induct (P := fun u : Shared schema => ∃ y : Project,
    (u.store .projects).lookup k = some y ∧
      y.organizationId = x.organizationId) ⟨x, hx, rfl⟩ ?_
  rintro u v henv ⟨y, hy, hxy⟩
  cases henv with
  | commit c _ _ _ _ _ hsafe =>
      obtain ⟨z, hz, hyz⟩ := SafeCommit.project hsafe hy
      exact ⟨z, hz, hyz.trans hxy⟩
  | draw => exact ⟨y, hy, hxy⟩

theorem issue_of_past (h : (tenancy home).Past p s refs db) {k : Key}
    {x : Issue} (hx : (db .issues).lookup k = some x) : ∃ y : Issue,
      (s.store .issues).lookup k = some y ∧
        y.organizationId = x.organizationId := by
  obtain ⟨used, _, hrely⟩ := h
  refine hrely.induct (P := fun u : Shared schema => ∃ y : Issue,
    (u.store .issues).lookup k = some y ∧
      y.organizationId = x.organizationId) ⟨x, hx, rfl⟩ ?_
  rintro u v henv ⟨y, hy, hxy⟩
  cases henv with
  | commit c _ _ _ _ _ hsafe =>
      obtain ⟨z, hz, hyz⟩ := SafeCommit.issue hsafe hy
      exact ⟨z, hz, hyz.trans hxy⟩
  | draw => exact ⟨y, hy, hxy⟩

theorem label_of_past (h : (tenancy home).Past p s refs db) {k : Uuid}
    {x : Label} (hx : (db .labels).lookup (.id k) = some x) :
    x.organizationId = home k := by
  obtain ⟨used, hinv, _⟩ := h
  have hid : x.id = k := Key.id.inj (Relation.key_of_lookup hx)
  exact hid ▸ hinv.2 x (Relation.mem_of_lookup hx)

/-- While a label is locked nothing is linked to it. -/
theorem link_of_past {i k : Uuid}
    (h : (tenancy home).Past p s [(.labels, .id k)] db)
    (hnone : (db .issueLabels).lookup (Labels.linkKey i k) = none) :
    (s.store .issueLabels).lookup (Labels.linkKey i k) = none := by
  obtain ⟨used, _, hrely⟩ := h
  refine hrely.induct (P := fun u : Shared schema =>
    (u.store .issueLabels).lookup (Labels.linkKey i k) = none) hnone ?_
  intro u v henv hu
  cases henv with
  | commit c _ _ hlocks _ _ hsafe =>
      by_contra hlink
      exact hlocks _ (SafeCommit.link hsafe hu hlink) List.mem_cons_self
  | draw => exact hu

end Past

/-! ## Transactions -/

section Transactions

variable {H : TokenHash} {home : Uuid → Uuid} {p : Pid} {s : Shared schema}
  {c : Commit schema}

theorem safe_audited {actorId O entityId : Uuid} {action entityType : String}
    {metadata : Metadata} {event : AuditEvent}
    (h : Audited c.before actorId O action entityType entityId metadata
      event) : Safe c (.put .auditEvents event) :=
  .aside .auditEvents event rfl (replaces_of_new h.new)

theorem safe_notified {O i : Uuid} {actor : User} {assigneeId : Option Uuid}
    {ws : List (Write schema)} {y : Issue}
    (h : Issues.Notified c.before O i actor assigneeId ws)
    (hy : (c.after .issues).lookup (.id i) = some y)
    (horganization : y.organizationId = O) : ∀ w ∈ ws, Safe c w := by
  intro w hw
  cases h with
  | nobody => cases hw
  | actor => cases hw
  | assignee userId id createdAt _ hnew =>
      rw [List.mem_singleton.mp hw]
      exact .notification _ y hnew hy (congrArg some horganization.symm)

/-- The row of an issue that is changed under its lock. -/
theorem safe_issue {r v : Issue} {i : Uuid}
    (hrow : (c.before .issues).lookup (.id i) = some r)
    (h : Issues.SameIssue r v) : Safe c (.put .issues v) := by
  have hid : r.id = i := Key.id.inj (Relation.key_of_lookup hrow)
  refine .issue v r ?_ h.organization h.project
  rw [h.id, hid]
  exact hrow

theorem safe_project {r v : Project} {k : Uuid}
    (hrow : (c.before .projects).lookup (.id k) = some r) (hid : v.id = r.id)
    (horganization : v.organizationId = r.organizationId) :
    Safe c (.put .projects v) := by
  have hk : r.id = k := Key.id.inj (Relation.key_of_lookup hrow)
  refine .project v (replaces_of_row (x := r) ?_ (congrArg some horganization))
  change (c.before .projects).lookup (.id v.id) = some r
  rw [hid, hk]
  exact hrow

theorem safe_issues {request : Issues.Request}
    (hbefore : c.before = s.store)
    (h : Issues.Transacts ((tenancy home).Past p s) request c) :
    SafeCommit c := by
  unfold SafeCommit
  cases h with
  | projectCreated m id createdAt event _ hnew haudit hwrites =>
      rw [hwrites]
      rintro w hw
      rcases List.mem_pair.mp hw with rfl | rfl
      · exact .project _ (replaces_of_new hnew)
      · exact safe_audited haudit
  | projectKept m project _ _ _ hwrites =>
      rw [hwrites]
      intro w hw
      cases hw
  | projectChanged m project r r' _ _ hrow hvalues hwrites =>
      rw [hwrites]
      intro w hw
      rw [List.mem_singleton.mp hw]
      exact safe_project hrow (Projects.ProjectUpdate.apply_same hvalues).1
        (Projects.ProjectUpdate.apply_organization hvalues)
  | archivedKept m project event _ _ _ haudit hwrites =>
      rw [hwrites]
      intro w hw
      rw [List.mem_singleton.mp hw]
      exact safe_audited haudit
  | archivedChanged m project r event _ _ _ hrow haudit hwrites =>
      rw [hwrites]
      intro w hw
      rcases List.mem_pair.mp hw with rfl | rfl
      · exact safe_project hrow rfl rfl
      · exact safe_audited haudit
  | @issueCreated O user body _ m project r id createdAt updatedAt event ws _
      hproject _ _ hrow hnew haudit hnotified hwrites =>
      obtain ⟨horganization, db, hpast, hread⟩ := hproject
      obtain ⟨y, hy, hsame⟩ := project_of_past hpast hread
      rw [← hbefore, hrow] at hy
      obtain rfl := Option.some.inj hy
      have hstored := lookup_after_put (t := Table.issues) [_] hwrites
        (fun w hw href => by
          rcases List.mem_cons.mp hw with rfl | hw
          · simp [Write.ref] at href
          · have htable := ref_of_notified hnotified w hw
            simp [href] at htable)
      rw [hwrites]
      intro w hw
      rcases List.mem_cons.mp hw with rfl | hw
      · exact safe_project hrow rfl rfl
      rcases List.mem_cons.mp hw with rfl | hw
      · refine .newIssue _ r hnew hrow ?_
        exact (hsame.trans horganization).symm
      rcases List.mem_cons.mp hw with rfl | hw
      · exact safe_audited haudit
      · exact safe_notified hnotified hstored rfl w hw
  | updated m db x r v time _ _ hexpected hvalues hwrites =>
      rw [hwrites]
      intro w hw
      rw [List.mem_singleton.mp hw]
      have hsame := Issues.IssueUpdate.apply_same hvalues
      exact safe_issue hexpected.row
        ⟨hsame.id, hsame.organization, hsame.project, hsame.number⟩
  | statusChanged m db x r time event _ _ _ _ hexpected haudit hwrites =>
      rw [hwrites]
      intro w hw
      rcases List.mem_pair.mp hw with rfl | rfl
      · exact safe_issue hexpected.row ⟨rfl, rfl, rfl, rfl⟩
      · exact safe_audited haudit
  | @assigned O i user body _ m db x r time event ws _ _ _ hexpected haudit
      hnotified hwrites =>
      have hid : Key.id r.id = .id i := Relation.key_of_lookup hexpected.row
      have hstored := lookup_after_put (t := Table.issues) [] hwrites
        (fun w hw href => by
          rcases List.mem_cons.mp hw with rfl | hw
          · simp [Write.ref] at href
          · have htable := ref_of_notified hnotified w hw
            simp [href] at htable)
      rw [show primaryKey .issues (Issues.bump r
        { r with assigneeId := body.assigneeId } time) = .id i from hid]
        at hstored
      rw [hwrites]
      intro w hw
      rcases List.mem_cons.mp hw with rfl | hw
      · exact safe_issue hexpected.row ⟨rfl, rfl, rfl, rfl⟩
      rcases List.mem_cons.mp hw with rfl | hw
      · exact safe_audited haudit
      · exact safe_notified hnotified hstored hexpected.organization w hw
  | archived m db x r archivedAt updatedAt _ _ _ hrow hwrites =>
      rw [hwrites]
      intro w hw
      rw [List.mem_singleton.mp hw]
      exact safe_issue hrow ⟨rfl, rfl, rfl, rfl⟩

/-- The label that is locked belongs where the one that was read does. -/
theorem organization_of_locked {O k : Uuid} {label r : Label}
    (hinv : (tenancy home).inv s) (hbefore : c.before = s.store)
    (hlabel : Labels.GotLabel ((tenancy home).Past p s) O k label)
    (hrow : (c.before .labels).lookup (.id k) = some r) :
    r.organizationId = O := by
  obtain ⟨horganization, db, hpast, hread⟩ := hlabel
  have hid : r.id = k := Key.id.inj (Relation.key_of_lookup hrow)
  rw [hbefore] at hrow
  have hhome := hinv.2 r (Relation.mem_of_lookup hrow)
  rw [hid, ← label_of_past hpast hread] at hhome
  exact hhome.trans horganization

theorem unlinked {k : Uuid} {ws : List (Write schema)}
    (hbefore : c.before = s.store)
    (h : Labels.Unlinks ((tenancy home).Past p s) k ws)
    (hwrites : c.session.writes = .del .labels (.id k) :: ws) (i : Uuid) :
    (c.after .issueLabels).lookup (Labels.linkKey i k) = none := by
  have hput : ∀ r, .put .issueLabels r ∉ c.session.writes := by
    intro r hr
    rw [hwrites] at hr
    rcases List.mem_cons.mp hr with hr | hr
    · cases hr
    · obtain ⟨j, hj⟩ := h.links _ hr
      cases hj
  obtain ⟨snapshot, hpast, hall⟩ := h.all
  have hgone : ∀ {db : Db},
      (tenancy home).Past p s [(.labels, .id k)] db →
      (db .issueLabels).lookup (Labels.linkKey i k) = none →
      (c.after .issueLabels).lookup (Labels.linkKey i k) = none := by
    intro db hpast hnone
    by_contra hlink
    obtain ⟨x, hx⟩ := Option.ne_none_iff_exists'.mp hlink
    rcases after_cases hx with hold | hnew
    · rw [hbefore, link_of_past hpast hnone] at hold
      cases hold
    · exact hput x hnew
  by_cases hsnapshot :
      (snapshot .issueLabels).lookup (Labels.linkKey i k) = none
  · exact hgone hpast hsnapshot
  · rcases hall i hsnapshot with hdel | ⟨db, hpast', hnone⟩
    · refine after_of_del ?_ fun r hr => absurd hr (hput r)
      rw [hwrites]
      exact List.mem_cons_of_mem _ hdel
    · exact hgone hpast' hnone

theorem safe_labels {request : Labels.Request} (hinv : (tenancy home).inv s)
    (hbefore : c.before = s.store)
    (h : Labels.Transacts ((tenancy home).Past p s) request c) :
    SafeCommit c := by
  unfold SafeCommit
  cases h with
  | created m id _ _ hnew hwrites =>
      rw [hwrites]
      intro w hw
      rw [List.mem_singleton.mp hw]
      exact .label _ (replaces_of_new hnew)
  | @updated O k user body _ m label r _ _ _ hrow hwrites =>
      have hid : r.id = k := Key.id.inj (Relation.key_of_lookup hrow)
      rw [hwrites]
      intro w hw
      rw [List.mem_singleton.mp hw]
      refine .label _ (replaces_of_row (x := r) ?_ rfl)
      change (c.before .labels).lookup (.id r.id) = some r
      rw [hid]
      exact hrow
  | deleted m label r ws _ _ _ _ hunlinks hwrites =>
      have hlinks := unlinked hbefore hunlinks hwrites
      rw [hwrites]
      intro w hw
      rcases List.mem_cons.mp hw with rfl | hw
      · exact .labelGone _ hlinks
      · obtain ⟨i, rfl⟩ := hunlinks.links w hw
        exact .linkGone _
  | attached m db x label r _ hgot hlabel hheld hrow _ hwrites =>
      obtain ⟨y, hy, hsame⟩ := issue_of_past hgot.past hgot.row
      rw [← hbefore] at hy
      have horganization := organization_of_locked hinv hbefore hlabel hrow
      rw [hwrites]
      intro w hw
      rw [List.mem_singleton.mp hw]
      exact .link _ y r hheld hy hrow
        ((hsame.trans hgot.organization).trans horganization.symm)
  | detached m db x label _ _ _ _ hwrites =>
      rw [hwrites]
      intro w hw
      rw [List.mem_singleton.mp hw]
      exact .linkGone _
  | kept _ _ _ _ _ hwrites => simp [hwrites]
  | missed _ _ _ _ _ _ _ hwrites => simp [hwrites]
  | attachedBefore _ _ _ _ _ _ _ _ _ _ hwrites => simp [hwrites]
  | detachedBefore _ _ _ _ _ _ _ _ _ _ hwrites => simp [hwrites]

theorem safe_comments {request : Comments.Request}
    (hbefore : c.before = s.store)
    (h : Comments.Transacts ((tenancy home).Past p s) request c) :
    SafeCommit c := by
  unfold SafeCommit
  cases h with
  | created m db x id createdAt _ hgot hnew hwrites =>
      obtain ⟨y, hy, hsame⟩ := issue_of_past hgot.past hgot.row
      rw [← hbefore] at hy
      rw [hwrites]
      intro w hw
      rw [List.mem_singleton.mp hw]
      exact .newComment _ y hnew hy (hsame.trans hgot.organization).symm
  | @updated O k user body _ m row r time _ _ _ hrow hwrites =>
      have hid : r.id = k := Key.id.inj (Relation.key_of_lookup hrow)
      rw [hwrites]
      intro w hw
      rw [List.mem_singleton.mp hw]
      refine .comment _ r ?_ rfl rfl
      change (c.before .comments).lookup (.id r.id) = some r
      rw [hid]
      exact hrow
  | deleted m row r _ _ _ _ hwrites =>
      rw [hwrites]
      intro w hw
      rw [List.mem_singleton.mp hw]
      exact .commentGone _
  | missed _ _ _ _ _ _ _ hwrites => simp [hwrites]

theorem safe_membership {O k : Uuid} {r : Membership} {role : Role}
    (hrow : (c.before .memberships).lookup (membershipKey O k) = some r) :
    Safe c (.put .memberships { r with role }) := by
  have hkey : primaryKey .memberships { r with role } = membershipKey O k :=
    Relation.key_of_lookup hrow
  refine .aside .memberships _ rfl (replaces_of_row (x := r) ?_ rfl)
  rw [hkey]
  exact hrow

theorem safe_invitation {r v : Invitation}
    (hrow : (c.before .invitations).lookup (.id r.id) = some r)
    (hid : v.id = r.id) (horganization : v.organizationId = r.organizationId) :
    Safe c (.put .invitations v) := by
  refine .aside .invitations v rfl
    (replaces_of_row (x := r) ?_ (congrArg some horganization))
  change (c.before .invitations).lookup (.id v.id) = some r
  rw [hid]
  exact hrow

theorem safe_organizations {past : List schema.Ref → Db → Prop}
    {request : Organizations.Request}
    (h : Organizations.Effects H past request c) : SafeCommit c := by
  unfold SafeCommit
  cases h with
  | created org event _ _ hnew hmember haudit hwrites =>
      simp only [hwrites, List.forall_mem_cons, List.not_mem_nil,
        false_implies, implies_true, and_true]
      exact ⟨.aside .organizations _ rfl (replaces_of_new hnew),
        .aside .memberships _ rfl (replaces_of_new hmember),
        safe_audited haudit⟩
  | roleKept am m event _ _ _ haudit hwrites =>
      simpa [hwrites] using safe_audited haudit
  | roleChanged am m r event _ _ _ hrow haudit hwrites =>
      simpa [hwrites] using ⟨safe_membership hrow, safe_audited haudit⟩
  | removed am m event _ _ _ _ haudit hwrites =>
      simpa [hwrites] using
        ⟨safe_audited haudit, Safe.asideGone (c := c) .memberships _ rfl⟩
  | unremoved am m event db _ _ _ _ _ haudit hwrites =>
      simpa [hwrites] using safe_audited haudit
  | invited am id eventId raw time occurredAt event _ _ hnew _ haudit
      hwrites =>
      simp only [hwrites, List.forall_mem_cons, List.not_mem_nil,
        false_implies, implies_true, and_true]
      exact ⟨.aside .invitations _ rfl (replaces_of_new hnew),
        safe_audited haudit, .aside .outboxEvents _ rfl fun _ _ => rfl⟩
  | revoked am r time event _ hrow _ haudit hwrites =>
      obtain rfl : r.id = _ := Key.id.inj (Relation.key_of_lookup hrow)
      simpa [hwrites] using
        ⟨safe_invitation hrow rfl rfl, safe_audited haudit⟩
  | accepted r time ws event _ hrow _ _ _ _ _ hjoins haudit hwrites =>
      have hmark := safe_invitation (v := { r with acceptedAt := some time })
        hrow rfl rfl
      cases hjoins with
      | member hnone =>
          simp only [hwrites, List.cons_append, List.nil_append,
            List.forall_mem_cons, List.not_mem_nil, false_implies,
            implies_true, and_true]
          exact ⟨.aside .memberships _ rfl (replaces_of_new hnone), hmark,
            safe_audited haudit⟩
      | already db m _ _ =>
          simpa [hwrites] using ⟨hmark, safe_audited haudit⟩

theorem safe_renames {past : List schema.Ref → Db → Prop} {O : Uuid}
    {user : User} {body : Organizations.OrganizationUpdate}
    (h : Organizations.Renames past c O user body) : SafeCommit c := by
  unfold SafeCommit
  cases h with
  | kept m org event _ _ _ haudit hwrites =>
      simpa [hwrites] using safe_audited haudit
  | renamed m org r time event _ _ _ hrow haudit hwrites =>
      obtain rfl : r.id = _ := Key.id.inj (Relation.key_of_lookup hrow)
      simp only [hwrites, List.forall_mem_cons, List.not_mem_nil,
        false_implies, implies_true, and_true]
      exact ⟨.aside .organizations _ rfl (replaces_of_row hrow rfl),
        safe_audited haudit⟩

theorem safe_transacts {request : Request} (hinv : (tenancy home).inv s)
    (hbefore : c.before = s.store)
    (h : Transacts H ((tenancy home).Past p s) c request) : SafeCommit c := by
  cases h with
  | organization request h => exact safe_organizations h
  | rename O user body h => exact safe_renames h
  | issue request h => exact safe_issues hbefore h
  | label request h => exact safe_labels hinv hbefore h
  | comment request h => exact safe_comments hbefore h

end Transactions

/-! ## Homes -/

section Homes

variable {H : TokenHash} {past : List schema.Ref → Db → Prop}
  {c : Commit schema} {x : Label}

/-- Only `create` adds a label, with an identifier that it has drawn. -/
theorem drawn_of_added {request : Request} (h : Transacts H past c request)
    (hnew : (c.before .labels).lookup (.id x.id) = none)
    (hx : (c.after .labels).lookup (.id x.id) = some x) :
    x.id ∈ c.session.ids := by
  have hput : .put .labels x ∈ c.session.writes := put_of_added hnew hx
  have htable : Table.labels ∈ request.tables := h.tables _ hput
  cases h with
  | organization request h => simp [Request.tables] at htable
  | rename O user body h => simp [Request.tables] at htable
  | issue request h => simp [Request.tables] at htable
  | comment request h => simp [Request.tables] at htable
  | label request h =>
      cases h with
      | created m id _ hdrawn _ hwrites =>
          rw [hwrites] at hput
          obtain ⟨-, hrow⟩ := Write.put.inj (List.mem_singleton.mp hput)
          obtain rfl := eq_of_heq hrow
          exact hdrawn
      | @updated O k user body _ m label r _ _ _ hrow hwrites =>
          rw [hwrites] at hput
          obtain ⟨-, hsame⟩ := Write.put.inj (List.mem_singleton.mp hput)
          obtain rfl := eq_of_heq hsame
          have hid : r.id = k := Key.id.inj (Relation.key_of_lookup hrow)
          change (c.before .labels).lookup (.id r.id) = none at hnew
          rw [hid, hrow] at hnew
          cases hnew
      | deleted m label r ws _ _ _ _ hunlinks hwrites =>
          rw [hwrites] at hput
          rcases List.mem_cons.mp hput with hput | hput
          · cases hput
          · exact absurd hput hunlinks.not_put
      | _ => simp [*] at hput

/-- The identifiers of `c` belong where `c` puts them. -/
def homeOf (c : Commit schema) (home : Uuid → Uuid) (n : Uuid) : Uuid :=
  if n ∈ c.session.ids then
    ((c.after .labels).lookup (.id n)).elim n Label.organizationId
  else home n

/-- Labels that are added with different identifiers have homes. -/
theorem exists_home {log : List (Commit schema)}
    (hdrawn : ∀ c ∈ log, ∀ x : Label,
      (c.before .labels).lookup (.id x.id) = none →
      (c.after .labels).lookup (.id x.id) = some x → x.id ∈ c.session.ids)
    (hdisjoint : log.Pairwise fun d c =>
      ∀ n ∈ d.session.ids, n ∉ c.session.ids) :
    ∃ home, ∀ c ∈ log, (tenancy home).assume c := by
  induction log with
  | nil => exact ⟨id, by simp⟩
  | cons d log ih =>
      obtain ⟨hd, hlog⟩ := List.pairwise_cons.mp hdisjoint
      obtain ⟨home, hhome⟩ :=
        ih (fun c hc => hdrawn c (List.mem_cons_of_mem _ hc)) hlog
      refine ⟨homeOf d home, fun c hc x hnew hx => ?_⟩
      have hid := hdrawn c hc x hnew hx
      rcases List.mem_cons.mp hc with rfl | hc
      · rw [homeOf, if_pos hid, hx]
        rfl
      · rw [homeOf, if_neg fun h => hd c hc _ h hid]
        exact hhome c hc x hnew hx

end Homes

/-! ## Runs -/

/-- Nothing belongs to an organization yet but its members. -/
structure Vacant (s₀ : Db) : Prop where
  projects : (s₀ .projects).rows = []
  issues : (s₀ .issues).rows = []
  labels : (s₀ .labels).rows = []
  issueLabels : (s₀ .issueLabels).rows = []
  comments : (s₀ .comments).rows = []
  notifications : (s₀ .notifications).rows = []

theorem Vacant.tenancy {s₀ : Db} (h : Vacant s₀) : Tenancy s₀ where
  issues := by simp [h.issues]
  comments := by simp [h.comments]
  links := by simp [h.issueLabels]
  notifications := by simp [h.notifications]

section Runs

variable {H : TokenHash} {requests : Pid → Request} {s₀ : Db}
  {w : World schema AppError Response}

theorem exists_home_of_reachable (h : Reachable (clients H requests s₀) w) :
    ∃ home, ∀ c ∈ w.log, (tenancy home).assume c := by
  have hservices := sound_services h
  refine exists_home (fun c hc x hnew hx => ?_)
    (disjoint_ids h fun c hc => (hservices.guar c hc).1)
  obtain ⟨_, past, htransacts⟩ := hservices.guar c hc
  exact drawn_of_added htransacts hnew hx

theorem accepts_tenancy {home : Uuid → Uuid} {request : Request} {p : Pid} :
    Allows H (tenancy home) request p := by
  intro l s c hinv hc hassume _ htransacts
  have hsafe := safe_transacts hinv hc.before htransacts
  have htenancy := hinv.1
  rw [← hc.before] at htenancy
  refine ⟨hsafe, htenancy.after hsafe, fun x hx => ?_⟩
  have hlook := Relation.lookup_key hx
  rcases hold : (c.before .labels).lookup (.id x.id) with _ | r
  · exact hassume x hold hlook
  · have horganization := Option.some.inj
      (hsafe.settled .labels _ r x hold hlook)
    have hid : r.id = x.id := Key.id.inj (Relation.key_of_lookup hold)
    rw [hc.before] at hold
    rw [horganization, hinv.2 r (Relation.mem_of_lookup hold), hid]

theorem sound_tenancy (hs₀ : Vacant s₀)
    (h : Reachable (clients H requests s₀) w) :
    ∃ home, Sound (tenancy home) (fun _ _ _ _ => True) (fun _ => Unwritten)
      w := by
  obtain ⟨home, hhome⟩ := exists_home_of_reachable h
  have hinv : (tenancy home).inv ⟨s₀, []⟩ :=
    ⟨hs₀.tenancy, by simp [hs₀.labels]⟩
  exact ⟨home, sound hinv (fun p => requests_serve accepts_tenancy hinv) h
    hhome⟩

/-- Whatever identifiers the requests carry, and however they interleave, the
rows of different organizations stay apart. -/
theorem organizations_apart (hs₀ : Vacant s₀)
    (h : Reachable (clients H requests s₀) w) :
    Tenancy w.store ∧ ∀ c ∈ w.log, Settled c := by
  obtain ⟨home, hsound⟩ := sound_tenancy hs₀ h
  exact ⟨hsound.inv.1, fun c hc => SafeCommit.settled (hsound.guar c hc)⟩

end Runs

/-- An issue in a project, with a label. -/
def labelled : Pid → Request
  | 0 => .issue (.createProject 2 Issues.alice { name := "Board", key := "BRD" })
  | 1 => .issue
      (.createIssue 2 Issues.alice { projectId := 50, title := "Task" })
  | 2 => .label (.create 2 Issues.alice { name := "Bug", color := "#112233" })
  | _ => .label (.attach 2 60 70 Issues.alice)

def labelledSteps : List (Pid × Input schema) :=
  Issues.projectSteps ++ Issues.creationSteps 1 60 ++ steps 1 [.go] ++
    steps 2 [.go, .value 70, .go, .go] ++
    steps 3 [.go, .go, .go, .go, .order [.id 70], .go, .go, .go]

theorem vacant_oneOwner : Vacant Issues.oneOwner where
  projects := rfl
  issues := rfl
  labels := rfl
  issueLabels := rfl
  comments := rfl
  notifications := rfl

theorem organizations_apart_labelled :
    ∃ w, Reachable (clients plainHash labelled Issues.oneOwner) w ∧
      (w.store .issueLabels).lookup (Labels.linkKey 60 70) ≠ none ∧
      Tenancy w.store ∧ ∀ c ∈ w.log, Settled c := by
  have hrun : ((clients plainHash labelled Issues.oneOwner).run
      labelledSteps).any (fun w =>
        ((w.store .issueLabels).lookup (Labels.linkKey 60 70)).isSome = true) =
          true := by
    decide +kernel
  obtain ⟨w, hreach, hlink⟩ := exists_reachable hrun
  refine ⟨w, hreach, ?_, organizations_apart vacant_oneOwner hreach⟩
  exact Option.ne_none_iff_isSome.mpr hlink

end Workstream.Tracker
