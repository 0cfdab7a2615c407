import Workstream.Modules.Tracker.Listings

/-!
# Walks through the listings

A client follows `next_cursor` from page to page while rows come and go.
-/

namespace Workstream

open ReadCommitted

/-! ## Rows -/

theorem Issues.joinLabel_sublist (db : Db) (labelId : Option Uuid)
    (rows : List Issue) : (joinLabel db labelId rows).Sublist rows := by
  cases labelId with
  | none => exact List.Sublist.refl rows
  | some labelId =>
      induction rows with
      | nil => exact List.Sublist.refl _
      | cons i rows ih =>
          have hlinks : ((db .issueLabels).rows.filter fun x : IssueLabel =>
              x.issueId = i.id ∧ x.labelId = labelId).length ≤ 1 := by
            refine length_le_one ((db .issueLabels).nodup_rows.filter _) ?_
            intro x hx y hy
            simp only [List.mem_filter, decide_eq_true_eq] at hx hy
            refine (db .issueLabels).eq_of_key_eq hx.1 hy.1 ?_
            exact congrArg₂ Key.pair (hx.2.1.trans hy.2.1.symm)
              (hx.2.2.trans hy.2.2.symm)
          have hcopies : (((db .issueLabels).rows.filter fun x : IssueLabel =>
              x.issueId = i.id ∧ x.labelId = labelId).map fun _ => i).Sublist
                [i] := by
            rw [List.map_const', ← List.replicate_one]
            exact List.replicate_sublist_replicate i |>.mpr hlinks
          rw [joinLabel, List.flatMap_cons]
          exact hcopies.append ih

theorem Issues.mem_joinLabel {db : Db} {labelId : Option Uuid}
    {rows : List Issue} {i : Issue} : i ∈ joinLabel db labelId rows ↔
      i ∈ rows ∧ ∀ l ∈ labelId, ∃ x ∈ (db .issueLabels).rows,
        IssueLabel.issueId x = i.id ∧ x.labelId = l := by
  cases labelId with
  | none => simp [joinLabel]
  | some labelId =>
      simp only [joinLabel, List.mem_flatMap, List.mem_map, List.mem_filter,
        decide_eq_true_eq, Option.mem_some_iff, forall_eq']
      constructor
      · rintro ⟨j, hj, x, ⟨hx, hlink⟩, rfl⟩
        exact ⟨hj, x, hx, hlink⟩
      · rintro ⟨hi, x, hx, hlink⟩
        exact ⟨i, hi, x, ⟨hx, hlink⟩, rfl⟩

namespace Tracker

open Issues Comments Notifications Audit

/-- A listing with its filters. -/
inductive Listing where
  | issues (organizationId : Uuid) (filters : Filters) (sort : SortOrder)
  | comments (organizationId issueId : Uuid)
  | notifications
  | audit (organizationId : Uuid)

namespace Listing

abbrev Item : Listing → Type
  | .issues _ _ _ => Issue
  | .comments _ _ => Comment
  | .notifications => Notification
  | .audit _ => AuditEventResponse

def serve (P : Platform) (user : User) : (L : Listing) → Option String →
    Limit → Tx (CursorPage L.Item)
  | .issues organizationId filters sort =>
      Issues.list P organizationId user filters sort
  | .comments organizationId issueId =>
      Comments.list P organizationId issueId user
  | .notifications => Notifications.list P user
  | .audit organizationId => Audit.list P organizationId user

def sorting : (L : Listing) → Sorting L.Item
  | .issues _ _ sort => Issues.sorting sort
  | .comments _ _ => Comments.sorting
  | .notifications => Notifications.sorting
  | .audit _ =>
      { createdAt := AuditEventResponse.createdAt
        id := AuditEventResponse.id }

/-- What a listing is for, whatever its `SELECT` does: the rows of its table
that match at a moment. -/
def Matches (P : Platform) (user : User) (db : Db) :
    (L : Listing) → L.Item → Prop
  | .issues organizationId filters _ => fun i : Issue =>
      i ∈ (db .issues).rows ∧ i.organizationId = organizationId ∧
        i.archivedAt = none ∧ filters.matches P i = true ∧
        ∀ labelId ∈ filters.labelId, ∃ x ∈ (db .issueLabels).rows,
          IssueLabel.issueId x = i.id ∧ x.labelId = labelId
  | .comments organizationId issueId => fun x : Comment =>
      x ∈ (db .comments).rows ∧ x.organizationId = organizationId ∧
        x.issueId = issueId
  | .notifications => fun x : Notification =>
      x ∈ (db .notifications).rows ∧ x.userId = user.id
  | .audit organizationId => fun e : AuditEventResponse =>
      ∃ x ∈ (db .auditEvents).rows,
        AuditEvent.organizationId x = some organizationId ∧ payload x = e

/-- The rows that the `SELECT` finds, without a cursor. -/
def rows (P : Platform) (user : User) : (L : Listing) → Db → List L.Item
  | .issues organizationId filters _ => Issues.listed P organizationId filters
  | .comments organizationId issueId => Comments.listed organizationId issueId
  | .notifications => Notifications.listed user
  | .audit organizationId => fun db =>
      (Audit.listed organizationId db).map payload

/-- What a request checks before it reads its page. -/
def check (user : User) : Listing → Tx Unit
  | .issues organizationId _ _ => do
      let _ ← requireMembership organizationId user.id []
  | .comments organizationId issueId => do
      let _ ← requireMembership organizationId user.id []
      let _ ← getIssue organizationId issueId
  | .notifications => pure ()
  | .audit organizationId => do
      let _ ← requireMembership organizationId user.id [.owner, .admin]

variable {P : Platform} {user : User} {L : Listing} {db : Db}
  {cursor : Option String} {limit : Limit}

/-- The `SELECT` finds what the listing is for. -/
theorem mem_rows {r : L.Item} :
    r ∈ L.rows P user db ↔ L.Matches P user db r := by
  cases L with
  | issues organizationId filters sort =>
      simp only [rows, Issues.listed, mem_joinLabel, List.mem_filter,
        Bool.decide_and, Bool.and_eq_true, decide_eq_true_eq, Matches,
        Bool.decide_eq_true, and_assoc]
  | comments organizationId issueId =>
      simp only [rows, Comments.listed, List.mem_filter, decide_eq_true_eq,
        Matches]
      exact and_congr_right fun _ => and_comm
  | notifications =>
      simp only [rows, Notifications.listed, List.mem_filter,
        decide_eq_true_eq, Matches]
  | audit organizationId =>
      simp only [rows, Audit.listed, List.mem_map, List.mem_filter,
        decide_eq_true_eq, Matches, and_assoc]

theorem nodup_ids : ((L.rows P user db).map L.sorting.id).Nodup := by
  have hids : ∀ {t : Table} {f : Row t → Uuid} {rows : List (Row t)},
      (∀ r, primaryKey t r = .id (f r)) → rows.Sublist (db t).rows →
      (rows.map f).Nodup := by
    intro t f rows hkey hrows
    have hnodup := (db t).nodup.sublist (hrows.map schema.key)
    have hkeys : rows.map schema.key = (rows.map f).map Key.id := by
      rw [List.map_map]
      exact List.map_congr_left fun r _ => hkey r
    rw [hkeys] at hnodup
    exact List.Nodup.of_map _ hnodup
  cases L with
  | issues organizationId filters sort =>
      exact hids (t := .issues) (fun _ => rfl)
        ((joinLabel_sublist db filters.labelId _).trans List.filter_sublist)
  | comments organizationId issueId =>
      exact hids (t := .comments) (fun _ => rfl) List.filter_sublist
  | notifications =>
      exact hids (t := .notifications) (fun _ => rfl) List.filter_sublist
  | audit organizationId =>
      change (((Audit.listed organizationId db).map payload).map
        AuditEventResponse.id).Nodup
      rw [List.map_map]
      exact hids (t := .auditEvents) (fun _ => rfl) List.filter_sublist

theorem reads_serve : (L.serve P user cursor limit).Reads := by
  cases L with
  | issues organizationId filters sort =>
      exact (reads_requireMembership _ _ _).bind fun _ => reads_listPage _ _ _ _ _
  | comments organizationId issueId =>
      refine (reads_requireMembership _ _ _).bind fun _ => ?_
      have hissue : (getIssue organizationId issueId).Reads := by
        refine (Prog.reads_select _).bind fun rows => ?_
        exact (reads_scalarOneOrNone rows).bind fun _ => Prog.reads_require _ _
      exact hissue.bind fun _ => reads_listPage _ _ _ _ _
  | notifications => exact reads_listPage _ _ _ _ _
  | audit organizationId =>
      refine (reads_requireMembership _ _ _).bind fun _ => ?_
      exact (reads_listPage _ _ _ _ _).bind fun _ => .ret _

theorem answer_serve {start : Option (Instant × Uuid)}
    (h : startPosition P cursor = pure start) :
    (L.serve P user cursor limit).answer db =
      (L.check user).answer db >>= fun _ =>
        pure (L.sorting.respond (Keyset.page L.sorting.key (L.rows P user db)
          (start.map L.sorting.start) limit.rows)) := by
  cases L with
  | issues organizationId filters sort =>
      simp only [serve, Issues.list, check, Prog.answer_bind, bind_assoc,
        Prog.answer_pure, pure_bind, answer_listPage h]
      rfl
  | comments organizationId issueId =>
      simp only [serve, Comments.list, check, Prog.answer_bind, bind_assoc,
        Prog.answer_pure, pure_bind, answer_listPage h]
      rfl
  | notifications => exact answer_listPage h
  | audit organizationId =>
      simp only [serve, Audit.list, check, Prog.answer_bind, bind_assoc,
        Prog.answer_pure, pure_bind, answer_listPage h, rows, Keyset.page_map]
      rfl

/-! ## Walks -/

/-- A request for a page: the store at that moment, its limit, and the page
that it returns. -/
structure Visit (L : Listing) where
  db : Db
  limit : Limit
  page : CursorPage L.Item

/-- The requests of a client that follows the cursors.  It may stop before the
last page; between the requests anything may happen to the store. -/
inductive Walk (P : Platform) (user : User) (L : Listing) :
    Option String → List (Visit L) → Prop where
  | nil (cursor : Option String) : Walk P user L cursor []
  | last (cursor : Option String) (v : Visit L)
      (h : Returns v.db (L.serve P user cursor v.limit) v.page)
      (hnext : v.page.nextCursor = none) : Walk P user L cursor [v]
  | next (cursor : Option String) (v : Visit L) (c : String)
      (visits : List (Visit L))
      (h : Returns v.db (L.serve P user cursor v.limit) v.page)
      (hnext : v.page.nextCursor = some c)
      (hrest : Walk P user L (some c) visits) : Walk P user L cursor (v :: visits)

def returned (visits : List (Visit L)) : List L.Item :=
  visits.flatMap fun v => v.page.items

/-- The last page has no next cursor. -/
def Finished (visits : List (Visit L)) : Prop :=
  ∃ v, visits.getLast? = some v ∧ v.page.nextCursor = none

/-- The first row comes before the second one. -/
def Before (L : Listing) (x y : L.Item) : Prop :=
  L.sorting.precedes (L.sorting.position x) (L.sorting.position y) = true

/-- Identifiers and creation times do not change. -/
def Stable (P : Platform) (user : User) (visits : List (Visit L)) : Prop :=
  ∀ v ∈ visits, ∀ v' ∈ visits, ∀ r, L.Matches P user v.db r →
    ∀ r', L.Matches P user v'.db r' → L.sorting.id r = L.sorting.id r' →
      L.sorting.createdAt r = L.sorting.createdAt r'

/-- The rows have values of the column types. -/
def Fits (P : Platform) (user : User) (L : Listing) (db : Db) : Prop :=
  ∀ r, L.Matches P user db r →
    Representable (L.sorting.createdAt r) (L.sorting.id r)

/-- The visit as one of pages of positions. -/
def Visit.seen (P : Platform) (user : User) (v : Visit L) :
    Keyset.Visit L.Item (Position L.sorting.descending) where
  rows := L.rows P user v.db
  page := {
    items := v.page.items
    next :=
      if v.page.nextCursor.isSome then
        v.page.items.getLast?.map L.sorting.key
      else none }

theorem nodup_keys : ((L.rows P user db).map L.sorting.key).Nodup := by
  have hids : ((L.rows P user db).map L.sorting.key).map Position.id =
      (L.rows P user db).map L.sorting.id := by
    rw [List.map_map]
    rfl
  exact List.Nodup.of_map Position.id (hids ▸ nodup_ids)

theorem returned_seen (visits : List (Visit L)) :
    Keyset.returned (visits.map (Visit.seen P user)) = returned visits := by
  rw [Keyset.returned, List.flatMap_map]
  rfl

theorem finished_seen {visits : List (Visit L)} (h : Finished visits) :
    Keyset.Finished (visits.map (Visit.seen P user)) := by
  obtain ⟨v, hv, hlast⟩ := h
  refine ⟨v.seen P user, ?_, ?_⟩
  · rw [List.getLast?_map, hv]
    rfl
  · simp [Visit.seen, hlast]

/-- What a page request returns. -/
theorem page_of_returns {v : Visit L} {start : Option (Instant × Uuid)}
    (hstart : startPosition P cursor = pure start)
    (h : Returns v.db (L.serve P user cursor v.limit) v.page) :
    (L.check user).answer v.db = pure () ∧
      v.page = L.sorting.respond (Keyset.page L.sorting.key
        (L.rows P user v.db) (start.map L.sorting.start) v.limit.rows) := by
  rw [returns_iff reads_serve, answer_serve hstart] at h
  obtain ⟨hcheck, hpage⟩ := Prog.check_eq_ok_iff.mp h
  exact ⟨hcheck, hpage.symm⟩

/-- The next cursor holds the position from which the next request starts. -/
theorem start_of_next {start : Option (Position L.sorting.descending)}
    {n : ℕ} {c : String} (hfits : L.Fits P user db)
    (hnext : (L.sorting.respond (Keyset.page L.sorting.key (L.rows P user db)
      start n)).nextCursor = some c) :
    ∃ x, (Keyset.page L.sorting.key (L.rows P user db) start n).next = some x ∧
      startPosition P (some c) = pure (some (x.createdAt, x.id)) := by
  obtain ⟨x, hx, rfl⟩ := Option.map_eq_some_iff.mp hnext
  obtain ⟨_, r, hr, rfl⟩ := Keyset.page_next_some hx
  have hmem := List.mem_of_getLast? hr
  rw [Keyset.page_items] at hmem
  have hrow := (Keyset.mem_found.mp (List.mem_of_mem_take hmem)).1
  exact ⟨_, hx, startPosition_encodeCursor (hfits r (mem_rows.mp hrow))⟩

/-- A page request visits a page of positions. -/
theorem seen_of_returns {v : Visit L} {start : Option (Instant × Uuid)}
    (hstart : startPosition P cursor = pure start)
    (h : Returns v.db (L.serve P user cursor v.limit) v.page) :
    v.seen P user = ⟨L.rows P user v.db, Keyset.page L.sorting.key
        (L.rows P user v.db) (start.map L.sorting.start) v.limit.rows⟩ ∧
      ((v.seen P user).page.next = none ↔ v.page.nextCursor = none) := by
  have hpage := (page_of_returns hstart h).2
  have hseen : v.seen P user = ⟨L.rows P user v.db, Keyset.page L.sorting.key
      (L.rows P user v.db) (start.map L.sorting.start) v.limit.rows⟩ := by
    have hlast : ∀ x, (Keyset.page L.sorting.key (L.rows P user v.db)
        (start.map L.sorting.start) v.limit.rows).next = some x → _ :=
      fun _ => Keyset.getLast_of_next
    generalize Keyset.page L.sorting.key (L.rows P user v.db)
      (start.map L.sorting.start) v.limit.rows = page at hpage hlast
    obtain ⟨items, next⟩ := page
    cases next with
    | none => simp [Visit.seen, hpage, Sorting.respond]
    | some x =>
        have hx := hlast x rfl
        simp [Visit.seen, hpage, Sorting.respond, hx]
  refine ⟨hseen, ?_⟩
  rw [hseen, hpage]
  exact Option.map_eq_none_iff.symm

/-- A walk of the client is a walk over positions. -/
theorem Walk.seen {visits : List (Visit L)} (h : Walk P user L cursor visits)
    (hfits : ∀ v ∈ visits, L.Fits P user v.db)
    {start : Option (Instant × Uuid)}
    (hstart : startPosition P cursor = pure start) :
    Keyset.Walk L.sorting.key (start.map L.sorting.start)
        (visits.map (Visit.seen P user)) ∧
      ∀ v ∈ visits,
        ((v.seen P user).page.next = none ↔ v.page.nextCursor = none) := by
  induction h generalizing start with
  | nil cursor => exact ⟨Keyset.Walk.nil _, by simp⟩
  | last cursor v h hnext =>
      obtain ⟨hseen, hnone⟩ := seen_of_returns hstart h
      constructor
      · rw [List.map_singleton, hseen]
        rw [hseen] at hnone
        exact Keyset.Walk.last _ _ _ v.limit.pos (hnone.mpr hnext)
      · simpa using hnone
  | next cursor v c visits h hnext hrest ih =>
      obtain ⟨hseen, hnone⟩ := seen_of_returns hstart h
      have hcursor := hnext
      rw [(page_of_returns hstart h).2] at hcursor
      obtain ⟨x, hx, hstart'⟩ := start_of_next
        (hfits v List.mem_cons_self) hcursor
      obtain ⟨hwalk, hall⟩ := ih
        (fun w hw => hfits w (List.mem_cons_of_mem v hw)) hstart'
      constructor
      · rw [List.map_cons, hseen]
        exact Keyset.Walk.next _ _ _ x _ v.limit.pos hx hwalk
      · intro w hw
        rcases List.mem_cons.mp hw with rfl | hw
        · exact hnone
        · exact hall w hw

/-! ## What a walk returns -/

/-- The rows that match, in the order of the listing. -/
structure Sorted (P : Platform) (user : User) (db : Db)
    (sorted : List L.Item) : Prop where
  mem : ∀ r, r ∈ sorted ↔ L.Matches P user db r
  ordered : sorted.Pairwise L.Before
  once : (sorted.map L.sorting.id).Nodup

/-- What is to be said about the rows that a client gets. -/
structure Exact (P : Platform) (user : User) (L : Listing)
    (visits : List (Visit L)) : Prop where
  /-- The rows of a page match when it is returned. -/
  sound : ∀ v ∈ visits, ∀ r ∈ v.page.items, L.Matches P user v.db r
  /-- The rows come in the direction of the listing. -/
  ordered : (returned visits).Pairwise L.Before
  /-- No row comes twice. -/
  once : ((returned visits).map L.sorting.id).Nodup
  /-- A row that is there all the time comes exactly once. -/
  complete : Finished visits → ∀ i,
    (∀ v ∈ visits, ∃ r, L.Matches P user v.db r ∧ L.sorting.id r = i) →
    ((returned visits).map L.sorting.id).count i = 1
  /-- There is no next cursor if and only if no further row matches. -/
  last : ∀ pre v post, visits = pre ++ v :: post →
    (v.page.nextCursor = none ↔ ¬ ∃ r, L.Matches P user v.db r ∧
      ∀ x ∈ returned (pre ++ [v]), L.Before x r)
  /-- Without changes the pages are the sorted rows, -/
  whole : ∀ db, (∀ v ∈ visits, v.db = db) →
    ∃ sorted, Sorted P user db sorted ∧ returned visits <+: sorted ∧
      (Finished visits → returned visits = sorted) ∧
      (sorted.length < visits.length → Finished visits)
  /-- and the walk can be brought to its end with any limits. -/
  ends : ∀ db, visits ≠ [] → (∀ v ∈ visits, v.db = db) →
    ∀ limits : ℕ → Limit, ∃ more : List (Visit L),
      Walk P user L none (visits ++ more) ∧ Finished (visits ++ more) ∧
        ∀ n v, more[n]? = some v → v.db = db ∧ v.limit = limits n

section Exact

variable {visits : List (Visit L)}

theorem distinct_seen :
    Keyset.Distinct L.sorting.key (visits.map (Visit.seen P user)) := by
  intro w hw
  obtain ⟨v, _, rfl⟩ := List.mem_map.mp hw
  exact nodup_keys

theorem found_none (rows : List L.Item) :
    Keyset.found L.sorting.key rows none = L.sorting.orderBy rows := by
  rw [L.sorting.orderBy_eq, Keyset.found, List.filter_eq_self.mpr]
  intro r _
  simp [Keyset.After]

theorem sorted_orderBy :
    Sorted P user db (L.sorting.orderBy (L.rows P user db)) where
  mem := fun r => (List.mergeSort_perm _ _).mem_iff.trans mem_rows
  ordered := by
    rw [← found_none]
    exact (Keyset.found_lt nodup_keys).imp fun hxy => L.sorting.key_lt.mp hxy
  once := ((List.mergeSort_perm _ _).map L.sorting.id).nodup_iff.mpr nodup_ids

/-- The rows of a page match. -/
theorem Walk.sound (h : Walk P user L none visits)
    (hfits : ∀ v ∈ visits, L.Fits P user v.db) :
    ∀ v ∈ visits, ∀ r ∈ v.page.items, L.Matches P user v.db r := by
  intro v hv r hr
  obtain ⟨hseen, _⟩ := h.seen hfits startPosition_none
  exact mem_rows.mp (hseen.sound (v.seen P user) (List.mem_map_of_mem hv) r hr)

/-- A walk is ordered, and with unchanged creation times no row comes twice. -/
theorem Walk.once (h : Walk P user L none visits)
    (hstable : L.Stable P user visits)
    (hfits : ∀ v ∈ visits, L.Fits P user v.db) :
    (returned visits).Pairwise L.Before ∧
      ((returned visits).map L.sorting.id).Nodup := by
  obtain ⟨hseen, _⟩ := h.seen hfits startPosition_none
  have hlt := hseen.pairwise distinct_seen
  have hrows := hseen.mem_rows
  rw [returned_seen] at hlt hrows
  refine ⟨hlt.imp fun hxy => L.sorting.key_lt.mp hxy, ?_⟩
  rw [List.nodup_iff_pairwise_ne, List.pairwise_map]
  refine hlt.imp_of_mem fun {x y} hx hy hxy hid => ?_
  obtain ⟨v, hv, hxv⟩ := hrows x hx
  obtain ⟨v', hv', hyv⟩ := hrows y hy
  obtain ⟨u, hu, rfl⟩ := List.mem_map.mp hv
  obtain ⟨u', hu', rfl⟩ := List.mem_map.mp hv'
  have htime := hstable u hu u' hu' x (mem_rows.mp hxv) y (mem_rows.mp hyv)
    hid
  have hkey : L.sorting.key x = L.sorting.key y := Position.ext htime hid
  rw [hkey] at hxy
  exact lt_irrefl _ hxy

theorem Walk.complete (h : Walk P user L none visits)
    (hstable : L.Stable P user visits)
    (hfits : ∀ v ∈ visits, L.Fits P user v.db) (hfinished : Finished visits)
    {i : Uuid}
    (hthere : ∀ v ∈ visits, ∃ r, L.Matches P user v.db r ∧
      L.sorting.id r = i) :
    ((returned visits).map L.sorting.id).count i = 1 := by
  obtain ⟨hseen, _⟩ := h.seen hfits startPosition_none
  have hvisit : ∃ v, v ∈ visits :=
    hfinished.imp fun v hv => List.mem_of_getLast? hv.1
  obtain ⟨v, hvmem⟩ := hvisit
  obtain ⟨r, hr, hri⟩ := hthere v hvmem
  have hkeys : ∀ w ∈ visits.map (Visit.seen P user), ∃ x ∈ w.rows,
      L.sorting.key x = L.sorting.key r := by
    intro w hw
    obtain ⟨u, hu, rfl⟩ := List.mem_map.mp hw
    obtain ⟨x, hx, hxi⟩ := hthere u hu
    have hid := hxi.trans hri.symm
    exact ⟨x, mem_rows.mpr hx,
      Position.ext (hstable u hu v hvmem x hx r hr hid) hid⟩
  obtain ⟨x, hx, hkey⟩ := hseen.complete distinct_seen
    (finished_seen hfinished) (fun c hc => by cases hc) hkeys
  rw [returned_seen] at hx
  apply List.count_eq_one_of_mem (h.once hstable hfits).2
  have hxi : L.sorting.id x = i := (congrArg Position.id hkey).trans hri
  exact List.mem_map.mpr ⟨x, hx, hxi⟩

theorem Walk.whole (h : Walk P user L none visits)
    (hfits : ∀ v ∈ visits, L.Fits P user v.db) (hdb : ∀ v ∈ visits, v.db = db) :
    ∃ sorted, Sorted P user db sorted ∧ returned visits <+: sorted ∧
      (Finished visits → returned visits = sorted) ∧
      (sorted.length < visits.length → Finished visits) := by
  obtain ⟨hseen, hnone⟩ := h.seen hfits startPosition_none
  have hsame : ∀ w ∈ visits.map (Visit.seen P user),
      w.rows = L.rows P user db := by
    intro w hw
    obtain ⟨v, hv, rfl⟩ := List.mem_map.mp hw
    rw [← hdb v hv]
    rfl
  obtain ⟨hfront, hall⟩ := hseen.constant nodup_keys hsame
  have hlast := hseen.finished nodup_keys hsame
  rw [returned_seen, Option.map_none, found_none] at hfront hall
  rw [Option.map_none, found_none, List.length_map] at hlast
  refine ⟨_, sorted_orderBy, hfront,
    fun hfinished => hall (finished_seen hfinished), ?_⟩
  intro hlength
  obtain ⟨w, hw, hwnone⟩ := hlast hlength
  rw [List.getLast?_map] at hw
  obtain ⟨v, hv, rfl⟩ := Option.map_eq_some_iff.mp hw
  exact ⟨v, hv, (hnone v (List.mem_of_getLast? hv)).mp hwnone⟩

theorem Finished.cons {v : Visit L} (h : Finished visits) :
    Finished (v :: visits) := by
  obtain ⟨w, hw, hlast⟩ := h
  refine ⟨w, ?_, hlast⟩
  rw [List.getLast?_cons, hw]
  rfl

theorem returns_page (hcheck : (L.check user).answer db = pure ())
    {start : Option (Instant × Uuid)}
    (hstart : startPosition P cursor = pure start) (limit : Limit) :
    Returns db (L.serve P user cursor limit)
      (L.sorting.respond (Keyset.page L.sorting.key (L.rows P user db)
        (start.map L.sorting.start) limit.rows)) := by
  rw [returns_iff reads_serve, answer_serve hstart]
  exact Prog.check_eq_ok_iff.mpr ⟨hcheck, rfl⟩

/-- From a cursor on, the pages come to an end. -/
theorem exists_walk (hfits : L.Fits P user db)
    (hcheck : (L.check user).answer db = pure ()) (m : ℕ)
    {cursor : Option String} {start : Option (Instant × Uuid)}
    (hstart : startPosition P cursor = pure start)
    (hm : (Keyset.found L.sorting.key (L.rows P user db)
      (start.map L.sorting.start)).length = m) (limits : ℕ → Limit) :
    ∃ visits : List (Visit L), Walk P user L cursor visits ∧ Finished visits ∧
      ∀ n v, visits[n]? = some v → v.db = db ∧ v.limit = limits n := by
  induction m using Nat.strong_induction_on generalizing cursor start limits with
  | h m ih =>
      have hreturns := returns_page hcheck hstart (limits 0)
      cases hnext : (L.sorting.respond (Keyset.page L.sorting.key
          (L.rows P user db) (start.map L.sorting.start)
          (limits 0).rows)).nextCursor with
      | none =>
          refine ⟨[⟨db, limits 0, _⟩], .last cursor _ hreturns hnext,
            ⟨_, rfl, hnext⟩, ?_⟩
          intro n v hv
          cases n with
          | zero =>
              obtain rfl := Option.some.inj hv
              exact ⟨rfl, rfl⟩
          | succ n => simp at hv
      | some c =>
          obtain ⟨x, hx, hstart'⟩ := start_of_next hfits hnext
          have hlength := (Keyset.page_next_some hx).1
          have hfound := Keyset.found_next nodup_keys hx
          have hpos := (limits 0).pos
          have hsmaller : (Keyset.found L.sorting.key (L.rows P user db)
              (Option.map L.sorting.start (some (x.createdAt, x.id)))).length <
                m := by
            have hcursor : Option.map L.sorting.start
                (some (x.createdAt, x.id)) = some x := rfl
            rw [hcursor, hfound, List.length_drop]
            omega
          obtain ⟨visits, hwalk, hfinished, hall⟩ := ih _ hsmaller hstart' rfl
            fun n => limits (n + 1)
          refine ⟨⟨db, limits 0, _⟩ :: visits,
            .next cursor _ c visits hreturns hnext hwalk, hfinished.cons, ?_⟩
          intro n v hv
          cases n with
          | zero =>
              obtain rfl := Option.some.inj hv
              exact ⟨rfl, rfl⟩
          | succ n => exact hall n v hv

/-- A walk without changes can be brought to its end. -/
theorem Walk.ends (h : Walk P user L cursor visits)
    (hfits : ∀ v ∈ visits, L.Fits P user v.db)
    {start : Option (Instant × Uuid)}
    (hstart : startPosition P cursor = pure start) (hne : visits ≠ [])
    (hdb : ∀ v ∈ visits, v.db = db) (limits : ℕ → Limit) :
    ∃ more : List (Visit L), Walk P user L cursor (visits ++ more) ∧
      Finished (visits ++ more) ∧
        ∀ n v, more[n]? = some v → v.db = db ∧ v.limit = limits n := by
  induction h generalizing start with
  | nil cursor => exact absurd rfl hne
  | last cursor v h hnext =>
      refine ⟨[], .last cursor v h hnext, ⟨v, rfl, hnext⟩, ?_⟩
      simp
  | next cursor v c visits h hnext hrest ih =>
      have hcursor := hnext
      rw [(page_of_returns hstart h).2] at hcursor
      obtain ⟨x, _, hstart'⟩ := start_of_next
        (hfits v List.mem_cons_self) hcursor
      by_cases hempty : visits = []
      · subst visits
        have hv : v.db = db := hdb v List.mem_cons_self
        have hcheck := (page_of_returns hstart h).1
        have hrows := hfits v List.mem_cons_self
        rw [hv] at hcheck hrows
        obtain ⟨more, hmore, hfinished, hall⟩ :=
          exists_walk hrows hcheck _ hstart' rfl limits
        exact ⟨more, .next cursor v c more h hnext hmore, hfinished.cons, hall⟩
      · obtain ⟨more, hmore, hfinished, hall⟩ := ih
          (fun w hw => hfits w (List.mem_cons_of_mem v hw)) hstart' hempty
          fun w hw => hdb w (List.mem_cons_of_mem v hw)
        exact ⟨more, .next cursor v c _ h hnext hmore, hfinished.cons, hall⟩

end Exact

/-! ## Two notifications of one instant -/

end Listing

end Tracker

end Workstream
