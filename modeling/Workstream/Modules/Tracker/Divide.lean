import Workstream.Modules.Tracker.Endpoints
import Workstream.Modules.Tracker.Roles
import Workstream.ReadCommitted.Sight

/-!
# The rows of one organization

Two stores that differ in the rows of one organization only, as a pair with
hidden rows, and the rules for the requests of a user without a membership in
it: he gets past `require_membership` in other organizations alone, and there
no statement meets a hidden row.
-/

namespace Workstream.Tracker

open ReadCommitted World Organizations

/-! ## The rows of an organization -/

instance (db : Db) (O : Uuid) :
    (t : Table) → (r : Row t) → Decidable (Owned db O t r)
  | .issueLabels, x => decidable_of_iff
      (((db .issues).lookup (.id (IssueLabel.issueId x))).any
        fun y : Issue => y.organizationId = O)
      (by simp [Owned, Option.any_eq_true])
  | .notifications, _ => isFalse id
  | .users, r => inferInstanceAs (Decidable (organizationOf .users r = some O))
  | .organizations, r =>
      inferInstanceAs (Decidable (organizationOf .organizations r = some O))
  | .memberships, r =>
      inferInstanceAs (Decidable (organizationOf .memberships r = some O))
  | .invitations, r =>
      inferInstanceAs (Decidable (organizationOf .invitations r = some O))
  | .projects, r =>
      inferInstanceAs (Decidable (organizationOf .projects r = some O))
  | .issues, r =>
      inferInstanceAs (Decidable (organizationOf .issues r = some O))
  | .labels, r =>
      inferInstanceAs (Decidable (organizationOf .labels r = some O))
  | .comments, r =>
      inferInstanceAs (Decidable (organizationOf .comments r = some O))
  | .auditEvents, r =>
      inferInstanceAs (Decidable (organizationOf .auditEvents r = some O))
  | .authSessions, r =>
      inferInstanceAs (Decidable (organizationOf .authSessions r = some O))
  | .oneTimeTokens, r =>
      inferInstanceAs (Decidable (organizationOf .oneTimeTokens r = some O))
  | .outboxEvents, r =>
      inferInstanceAs (Decidable (organizationOf .outboxEvents r = some O))

def tenantRows (O : Uuid) (db : Db) (t : Table) : List (Row t) :=
  (db t).rows.filter fun r => Owned db O t r

def otherRows (O : Uuid) (db : Db) (t : Table) : List (Row t) :=
  (db t).rows.filter fun r => ¬ Owned db O t r

/-- The two stores differ only in the rows that the members of `O` work
with. -/
structure DifferOnlyIn (O : Uuid) (s s' : Db) : Prop where
  others : ∀ t, otherRows O s' t = otherRows O s t
  organizations : s' .organizations = s .organizations

/-- The request accepts an invitation to `O`. -/
def Endpoint.Accepts (H : TokenHash) (O : Uuid) (db : Db) : Endpoint → Prop
  | .acceptInvitation body => ∃ x ∈ (db .invitations).rows,
      Invitation.organizationId x = O ∧
        Invitation.tokenHash x = H.hash body.token
  | _ => False

/-- The identifiers and the tokens of the stored rows are not dealt again. -/
structure Dealt (H : TokenHash) (used : List ℕ) (db : Db) : Prop where
  ids : ∀ t n, (db t).lookup (.id n) ≠ none → n ∈ used
  tokens : ∀ x ∈ (db .invitations).rows, ∀ n,
    Invitation.tokenHash x = H.hash n → n ∈ used

section Owned

variable {O : Uuid} {s s' : Db} {t : Table} {r x : Row t}

theorem DifferOnlyIn.symm (h : DifferOnlyIn O s s') : DifferOnlyIn O s' s where
  others := fun t => (h.others t).symm
  organizations := h.organizations.symm

/-- Only the ownership of links depends on the store. -/
theorem owned_iff (ht : t ≠ .issueLabels) :
    Owned s O t r ↔ Owned s' O t r := by
  cases t with
  | issueLabels => exact absurd rfl ht
  | _ => exact Iff.rfl

theorem DifferOnlyIn.mem (h : DifferOnlyIn O s s') (hx : x ∈ (s t).rows)
    (hother : ¬ Owned s O t x) : x ∈ (s' t).rows := by
  have hmem : x ∈ otherRows O s t :=
    List.mem_filter.mpr ⟨hx, decide_eq_true hother⟩
  rw [← h.others t] at hmem
  exact (List.mem_filter.mp hmem).1

/-- A row of `s` that `O` owns by the issues of the other store is its own by
those of `s`. -/
theorem DifferOnlyIn.owned (h : DifferOnlyIn O s s') (htenancy : Tenancy s)
    (hx : x ∈ (s t).rows) (howned : Owned s' O t x) : Owned s O t x := by
  by_cases ht : t = .issueLabels
  · subst ht
    obtain ⟨z, hz, hO⟩ := howned
    obtain ⟨y, _, hy, _⟩ := htenancy.links x hx
    refine ⟨y, hy, ?_⟩
    by_contra hne
    have hother : ¬ Owned s O .issues y := fun hy => hne (Option.some.inj hy)
    have hmem := h.mem (Relation.mem_of_lookup hy) hother
    have hkey : Key.id y.id = .id (IssueLabel.issueId x) :=
      Relation.key_of_lookup hy
    have hlook : (s' .issues).lookup (.id y.id) = some y :=
      Relation.lookup_key hmem
    rw [hkey, hz] at hlook
    rw [← Option.some.inj hlook] at hne
    exact hne hO
  · exact (owned_iff ht).mpr howned

end Owned

/-! ## What a stranger does not see -/

/-- The tables that hold no rows of an organization, and its own table. -/
def shared : List Table :=
  [.users, .organizations, .notifications, .authSessions, .oneTimeTokens,
    .outboxEvents]

/-- Two stores of the application that differ in the rows of one
organization. -/
structure Divide (H : TokenHash) where
  organization : Uuid
  left : Db
  right : Db
  used : List ℕ
  registered : Registered left organization
  differ : DifferOnlyIn organization left right
  tenancy : Tenancy left
  tenancy' : Tenancy right
  unique : left.Unique
  unique' : right.Unique
  dealt : Dealt H used left
  dealt' : Dealt H used right

namespace Divide

variable {H : TokenHash} (D : Divide H)

def curtain : Curtain schema where
  hidden := fun t r =>
    decide (Owned D.left D.organization t r ∨ Owned D.right D.organization t r)
  left := D.left
  right := D.right
  same := fun t => t ∈ shared

variable {D} {t : Table} {r x : Row t} {s v v' : Db}

theorem hidden_iff : D.curtain.hidden t r = true ↔
    Owned D.left D.organization t r ∨ Owned D.right D.organization t r :=
  decide_eq_true_iff

/-- One of the two stores. -/
def Side (D : Divide H) (s : Db) : Prop :=
  s = D.left ∨ s = D.right

theorem Side.tenancy (hs : D.Side s) : Tenancy s := by
  rcases hs with rfl | rfl
  · exact D.tenancy
  · exact D.tenancy'

theorem Side.dealt (hs : D.Side s) : Dealt H D.used s := by
  rcases hs with rfl | rfl
  · exact D.dealt
  · exact D.dealt'

theorem Side.hidden (hs : D.Side s) (h : Owned s D.organization t x) :
    D.curtain.hidden t x = true := by
  rcases hs with rfl | rfl
  · exact hidden_iff.mpr (Or.inl h)
  · exact hidden_iff.mpr (Or.inr h)

/-- The hidden rows of a store are those of the organization. -/
theorem Side.owned (hs : D.Side s) (hx : x ∈ (s t).rows)
    (h : D.curtain.hidden t x = true) : Owned s D.organization t x := by
  rcases hs with rfl | rfl
  · rcases hidden_iff.mp h with h | h
    · exact h
    · exact D.differ.owned D.tenancy hx h
  · rcases hidden_iff.mp h with h | h
    · exact D.differ.symm.owned D.tenancy' hx h
    · exact h

theorem Side.behind (hs : D.Side s) (hx : x ∈ (s t).rows)
    (h : Owned s D.organization t x) : D.curtain.Behind t x := by
  refine ⟨hs.hidden h, ?_⟩
  rcases hs with rfl | rfl
  · exact Or.inl hx
  · exact Or.inr hx

theorem exists_side (hx : D.curtain.Behind t x) :
    ∃ s, D.Side s ∧ x ∈ (s t).rows ∧ Owned s D.organization t x := by
  rcases hx.mem with hmem | hmem
  · exact ⟨D.left, Or.inl rfl, hmem, Side.owned (Or.inl rfl) hmem hx.hidden⟩
  · exact ⟨D.right, Or.inr rfl, hmem, Side.owned (Or.inr rfl) hmem hx.hidden⟩

theorem shared_eq (ht : t ∈ shared) : D.right t = D.left t := by
  by_cases horganizations : t = .organizations
  · subst horganizations
    exact D.differ.organizations
  · have hnone : ∀ db, ∀ r ∈ (db t).rows, ¬ Owned db D.organization t r := by
      intro db r _ howned
      simp only [shared, List.mem_cons, List.not_mem_nil, or_false] at ht
      rcases ht with rfl | rfl | rfl | rfl | rfl | rfl
      · cases howned
      · exact horganizations rfl
      · exact howned
      · cases howned
      · cases howned
      · cases howned
    have hrows := D.differ.others t
    rw [otherRows, otherRows, List.filter_eq_self.mpr, List.filter_eq_self.mpr]
      at hrows
    · exact Relation.ext hrows
    · simpa using hnone D.left
    · simpa using hnone D.right

section Kept

variable (hs : D.Side s)
  (hkept : ∀ t : Table, (v t).rows.filter (D.curtain.hidden t) =
    (s t).rows.filter (D.curtain.hidden t))

include hs hkept

/-- A store that keeps the hidden rows of one of the two: they are those of
the organization. -/
theorem hidden_kept (hx : x ∈ (v t).rows) :
    D.curtain.hidden t x = decide (Owned v D.organization t x) := by
  rw [Bool.eq_iff_iff, decide_eq_true_iff]
  by_cases ht : t = .issueLabels
  · subst ht
    have hmem : ∀ {a : Table} {y : Row a}, D.curtain.hidden a y = true →
        (y ∈ (v a).rows ↔ y ∈ (s a).rows) := by
      intro a y hy
      have hfilter : y ∈ (v a).rows.filter (D.curtain.hidden a) ↔
          y ∈ (s a).rows.filter (D.curtain.hidden a) := by
        rw [hkept a]
      simpa only [List.mem_filter, hy, and_true] using hfilter
    have howned : Owned v D.organization .issueLabels x ↔
        Owned s D.organization .issueLabels x := by
      refine exists_congr fun y => and_congr_left fun hO => ?_
      have hhidden : D.curtain.hidden .issues y = true :=
        hidden_iff.mpr (Or.inl (congrArg some hO))
      rw [Relation.lookup_eq_some_iff, Relation.lookup_eq_some_iff,
        hmem hhidden]
    rw [howned]
    exact ⟨fun hhidden => hs.owned ((hmem hhidden).mp hx) hhidden, hs.hidden⟩
  · have hside : ∀ db, Owned db D.organization t x ↔
        Owned v D.organization t x := fun _ => owned_iff ht
    rw [hidden_iff, hside D.left, hside D.right, or_self]

theorem otherRows_eq : otherRows D.organization v t =
    (v t).rows.filter fun r => !D.curtain.hidden t r :=
  List.filter_congr fun x hx => by simp [hidden_kept hs hkept hx]

theorem tenantRows_eq : tenantRows D.organization v t =
    (v t).rows.filter (D.curtain.hidden t) :=
  List.filter_congr fun x hx => by simp [hidden_kept hs hkept hx]

theorem tenantRows_kept :
    tenantRows D.organization v t = tenantRows D.organization s t := by
  rw [tenantRows_eq hs hkept, tenantRows_eq hs fun _ => rfl, hkept]

end Kept

/-- The two stores before the request. -/
theorem aligned : D.curtain.Aligned D.left D.right where
  agree := by
    intro t
    have hleft := otherRows_eq (t := t) (D := D) (Or.inl rfl) fun _ => rfl
    have hright := otherRows_eq (t := t) (D := D) (Or.inr rfl) fun _ => rfl
    rw [← hleft, ← hright]
    exact D.differ.others t
  kept := fun _ => rfl
  kept' := fun _ => rfl
  same := fun _ => shared_eq
  unique := D.unique
  unique' := D.unique'

theorem shared_same (halign : D.curtain.Aligned v v') (ht : t ∈ shared) :
    v' t = v t :=
  halign.same t ht

/-- What an aligned pair says in the terms of the application. -/
theorem differ_of_aligned (h : D.curtain.Aligned v v') :
    DifferOnlyIn D.organization v v' where
  others := by
    intro t
    rw [otherRows_eq (Or.inr rfl) h.kept', otherRows_eq (Or.inl rfl) h.kept]
    exact h.agree t
  organizations := shared_same h (by decide)

/-! ## Rows in sight -/

theorem organization_of_behind (ht : t ≠ .issueLabels)
    (hx : D.curtain.Behind t x) : organizationOf t x = some D.organization := by
  rcases hidden_iff.mp hx.hidden with h | h
  · exact h.organization ht
  · exact h.organization ht

theorem sight (ht : t ≠ .issueLabels)
    (h : organizationOf t r ≠ some D.organization) :
    D.curtain.hidden t r = false := by
  by_contra hhidden
  rcases hidden_iff.mp (by simpa using hhidden) with howned | howned
  · exact h (howned.organization ht)
  · exact h (howned.organization ht)

theorem apart_shared (ht : t ∈ shared) : D.curtain.Apart t r :=
  Or.inl ht

theorem owned_of_organization {s : Db} {O : Uuid} (hlink : t ≠ .issueLabels)
    (hnotification : t ≠ .notifications)
    (h : organizationOf t x = some O) : Owned s O t x := by
  cases t with
  | issueLabels => exact absurd rfl hlink
  | notifications => exact absurd rfl hnotification
  | _ => exact h

theorem ne_of_sight (hlink : t ≠ .issueLabels)
    (hnotification : t ≠ .notifications)
    (hx : D.curtain.hidden t x = false) :
    organizationOf t x ≠ some D.organization := by
  intro h
  have hhidden : D.curtain.hidden t x = true :=
    hidden_iff.mpr (Or.inl (owned_of_organization hlink hnotification h))
  rw [hx] at hhidden
  cases hhidden

/-- A statement on the rows of another organization finds the same ones. -/
theorem filter_other {O : Uuid} {p : Row t → Bool}
    (halign : D.curtain.Aligned v v') (ht : t ≠ .issueLabels)
    (hO : O ≠ D.organization)
    (hp : ∀ x, p x = true → organizationOf t x = some O) :
    (v' t).rows.filter p = (v t).rows.filter p := by
  apply halign.filter_eq
  intro x hx
  by_contra hpx
  have horganization := hp x (by simpa using hpx)
  rw [organization_of_behind ht hx] at horganization
  exact hO (Option.some.inj horganization).symm

/-- The organization has its identifier. -/
theorem ne_of_drawn {n : ℕ} (hn : n ∉ D.used) : n ≠ D.organization := by
  intro heq
  obtain ⟨o, ho⟩ := D.registered
  have hsome : (D.left .organizations).lookup (.id n) = some o := heq ▸ ho
  exact hn (D.dealt.ids .organizations n
    (Option.ne_none_iff_exists'.mpr ⟨o, hsome⟩))

/-- An identifier that is drawn is no hidden row's. -/
theorem clear_id {n : ℕ} (hn : n ∉ D.used) : D.curtain.Clear t (.id n) := by
  intro x hx hkey
  obtain ⟨s, hs, hmem, _⟩ := exists_side hx
  have hlook : (s t).lookup (.id n) = some x :=
    Relation.lookup_eq_some_iff.mpr ⟨hmem, hkey⟩
  exact hn (hs.dealt.ids t n (Option.ne_none_iff_exists'.mpr ⟨x, hlook⟩))

theorem clear_membership {O u : Uuid} (hO : O ≠ D.organization) :
    D.curtain.Clear .memberships (membershipKey O u) := by
  intro x hx hkey
  have horganization := organization_of_behind (by decide) hx
  exact hO ((Key.pair.inj hkey).1.symm.trans (Option.some.inj horganization))

theorem clear_organization {O : Uuid} (hO : O ≠ D.organization) :
    D.curtain.Clear .organizations (.id O) := by
  intro x hx hkey
  have horganization := organization_of_behind (by decide) hx
  exact hO ((Key.id.inj hkey).symm.trans (Option.some.inj horganization))

/-- A hidden link has a hidden issue. -/
theorem issue_of_behind {x : IssueLabel}
    (hx : D.curtain.Behind .issueLabels x) :
    ∃ y, D.curtain.Behind .issues y ∧ primaryKey .issues y = .id x.issueId := by
  obtain ⟨s, hs, _, y, hy, hO⟩ := exists_side hx
  refine ⟨y, hs.behind ?_ (congrArg some hO), Relation.key_of_lookup hy⟩
  exact Relation.mem_of_lookup hy

/-- A hidden link has a hidden label. -/
theorem label_of_behind {x : IssueLabel}
    (hx : D.curtain.Behind .issueLabels x) :
    ∃ z, D.curtain.Behind .labels z ∧ primaryKey .labels z = .id x.labelId := by
  obtain ⟨s, hs, hmem, y, hy, hO⟩ := exists_side hx
  obtain ⟨y', z, hy', hz, hsame⟩ := hs.tenancy.links x hmem
  rw [hy] at hy'
  obtain rfl := Option.some.inj hy'
  refine ⟨z, hs.behind ?_ (congrArg some (hsame.symm.trans hO)),
    Relation.key_of_lookup hz⟩
  exact Relation.mem_of_lookup hz

/-- The project of a hidden issue is hidden. -/
theorem project_of_behind {x : Issue} (hx : D.curtain.Behind .issues x) :
    ∃ y, D.curtain.Behind .projects y ∧
      primaryKey .projects y = .id x.projectId := by
  obtain ⟨s, hs, hmem, hO⟩ := exists_side hx
  obtain ⟨y, hy, hsame⟩ := hs.tenancy.issues x hmem
  have horganization := hsame.symm.trans (Option.some.inj hO)
  refine ⟨y, hs.behind ?_ (congrArg some horganization),
    Relation.key_of_lookup hy⟩
  exact Relation.mem_of_lookup hy

theorem clear_link {i k : Uuid} (hi : D.curtain.Clear .issues (.id i)) :
    D.curtain.Clear .issueLabels (Labels.linkKey i k) := by
  intro x hx hkey
  obtain ⟨y, hy, hkey'⟩ := issue_of_behind hx
  exact hi y hy (hkey'.trans (congrArg Key.id (Key.pair.inj hkey).1))

theorem sight_link {i k : Uuid} (hi : D.curtain.Clear .issues (.id i)) :
    D.curtain.hidden .issueLabels { issueId := i, labelId := k } = false := by
  have hother : ∀ {s : Db}, D.Side s →
      ¬Owned s D.organization .issueLabels { issueId := i, labelId := k } := by
    rintro s hs ⟨y, hy, hO⟩
    refine hi y (hs.behind ?_ (congrArg some hO)) (Relation.key_of_lookup hy)
    exact Relation.mem_of_lookup hy
  rw [Bool.eq_false_iff, ne_eq, hidden_iff]
  exact not_or.mpr ⟨hother (Or.inl rfl), hother (Or.inr rfl)⟩

/-! ## Unique entries -/

theorem apart_nil (h : uniqueEntries t r = []) : D.curtain.Apart t r := by
  apply Or.inr
  intro x hx e he
  change e ∈ uniqueEntries t r at he
  rw [h] at he
  cases he

theorem apart_project {r : Project} (hO : r.organizationId ≠ D.organization) :
    D.curtain.Apart .projects r := by
  apply Or.inr
  intro x hx e he hex
  have horganization := organization_of_behind (by decide) hx
  obtain rfl := List.mem_singleton.mp he
  have hsame := (Key.projectKey.inj (List.mem_singleton.mp hex)).1
  exact hO (hsame.trans (Option.some.inj horganization))

theorem apart_label {r : Label} (hO : r.organizationId ≠ D.organization) :
    D.curtain.Apart .labels r := by
  apply Or.inr
  intro x hx e he hex
  have horganization := organization_of_behind (by decide) hx
  obtain rfl := List.mem_singleton.mp he
  have hsame := (Key.labelName.inj (List.mem_singleton.mp hex)).1
  exact hO (hsame.trans (Option.some.inj horganization))

theorem apart_issue {r : Issue}
    (hproject : D.curtain.Clear .projects (.id r.projectId)) :
    D.curtain.Apart .issues r := by
  apply Or.inr
  intro x hx e he hex
  obtain ⟨y, hy, hkey⟩ := project_of_behind hx
  obtain rfl := List.mem_singleton.mp he
  have hsame := (Key.issueNumber.inj (List.mem_singleton.mp hex)).1
  exact hproject y hy (hkey.trans (congrArg Key.id hsame.symm))

theorem apart_invitation {r : Invitation} {n : ℕ} (hn : n ∉ D.used)
    (hr : r.tokenHash = H.hash n) : D.curtain.Apart .invitations r := by
  apply Or.inr
  intro x hx e he hex
  obtain rfl := List.mem_singleton.mp he
  have hsame := Key.tokenHash.inj (List.mem_singleton.mp hex)
  obtain ⟨s, hs, hmem, _⟩ := exists_side hx
  exact hn (hs.dealt.tokens x hmem n (hsame.symm.trans hr))

/-- A row that stays in its organization may replace another one. -/
theorem replaces (ht : t ≠ .issueLabels) (hx : D.curtain.hidden t x = false)
    (hsame : organizationOf t r = organizationOf t x)
    (hapart : D.curtain.Apart t r ∨
      ∀ e ∈ uniqueEntries t r, e ∈ uniqueEntries t x) :
    D.curtain.Replaces x r where
  sight := by
    by_contra hhidden
    have howned : ∀ {s : Db}, Owned s D.organization t r →
        Owned s D.organization t x := by
      intro s h
      cases t with
      | issueLabels => exact absurd rfl ht
      | notifications => exact h
      | _ => exact hsame.symm.trans h
    have hstays : D.curtain.hidden t x = true :=
      hidden_iff.mpr ((hidden_iff.mp (by simpa using hhidden)).imp howned howned)
    rw [hx] at hstays
    cases hstays
  apart := hapart

theorem inSight_other {O : Uuid} {q : Scan schema t} (ht : t ≠ .issueLabels)
    (hO : O ≠ D.organization)
    (hp : ∀ x, q.pred x = true → organizationOf t x = some O)
    (hwrite : ∀ x r, D.curtain.hidden t x = false → q.pred x = true →
      q.effect x = .write r → D.curtain.Replaces x r) :
    D.curtain.InSight q where
  pred := by
    intro x hx
    by_contra hpx
    have horganization := hp x (by simpa using hpx)
    rw [organization_of_behind ht hx] at horganization
    exact hO (Option.some.inj horganization).symm
  write := hwrite

/-! ## Rules -/

/-- The request treats the two stores alike. -/
abbrev Blind {α : Type} (D : Divide H) (prog : Tx α) : Prop :=
  prog.Alike D.curtain.Aligned fun n => n ∉ D.used

/-- A user without a membership in the organization. -/
structure Stranger (D : Divide H) (u : Uuid) : Prop where
  left : (D.left .memberships).lookup
    (membershipKey D.organization u) = none
  right : (D.right .memberships).lookup
    (membershipKey D.organization u) = none

section Rules

variable {α : Type} {O u : Uuid}

theorem blind_now_bind {f : Instant → Tx α} (h : ∀ time, D.Blind (f time)) :
    D.Blind (now >>= f) :=
  h

theorem blind_get_bind {k : Key} {f : Option (Row t) → Tx α}
    (hk : D.curtain.Clear t k) (h : ∀ o, D.Blind (f o)) :
    D.Blind (get t k >>= f) :=
  Prog.alike_select_bind (fun _ _ halign => halign.lookup_eq hk) fun _ _ _ =>
    h _

theorem blind_scalarOneOrNone_bind {β : Type} {rows : List β}
    {f : Option β → Tx α} (h : ∀ o, (∀ x ∈ o, x ∈ rows) → D.Blind (f o)) :
    D.Blind (scalarOneOrNone rows >>= f) := by
  match rows, h with
  | [], h => exact h none (by simp)
  | [row], h => exact h (some row) (by simp)
  | _ :: _ :: _, _ => trivial

/-- A membership that a stranger does not have stays away. -/
theorem Stranger.none (hu : D.Stranger u) (halign : D.curtain.Aligned v v') :
    (v .memberships).lookup (membershipKey D.organization u) = none ∧
      (v' .memberships).lookup (membershipKey D.organization u) = none := by
  have hhidden : ∀ x : Membership, primaryKey .memberships x =
      membershipKey D.organization u →
      D.curtain.hidden .memberships x = true := by
    intro x hkey
    exact hidden_iff.mpr (Or.inl (congrArg some (Key.pair.inj hkey).1))
  constructor
  · apply Relation.lookup_eq_none_iff.mpr
    intro x hx hkey
    have hmem : x ∈ (v .memberships).rows.filter
        (D.curtain.hidden .memberships) :=
      List.mem_filter.mpr ⟨hx, hhidden x hkey⟩
    rw [halign.kept] at hmem
    exact Relation.lookup_eq_none_iff.mp hu.left x
      (List.mem_filter.mp hmem).1 hkey
  · apply Relation.lookup_eq_none_iff.mpr
    intro x hx hkey
    have hmem : x ∈ (v' .memberships).rows.filter
        (D.curtain.hidden .memberships) :=
      List.mem_filter.mpr ⟨hx, hhidden x hkey⟩
    rw [halign.kept'] at hmem
    exact Relation.lookup_eq_none_iff.mp hu.right x
      (List.mem_filter.mp hmem).1 hkey

/-- The check that keeps strangers out. -/
theorem blind_requireMembership_bind {roles : List Role}
    {f : Membership → Tx α} (hu : D.Stranger u)
    (h : O ≠ D.organization → ∀ m, D.Blind (f m)) :
    D.Blind (requireMembership O u roles >>= f) := by
  simp only [requireMembership, bind_assoc]
  by_cases hO : O = D.organization
  · subst hO
    refine Prog.alike_select_bind (fun v v' halign => ?_)
      fun v v' halign => ?_
    · obtain ⟨hnone, hnone'⟩ := hu.none halign
      exact hnone'.trans hnone.symm
    · rw [(hu.none halign).1]
      trivial
  · apply blind_get_bind (clear_membership hO)
    intro o
    apply Prog.alike_require_bind
    intro m _
    exact Prog.alike_ensure_bind fun _ => h hO m

/-- The statement that finds a row of another organization. -/
theorem blind_selectOne_bind {p : Row t → Bool} {e : AppError}
    {f : Row t → Tx α} (ht : t ≠ .issueLabels) (hO : O ≠ D.organization)
    (hp : ∀ x, p x = true → organizationOf t x = some O)
    (h : ∀ x, p x = true → D.curtain.Clear t (primaryKey t x) →
      D.Blind (f x)) :
    D.Blind ((Prog.select fun db : Db => (db t).rows.filter p) >>= fun rows =>
      scalarOneOrNone rows >>= fun o => Prog.require o e >>= f) := by
  refine Prog.alike_select_bind
    (fun v v' halign => filter_other halign ht hO hp) fun v v' halign => ?_
  apply blind_scalarOneOrNone_bind
  intro o ho
  apply Prog.alike_require_bind
  intro x hx
  obtain ⟨hmem, hpx⟩ := List.mem_filter.mp (ho x hx)
  have hother : organizationOf t x ≠ some D.organization := by
    rw [hp x hpx]
    exact fun hsame => hO (Option.some.inj hsame)
  exact h x hpx (halign.clear_of_mem hmem (sight ht hother))

theorem blind_locking_bind {q : Scan schema t} {f : List (Row t) → Tx α}
    (hq : D.curtain.InSight q)
    (h : ∀ rows, (∀ r ∈ rows, q.Returns D.curtain.Aligned r) →
      D.Blind (f rows)) : D.Blind (Prog.locking q >>= f) :=
  Prog.alike_locking_bind hq.alike h

theorem blind_insertRow_bind {f : Option Key → Tx α} (ht : t ≠ .issueLabels)
    (horganization : organizationOf t r ≠ some D.organization)
    (hk : t ∈ shared ∨ D.curtain.Clear t (primaryKey t r))
    (hapart : D.curtain.Apart t r) (h : ∀ e, D.Blind (f e)) :
    D.Blind (Prog.insertRow (σ := schema) t r >>= f) :=
  Curtain.alike_insertRow_bind (sight ht horganization) hk hapart h

/-- A row of another organization under a new identifier. -/
theorem blind_insertOrHalt (ht : t ≠ .issueLabels)
    (horganization : organizationOf t r ≠ some D.organization)
    (hk : t ∈ shared ∨ D.curtain.Clear t (primaryKey t r))
    (hapart : D.curtain.Apart t r) :
    D.Blind (Prog.insertOrHalt (σ := schema) t r) :=
  Curtain.alike_insertOrHalt (sight ht horganization) hk hapart

theorem blind_audit {action entityType : String} {entityId : Uuid}
    {metadata : Metadata} {requestId : Option String}
    (hO : O ≠ D.organization) :
    D.Blind (audit u (some O) action entityType entityId metadata
      requestId) := by
  apply Prog.alike_freshId_bind
  intro n hn
  apply blind_now_bind
  intro createdAt
  refine blind_insertOrHalt (by decide) ?_ (Or.inr (clear_id hn))
    (apart_nil rfl)
  exact fun hsame => hO (Option.some.inj hsame)

theorem blind_updateKey {k : Key} {g : Row t → Row t}
    (hk : D.curtain.Clear t k)
    (hg : ∀ x, D.curtain.hidden t x = false → primaryKey t x = k →
      D.curtain.Replaces x (g x)) :
    D.Blind (Prog.updateKey (σ := schema) t k g) := by
  refine Prog.alike_alterKey (Curtain.InSight.alike ?_)
  apply Curtain.inSight_byKey hk
  intro x r hx hkey heffect
  cases heffect
  exact hg x hx hkey

theorem blind_deleteKey {k : Key} (hk : D.curtain.Clear t k) :
    D.Blind (Prog.deleteKey (σ := schema) t k) := by
  refine Prog.alike_deleteKey (Curtain.InSight.alike ?_)
  apply Curtain.inSight_byKey hk
  intro x r _ _ heffect
  cases heffect

end Rules

end Divide

end Workstream.Tracker
