import Workstream.Modules.Organizations.Service

/-!
# The last owner of an organization

Changes of owners are serialized by the lock on the organization row, with
one exception: who removes himself is judged by the membership that his
permission check has read, before the lock.  Every run in which no such
removal takes away the only owner keeps an owner.
-/

namespace Workstream.Organizations

open ReadCommitted Contract

def Registered (db : Db) (O : Uuid) : Prop :=
  ∃ o, (db .organizations).lookup (.id O) = some o

/-- User `u` is an owner of organization `O`. -/
def Owns (db : Db) (O u : Uuid) : Prop :=
  ∃ m : Membership, (db .memberships).lookup (membershipKey O u) = some m ∧
    m.role = .owner

/-- Nothing refers to `O` yet. -/
structure Absent (db : Db) (O : Uuid) : Prop where
  organizations : ∀ o ∈ (db .organizations).rows, Organization.id o ≠ O
  memberships :
    ∀ m ∈ (db .memberships).rows, Membership.organizationId m ≠ O
  invitations :
    ∀ i ∈ (db .invitations).rows, Invitation.organizationId i ≠ O

/-- The store on which a request has checked the permission of its actor. -/
def checkedOn (c : Commit schema) : Option Db :=
  match c.session.seen.getLast? with
  | some (.saw db) => some db
  | _ => none

/-- The actor removes himself, was no owner when his permission was checked,
and is the only owner when the removal commits. -/
def StaleRemoval (O : Uuid) (request : Request) (c : Commit schema) : Prop :=
  ∃ actor db, request = .removeMember O actor.id actor ∧
    checkedOn c = some db ∧ ¬ Owns db O actor.id ∧
    Owns c.before O actor.id ∧ ∀ u, Owns c.before O u → u = actor.id

/-! ## The contract -/

/-- An organization has an owner, and only an organization has members and
invitations, which never make an owner. -/
structure OwnerInvariant (O : Uuid) (db : Db) : Prop where
  owned : Registered db O → ∃ u, Owns db O u
  membered : ∀ u m, (db .memberships).lookup (membershipKey O u) = some m →
    Registered db O
  invited : ∀ k (i : Invitation), (db .invitations).lookup k = some i →
    i.organizationId = O → i.role ≠ .owner ∧ Registered db O

/-- Without the lock of the organization, memberships are only added, and no
owners among them. -/
structure KeepsOwners (O : Uuid) (c : Commit schema) : Prop where
  registered : Registered c.before O → Registered c.after O
  members : ¬ c.Held (.organizations, .id O) → ∀ u,
    (c.after .memberships).lookup (membershipKey O u) =
        (c.before .memberships).lookup (membershipKey O u) ∨
      (c.before .memberships).lookup (membershipKey O u) = none ∧
        ¬ Owns c.after O u

def ownership (requests : Pid → Request) (O : Uuid) : Contract schema where
  inv := fun s => OwnerInvariant O s.store
  assume := fun c => ¬ StaleRemoval O (requests c.pid) c
  guar := KeepsOwners O
  inv_draw := fun _ _ _ h => h

section Stability

variable {requests : Pid → Request} {O : Uuid} {p : Pid} {l : Local schema}
  {s s' : Shared schema}

theorem registered_rely (h : (ownership requests O).Rely p l s s')
    (hO : Registered s.store O) : Registered s'.store O := by
  refine h.induct (P := fun u => Registered u.store O) hO ?_
  intro u v henv hu
  cases henv with
  | commit c _ _ _ _ _ hguar => exact hguar.registered hu
  | draw => exact hu

/-- While we hold the lock of the organization, its owners stay the same. -/
theorem owns_rely (h : (ownership requests O).Rely p l s s')
    (hlock : l.locks (.organizations, .id O)) (u : Uuid) :
    Owns s'.store O u ↔ Owns s.store O u := by
  refine h.induct (P := fun v => Owns v.store O u ↔ Owns s.store O u)
    Iff.rfl ?_
  intro v v' henv hv
  cases henv with
  | commit c _ _ hlocks _ _ hguar =>
      rw [← hv]
      rcases hguar.members (fun hheld => hlocks _ hheld hlock) u with
        hsame | ⟨hnone, hafter⟩
      · unfold Owns
        rw [hsame]
      · refine ⟨fun hown => absurd hown hafter, ?_⟩
        rintro ⟨m, hm, _⟩
        rw [hnone] at hm
        cases hm
  | draw => exact hv

end Stability

/-! ## Commits that keep the invariant -/

section Commits

variable {O : Uuid} {c : Commit schema}

/-- The writes that do not concern the owners of `O`. -/
def Neutral (O : Uuid) (db : Db) : Write schema → Prop
  | .put .organizations o => Organization.id o ≠ O
  | .put .memberships m => Membership.organizationId m ≠ O
  | .put .invitations i => Invitation.organizationId i = O →
      Invitation.role i ≠ .owner ∧ Registered db O
  | .put _ _ => True
  | .del .organizations _ => False
  | .del .memberships k => ∀ u, k ≠ membershipKey O u
  | .del _ _ => True

theorem Neutral.organization {db : Db} {x : Write schema}
    (h : Neutral O db x) : x.ref ≠ (.organizations, .id O) := by
  intro href
  match x, h with
  | .put t r, h =>
      obtain ⟨rfl, hkey⟩ := Prod.mk.inj href
      exact h (Key.id.inj hkey)
  | .del t k, h =>
      obtain ⟨rfl, _⟩ := Prod.mk.inj href
      exact h

theorem Neutral.membership {db : Db} {x : Write schema}
    (h : Neutral O db x) (u : Uuid) :
    x.ref ≠ (.memberships, membershipKey O u) := by
  intro href
  match x, h with
  | .put t r, h =>
      obtain ⟨rfl, hkey⟩ := Prod.mk.inj href
      exact h (Key.pair.inj hkey).1
  | .del t k, h =>
      obtain ⟨rfl, hkey⟩ := Prod.mk.inj href
      exact h u hkey

theorem owns_after {u : Uuid}
    (h : ∀ x ∈ c.session.writes, x.ref ≠ (.memberships, membershipKey O u)) :
    Owns c.after O u ↔ Owns c.before O u := by
  unfold Owns Commit.after Session.view
  rw [Store.lookup_view_of_not_mem h]

theorem registered_after
    (h : ∀ x ∈ c.session.writes, x.ref ≠ (.organizations, .id O)) :
    Registered c.after O ↔ Registered c.before O := by
  unfold Registered Commit.after Session.view
  rw [Store.lookup_view_of_not_mem h]

/-- The invariant after a commit, from what the commit wrote. -/
theorem ownerInvariant_after (hinv : OwnerInvariant O c.before)
    (hreg : Registered c.before O → Registered c.after O)
    (howned : Registered c.after O → ∃ u, Owns c.after O u)
    (hmember : ∀ m : Membership, .put .memberships m ∈ c.session.writes →
      m.organizationId = O → Registered c.after O)
    (hinvited : ∀ i : Invitation, .put .invitations i ∈ c.session.writes →
      i.organizationId = O → i.role ≠ .owner ∧ Registered c.after O) :
    OwnerInvariant O c.after where
  owned := howned
  membered := by
    intro u m hm
    rcases Store.lookup_view_cases hm with hold | hput
    · exact hreg (hinv.membered u m hold)
    · refine hmember m hput ?_
      exact (Key.pair.inj (Relation.key_of_lookup hm)).1
  invited := by
    intro k i hi hO
    rcases Store.lookup_view_cases hi with hold | hput
    · obtain ⟨hrole, hbefore⟩ := hinv.invited k i hold hO
      exact ⟨hrole, hreg hbefore⟩
    · exact hinvited i hput hO

theorem keeps_of_neutral (hinv : OwnerInvariant O c.before)
    (hws : ∀ x ∈ c.session.writes, Neutral O c.before x) :
    KeepsOwners O c ∧ OwnerInvariant O c.after := by
  have hreg := registered_after fun x hx => (hws x hx).organization
  have hown := fun u => owns_after (u := u)
    fun x hx => (hws x hx).membership u
  constructor
  · refine ⟨hreg.mpr, fun _ u => Or.inl ?_⟩
    exact Store.lookup_view_of_not_mem fun x hx => (hws x hx).membership u
  · refine ownerInvariant_after hinv hreg.mpr ?_ ?_ ?_
    · intro hafter
      obtain ⟨u, hu⟩ := hinv.owned (hreg.mp hafter)
      exact ⟨u, (hown u).mpr hu⟩
    · intro m hput hO
      exact absurd hO (hws _ hput)
    · intro i hput hO
      obtain ⟨hrole, hbefore⟩ := hws _ hput hO
      exact ⟨hrole, hreg.mpr hbefore⟩

/-- A commit that touches one membership of `O` leaves an owner if another
member is one, or if it makes this one an owner. -/
theorem keeps_of_member {k : Uuid} (hinv : OwnerInvariant O c.before)
    (hbefore : Registered c.before O)
    (hws : ∀ x ∈ c.session.writes, Neutral O c.before x ∨
      x.ref = (.memberships, membershipKey O k))
    (hheld : c.Held (.organizations, .id O) ∨
      (c.before .memberships).lookup (membershipKey O k) = none ∧
        ¬ Owns c.after O k)
    (howner : (∃ u ≠ k, Owns c.before O u) ∨ Owns c.after O k) :
    KeepsOwners O c ∧ OwnerInvariant O c.after := by
  have hne : ∀ u ≠ k, ∀ x ∈ c.session.writes,
      x.ref ≠ (.memberships, membershipKey O u) := by
    intro u hu x hx
    rcases hws x hx with hneutral | href
    · exact hneutral.membership u
    · rw [href]
      simpa [membershipKey] using Ne.symm hu
  have hreg : Registered c.after O ↔ Registered c.before O := by
    refine registered_after fun x hx => ?_
    rcases hws x hx with hneutral | href
    · exact hneutral.organization
    · simp [href]
  constructor
  · refine ⟨hreg.mpr, fun hnot u => ?_⟩
    by_cases hu : u = k
    · subst hu
      exact Or.inr (hheld.resolve_left hnot)
    · exact Or.inl (Store.lookup_view_of_not_mem (hne u hu))
  · refine ownerInvariant_after hinv hreg.mpr ?_ ?_ ?_
    · intro _
      rcases howner with ⟨u, hu, hown⟩ | hown
      · exact ⟨u, (owns_after (hne u hu)).mpr hown⟩
      · exact ⟨k, hown⟩
    · exact fun _ _ _ => hreg.mpr hbefore
    · intro i hput hO
      rcases hws _ hput with hneutral | href
      · exact ⟨(hneutral hO).1, hreg.mpr hbefore⟩
      · simp [Write.ref] at href

end Commits

/-! ## The shared parts of the requests -/

section Requests

variable {H : TokenHash} {requests : Pid → Request} {O : Uuid} {p : Pid}
  {α : Type} {l : Local schema} {s : Shared schema}

/-- Weakest preconditions for the contract, without a claim on results. -/
abbrev Keeping (requests : Pid → Request) (O : Uuid) (p : Pid)
    (prog : Tx α) (l : Local schema) (s : Shared schema) : Prop :=
  (ownership requests O).wp p (fun _ _ _ => True) (fun _ _ _ => True) prog
    none l s

theorem keeping_done :
    Keeping requests O p (pure () : Tx Unit) l s :=
  wp_ret fun _ _ _ => trivial

/-- Locking a member of `O` holds its lock from before the member is read. -/
theorem keeping_lockMember_bind {o k : Uuid} {held : Option Membership}
    {f : Membership → Tx α} (hempty : l.session.writes = [])
    (hO : o = O → Registered s.store O)
    (h : ∀ m l' s', (ownership requests O).Rely p l s s' →
      OwnerInvariant O s'.store → Grows l l' [] →
      (o = O → l'.locks (.organizations, .id O)) →
      (held = none → (s'.store .memberships).lookup
        (membershipKey o k) = some m) →
      (∀ m', held = some m' → m = m') →
      Keeping requests O p (f m) l' s') :
    Keeping requests O p (lockMember o k held >>= f) l s := by
  have hview : ∀ s' : Shared schema, l.view s' = s'.store := by
    intro s'
    simp [Local.view, Session.view, hempty]
  have hrest : ∀ x : Tx (Option Membership),
      x = held.elim (get .memberships (membershipKey o k))
        (fun m => pure (some m)) →
      ∀ l' s', (ownership requests O).Rely p l s s' →
      OwnerInvariant O s'.store → Grows l l' [] →
      (o = O → l'.locks (.organizations, .id O)) →
      Keeping requests O p
        (x >>= fun x => Prog.require x (notFound "Member not found") >>= f)
        l' s' := by
    rintro _ rfl l₁ s₁ h₁ hinv₁ hgrows hlock
    cases held with
    | some m =>
        refine wp_require_bind (fun m' hm' => ?_) fun _ _ => trivial
        refine h m' l₁ s₁ h₁ hinv₁ hgrows hlock ?_ ?_
        · intro hnone
          cases hnone
        · intro x hx
          rw [← Option.some.inj hm', Option.some.inj hx]
    | none =>
        refine wp_get_bind fun s₂ h₂ hinv₂ => ?_
        refine wp_require_bind (fun m hm => ?_) fun _ _ => trivial
        rw [hgrows.view, hview, Store.view_nil] at hm
        refine h m _ s₂ (h₁.trans (h₂.of_grows hgrows)) hinv₂
          (hgrows.trans (Grows.observe l₁ _)) hlock (fun _ => hm) ?_
        intro x hx
        cases hx
  simp only [lockMember, bind_assoc]
  refine wp_lockKey_bind ?_ ?_
  · intro l₁ s₁ h₁ hinv₁ hgrows hnone
    refine hrest _ (by cases held <;> rfl) l₁ s₁ h₁ hinv₁ hgrows fun ho => ?_
    obtain ⟨org, horg⟩ := registered_rely h₁ (hO ho)
    rw [hview, ho, horg] at hnone
    cases hnone
  · intro l₁ s₁ _ h₁ hinv₁ hgrows _ hlock
    exact hrest _ (by cases held <;> rfl) l₁ s₁ h₁ hinv₁ hgrows
      fun ho => ho ▸ hlock

/-- Two owners are more than any one member. -/
theorem exists_other_owner {db : Db} {o : Uuid} (k : Uuid)
    (h : 1 < ((db .memberships).rows.filter fun m : Membership =>
      m.organizationId = o ∧ m.role = .owner).length) :
    ∃ u ≠ k, Owns db o u := by
  set owners := (db .memberships).rows.filter fun m : Membership =>
    m.organizationId = o ∧ m.role = .owner with howners
  have hmem : ∀ m ∈ owners, Owns db o m.userId ∧
      schema.key (t := .memberships) m = membershipKey o m.userId := by
    intro m hm
    rw [howners, List.mem_filter, decide_eq_true_iff] at hm
    obtain ⟨hrow, rfl, hrole⟩ := hm
    exact ⟨⟨m, Relation.lookup_key hrow, hrole⟩, rfl⟩
  have hnodup : (owners.map (schema.key (t := .memberships))).Nodup :=
    (db .memberships).nodup.sublist (List.filter_sublist.map _)
  match owners, h, hmem, hnodup with
  | a :: b :: rest, _, hmem, hnodup =>
      obtain ⟨ha, hakey⟩ := hmem a (by simp)
      obtain ⟨hb, hbkey⟩ := hmem b (by simp)
      by_cases hak : a.userId = k
      · refine ⟨b.userId, ?_, hb⟩
        intro hbk
        have hsame : schema.key (t := .memberships) a =
            schema.key (t := .memberships) b := by
          rw [hakey, hbkey, hak, hbk]
        simp only [List.map_cons, List.nodup_cons, List.mem_cons] at hnodup
        exact hnodup.1 (Or.inl hsame)
      · exact ⟨a.userId, hak, ha⟩

theorem not_owns_iff {db : Db} {k : Uuid} {m : Membership}
    (hm : (db .memberships).lookup (membershipKey O k) = some m) :
    ¬ Owns db O k ↔ m.role ≠ .owner := by
  refine not_congr ⟨?_, fun hrole => ⟨m, hm, hrole⟩⟩
  rintro ⟨m', hm', hrole⟩
  rw [hm] at hm'
  rwa [Option.some.inj hm']

/-- There is an owner besides `k`, whose membership has been read as `m`. -/
theorem exists_spared {db : Db} {k : Uuid} {m : Membership}
    (hinv : OwnerInvariant O db) (hO : Registered db O)
    (hstale : m.role ≠ .owner → Owns db O k → ∃ u ≠ k, Owns db O u)
    (hspared : m.role = .owner → ∃ u ≠ k, Owns db O u) :
    ∃ u ≠ k, Owns db O u := by
  by_cases hrole : m.role = .owner
  · exact hspared hrole
  · obtain ⟨u, hu⟩ := hinv.owned hO
    by_cases huk : u = k
    · exact hstale hrole (huk ▸ hu)
    · exact ⟨u, huk, hu⟩

theorem checkedOn_eq {c : Commit schema} {l₀ : Local schema} {db : Db}
    {ws : List (Write schema)} (hc : c.session = l.session)
    (hg : Grows (l₀.observe (.saw db)) l ws) (hseen : l₀.session.seen = []) :
    checkedOn c = some db := by
  obtain ⟨pre, hpre⟩ := hg.seen
  have hlast : c.session.seen.getLast? = some (.saw db) := by
    rw [hc, ← hpre]
    simp [Local.observe, Session.observe, hseen]
  rw [checkedOn, hlast]

theorem keeping_protectOwner_bind {o : Uuid} (k : Uuid) {member : Membership}
    {f : Unit → Tx α} (hempty : l.session.writes = [])
    (hinv : OwnerInvariant O s.store)
    (h : ∀ l' s', (ownership requests O).Rely p l s s' →
      OwnerInvariant O s'.store → Grows l l' [] →
      (member.role = .owner → ∃ u ≠ k, Owns s'.store o u) →
      Keeping requests O p (f ()) l' s') :
    Keeping requests O p (protectOwner o member >>= f) l s := by
  rw [protectOwner]
  by_cases hrole : member.role = .owner
  · rw [if_pos hrole, bind_assoc]
    refine wp_select_bind fun s₁ h₁ hinv₁ => ?_
    refine wp_ensure_bind (fun hlen => ?_) fun _ _ => trivial
    have hview : l.view s₁ = s₁.store := by
      simp [Local.view, Session.view, hempty]
    refine h _ s₁ h₁ hinv₁ (Grows.observe l _) fun _ => ?_
    apply exists_other_owner
    simpa [hview] using hlen
  · rw [if_neg hrole, pure_bind]
    exact h l s .refl hinv (Grows.refl l) fun howner => absurd howner hrole

/-- Protecting an owner, where the request asks for it. -/
theorem keeping_protectOwnerIf_bind {o : Uuid} (k : Uuid)
    {member : Membership} {cond : Prop} [Decidable cond] {f : Unit → Tx α}
    (hempty : l.session.writes = []) (hinv : OwnerInvariant O s.store)
    (h : ∀ l' s', (ownership requests O).Rely p l s s' →
      OwnerInvariant O s'.store → Grows l l' [] →
      (cond → member.role = .owner → ∃ u ≠ k, Owns s'.store o u) →
      Keeping requests O p (f ()) l' s') :
    Keeping requests O p
      ((if cond then protectOwner o member else pure ()) >>= f) l s := by
  by_cases hcond : cond
  · rw [if_pos hcond]
    refine keeping_protectOwner_bind k hempty hinv fun l' s' h' hinv' hg hs => ?_
    exact h l' s' h' hinv' hg fun _ => hs
  · rw [if_neg hcond, pure_bind]
    exact h l s .refl hinv (Grows.refl l) fun hc => absurd hc hcond

theorem Neutral.rely {x : Write schema} {s' : Shared schema}
    (hx : Neutral O s.store x) (h : (ownership requests O).Rely p l s s') :
    Neutral O s'.store x := by
  match x, hx with
  | .put t r, hx =>
      cases t with
      | invitations => exact fun hO => ⟨(hx hO).1, registered_rely h (hx hO).2⟩
      | _ => exact hx
  | .del t k, hx => cases t <;> exact hx

/-- A request that commits neutral writes keeps the contract. -/
theorem keeping_commit_neutral_bind {f : Unit → Tx α}
    (hws : ∀ x ∈ l.session.writes, Neutral O s.store x)
    (hf : ∀ l s, Keeping requests O p (f ()) l s) :
    Keeping requests O p (Prog.commitNow >>= f) l s := by
  refine wp_commitNow_bind fun s' c h hinv hc _ => ?_
  have hbefore : OwnerInvariant O c.before := by
    rw [hc.before]
    exact hinv
  obtain ⟨hguar, hafter⟩ := keeps_of_neutral hbefore <| by
    rw [hc.session, hc.before]
    exact fun x hx => (hws x hx).rely h
  exact ⟨hguar, hafter, hf _ _⟩

theorem keeping_commit_neutral
    (hws : ∀ x ∈ l.session.writes, Neutral O s.store x) :
    Keeping requests O p Prog.commitNow l s := by
  rw [← bind_pure Prog.commitNow]
  exact keeping_commit_neutral_bind hws fun _ _ => keeping_done

/-- A request that commits the change of one member of `O` under the lock of
the organization. -/
theorem keeping_commit_member {k : Uuid} {x : Write schema}
    {event : AuditEvent} (hlock : l.locks (.organizations, .id O))
    (hO : Registered s.store O)
    (hx : x.ref = (.memberships, membershipKey O k))
    (hws : l.session.writes = [x, .put .auditEvents event] ∨
      l.session.writes = [.put .auditEvents event, x])
    (howner : ∀ s' c, (ownership requests O).Rely p l s s' →
      OwnerInvariant O s'.store → Makes p l s' c →
      ¬ StaleRemoval O (requests c.pid) c →
      (∃ u ≠ k, Owns s'.store O u) ∨ Owns c.after O k) :
    Keeping requests O p Prog.commitNow l s := by
  refine wp_commitNow fun s' c h hinv hc hassume => ?_
  have hstore : c.before = s'.store := hc.before
  obtain ⟨hguar, hafter⟩ := keeps_of_member (c := c) (k := k)
    (hstore ▸ hinv) (hstore ▸ registered_rely h hO)
    (by
      intro y hy
      rw [hc.session] at hy
      rcases hws with hws | hws <;> rw [hws] at hy <;>
        rcases List.mem_pair.mp hy with rfl | rfl
      · exact Or.inr hx
      · exact Or.inl trivial
      · exact Or.inl trivial
      · exact Or.inr hx)
    (Or.inl ((hc.held _).mpr hlock))
    (hstore ▸ howner s' c h hinv hc hassume)
  exact ⟨hguar, hafter, keeping_done⟩

/-! ## The requests -/

theorem keeping_changeRole {o k : Uuid} {actor : User} {body : RoleChange} :
    Keeping requests O p (changeRole o k actor body) {} s := by
  simp only [changeRole]
  refine wp_requireMembership_bind (fun m₁ s₁ h₁ hinv₁ hm₁ _ => ?_)
    fun _ _ _ _ => trivial
  have hO : o = O → Registered s₁.store O := by
    rintro rfl
    exact hinv₁.membered actor.id m₁ hm₁
  refine keeping_lockMember_bind rfl hO
    fun m l₂ s₂ h₂ hinv₂ hg₂ hlock₂ hread _ => ?_
  refine keeping_protectOwnerIf_bind k hg₂.writes hinv₂
    fun l₃ s₃ h₃ hinv₃ hg₃ hspared => ?_
  by_cases hsame : m.role = body.role
  · rw [if_pos hsame, pure_bind]
    refine wp_audit_bind fun l₄ s₄ event _ _ _ _ _ _ _ _ _ hg₄ _ => ?_
    refine keeping_commit_neutral fun x hx => ?_
    rw [((hg₂.trans hg₃).trans hg₄).writes] at hx
    obtain rfl := List.mem_singleton.mp hx
    exact trivial
  · rw [if_neg hsame]
    refine wp_updateKey_bind
      fun l₄ s₄ s₅ r h₄ hinv₄ h₅ hinv₅ hr hkey hg₄ _ => ?_
    refine wp_audit_bind fun l₆ s₆ event h₆ _ _ _ _ _ _ _ _ hg₆ _ => ?_
    have hg := ((hg₃.trans hg₄).trans hg₆)
    have hwrites := (hg₂.trans hg).writes
    have hrely : (ownership requests O).Rely p l₂ s₂ s₆ :=
      (h₃.trans ((h₄.trans h₅).of_grows hg₃)).trans
        (h₆.of_grows (hg₃.trans hg₄))
    by_cases ho : o = O
    · subst o
      have hlock := hlock₂ rfl
      refine keeping_commit_member (k := k)
        (x := .put .memberships _) (hg.locks _ hlock)
        (registered_rely (h₂.trans (hrely.of_grows hg₂)) (hO rfl))
        (congrArg (Prod.mk Table.memberships) hkey) (Or.inl hwrites) ?_
      intro s₇ c h₇ hinv₇ hc _
      have howns := owns_rely (hrely.trans (h₇.of_grows hg)) hlock
      by_cases hpromote : body.role = .owner
      · right
        refine ⟨{ r with role := body.role }, ?_, hpromote⟩
        rw [hc.after_eq, hwrites, ← hkey]
        exact Store.lookup_view_put [] (by simp [Write.ref])
      · left
        refine exists_spared hinv₇
          (registered_rely (hrely.trans (h₇.of_grows hg))
            (registered_rely h₂ (hO rfl))) (m := m) ?_ ?_
        · intro howner hown
          exact absurd ((howns k).mp hown)
            ((not_owns_iff (hread rfl)).mpr howner)
        · intro howner
          obtain ⟨u, hu, hown⟩ := hspared hpromote howner
          have hrely₃ := (h₄.trans h₅).trans (h₆.of_grows hg₄)
          refine ⟨u, hu, ?_⟩
          exact (owns_rely (hrely₃.trans (h₇.of_grows (hg₄.trans hg₆)))
            (hg₃.locks _ hlock) u).mpr hown
    · refine keeping_commit_neutral fun x hx => ?_
      rw [hwrites] at hx
      rcases List.mem_pair.mp hx with rfl | rfl
      · exact fun hO => ho ((Key.pair.inj hkey).1.symm.trans hO)
      · exact trivial

theorem keeping_removeMember {o k : Uuid} {actor : User}
    (hrequest : requests p = .removeMember o k actor) :
    Keeping requests O p (removeMember o k actor) {} s := by
  simp only [removeMember]
  refine wp_requireMembership_bind (fun m₁ s₁ h₁ hinv₁ hm₁ _ => ?_)
    fun _ _ _ _ => trivial
  have hO : o = O → Registered s₁.store O := by
    rintro rfl
    exact hinv₁.membered actor.id m₁ hm₁
  refine keeping_lockMember_bind rfl hO
    fun m l₂ s₂ h₂ hinv₂ hg₂ hlock₂ hread hheld => ?_
  refine wp_ensure_bind (fun _ => ?_) fun _ _ => trivial
  refine keeping_protectOwner_bind k hg₂.writes hinv₂
    fun l₃ s₃ h₃ hinv₃ hg₃ hspared => ?_
  refine wp_audit_bind fun l₄ s₄ event h₄ hinv₄ _ _ _ _ _ _ _ hg₄ _ => ?_
  have hg := hg₃.trans hg₄
  refine wp_deleteKey_bind ?_ ?_
  · intro l₅ s₅ _ _ _ hg₅
    refine keeping_commit_neutral fun x hx => ?_
    rw [((hg₂.trans hg).trans hg₅).writes] at hx
    obtain rfl := List.mem_singleton.mp hx
    exact trivial
  · intro l₅ s₅ s₆ r h₅ _ h₆ _ _ hg₅ _
    have hwrites := ((hg₂.trans hg).trans hg₅).writes
    have hrely : (ownership requests O).Rely p l₃ s₃ s₆ :=
      h₄.trans ((h₅.trans h₆).of_grows hg₄)
    by_cases ho : o = O
    · subst o
      have hlock := hlock₂ rfl
      have hlock₃ := hg₃.locks _ hlock
      refine keeping_commit_member (k := k) (x := .del .memberships _)
        ((hg.trans hg₅).locks _ hlock)
        (registered_rely (h₃.trans (hrely.of_grows hg₃))
          (registered_rely h₂ (hO rfl))) rfl (Or.inr hwrites) ?_
      intro s₇ c h₇ hinv₇ hc hfresh
      have hrely₃ := hrely.trans (h₇.of_grows (hg₄.trans hg₅))
      have hrely₂ := h₃.trans (hrely₃.of_grows hg₃)
      left
      refine exists_spared hinv₇
        (registered_rely hrely₂ (registered_rely h₂ (hO rfl)))
        (m := m) ?_ ?_
      · intro howner hown
        by_cases hself : k = actor.id
        · subst hself
          obtain rfl : m = m₁ := hheld m₁ (if_pos rfl)
          by_contra hnone
          push Not at hnone
          refine hfresh ⟨actor, s₁.store, ?_, ?_, ?_, ?_, ?_⟩
          · rw [hc.pid, hrequest]
          · exact checkedOn_eq hc.session ((hg₂.trans hg).trans hg₅) rfl
          · exact (not_owns_iff hm₁).mpr howner
          · exact hc.before ▸ hown
          · intro u hu
            by_contra huk
            exact hnone u huk (hc.before ▸ hu)
        · exact absurd ((owns_rely hrely₂ hlock k).mp hown)
            ((not_owns_iff (hread (if_neg hself))).mpr howner)
      · intro howner
        obtain ⟨u, hu, hown⟩ := hspared howner
        exact ⟨u, hu, (owns_rely hrely₃ hlock₃ u).mpr hown⟩
    · refine keeping_commit_neutral fun x hx => ?_
      rw [hwrites] at hx
      rcases List.mem_pair.mp hx with rfl | rfl
      · exact trivial
      · intro u hu
        exact ho (Key.pair.inj hu).1

theorem keeping_create {user : User} {body : OrganizationCreate}
    {requestId : String} {f : Organization → Tx Unit}
    (hf : ∀ org l s, Keeping requests O p (f org) l s) :
    Keeping requests O p (create user body requestId >>= f) {} s := by
  simp only [create, bind_assoc]
  refine wp_freshId_bind fun n s₁ _ _ _ => ?_
  refine wp_now_bind fun τ s₂ _ _ => ?_
  refine wp_now_bind fun τ' s₃ _ _ => ?_
  refine wp_insertRow_bind (fun s₄ _ _ _ => ?_) (fun e s₄ _ _ _ => ?_)
  · simp only [bind_assoc, pure_bind]
    refine wp_insertOrHalt_bind fun l₅ s₅ _ _ _ hg₅ _ => ?_
    refine wp_audit_bind fun l₆ s₆ event _ _ _ _ _ _ _ _ _ hg₆ _ => ?_
    refine wp_commitNow_bind fun s₇ c _ hinv₇ hc _ => ?_
    have hg := (Grows.lockAdd _ _ _).trans (hg₅.trans hg₆)
    have hbefore : OwnerInvariant O c.before := by
      rw [hc.before]
      exact hinv₇
    have hwrites : c.session.writes =
        [.put .organizations
          { id := n, name := body.name, slug := body.slug, createdAt := τ
            updatedAt := τ' },
        .put .memberships
          { organizationId := n, userId := user.id, role := .owner },
        .put .auditEvents event] := by
      rw [hc.session]
      exact hg.writes
    by_cases hO : n = O
    · subst n
      have hreg : Registered c.after O := by
        refine ⟨{ id := O, name := body.name, slug := body.slug
                  createdAt := τ, updatedAt := τ' }, ?_⟩
        rw [Commit.after, Session.view, hwrites]
        exact Store.lookup_view_put [] (by simp [Write.ref])
      have hown : Owns c.after O user.id := by
        refine ⟨{ organizationId := O, userId := user.id, role := .owner },
          ?_, rfl⟩
        rw [Commit.after, Session.view, hwrites]
        exact Store.lookup_view_put [_] (by simp [Write.ref])
      refine ⟨⟨fun _ => hreg, fun hnot => absurd ?_ hnot⟩, ?_, hf _ _ _⟩
      · rw [hc.held]
        exact (hg₅.trans hg₆).locks _ (Or.inl List.mem_cons_self)
      · refine ownerInvariant_after hbefore (fun _ => hreg)
          (fun _ => ⟨user.id, hown⟩) (fun _ _ _ => hreg) ?_
        intro i hi
        simp [hwrites] at hi
    · obtain ⟨hguar, hafter⟩ := keeps_of_neutral hbefore <| by
        intro x hx
        simp only [hwrites, List.mem_cons, List.not_mem_nil, or_false] at hx
        rcases hx with rfl | rfl | rfl
        · exact hO
        · exact hO
        · exact trivial
      exact ⟨hguar, hafter, hf _ _ _⟩
  · cases e with
    | slug => exact fun _ _ _ => ⟨trivial, fun _ _ _ => trivial⟩
    | _ => exact wp_halt

theorem keeping_invite {o : Uuid} {actor : User} {body : InvitationCreate}
    {f : Invitation → Tx Unit}
    (hf : ∀ i l s, Keeping requests O p (f i) l s) :
    Keeping requests O p (invite H o actor body >>= f) {} s := by
  simp only [invite, bind_assoc]
  refine wp_requireMembership_bind (fun m₁ s₁ _ hinv₁ hm₁ _ => ?_)
    fun _ _ _ _ => trivial
  have hO : o = O → Registered s₁.store O := by
    rintro rfl
    exact hinv₁.membered actor.id m₁ hm₁
  refine wp_freshId_bind fun raw s₂ h₂ _ hn₂ => ?_
  refine wp_now_bind fun τ s₃ h₃ _ => ?_
  refine wp_freshId_bind fun id s₄ h₄ _ hn₄ => ?_
  refine wp_insertOrHalt_bind fun l₅ s₅ h₅ _ _ hg₅ _ => ?_
  refine wp_audit_bind fun l₆ s₆ event h₆ _ _ _ _ _ _ _ _ hg₆ _ => ?_
  refine wp_freshId_bind fun eventId s₇ h₇ _ hn₇ => ?_
  refine wp_now_bind fun occurredAt s₈ h₈ _ => ?_
  refine wp_insertOrHalt_bind fun l₉ s₉ h₉ _ _ hg₉ _ => ?_
  have hgrows := hg₅.trans (hg₆.trans
    (((Grows.draw _ _).trans (Grows.observe _ _)).trans hg₉))
  refine keeping_commit_neutral_bind (fun x hx => ?_) (hf _)
  have hreg : o = O → Registered s₉.store O := by
    intro ho
    have hreg₅ := registered_rely h₅ (registered_rely h₄
      (registered_rely h₃ (registered_rely h₂ (hO ho))))
    exact registered_rely h₉ (registered_rely h₈ (registered_rely h₇
      (registered_rely h₆ hreg₅)))
  rw [hgrows.writes] at hx
  rcases List.mem_append.mp hx with hx | hx
  · cases hx
  · simp only [List.nil_append, List.cons_append, List.mem_cons,
      List.not_mem_nil, or_false] at hx
    rcases hx with rfl | rfl | rfl
    · exact fun ho => ⟨body.role_ne_owner, hreg ho⟩
    · exact trivial
    · exact trivial

/-- A flushed change of an invitation is neutral if it keeps the role. -/
theorem neutral_invitation {db : Db} {k : Key} {i i' : Invitation}
    (hinv : OwnerInvariant O db) (hi : (db .invitations).lookup k = some i)
    (hrole : i'.role = i.role) (horg : i'.organizationId = i.organizationId) :
    Neutral O db (.put .invitations i') := by
  intro hO
  rw [hrole]
  exact hinv.invited k i hi (horg ▸ hO)

theorem keeping_revokeInvitation {o i : Uuid} {actor : User} :
    Keeping requests O p (revokeInvitation o i actor) {} s := by
  simp only [revokeInvitation]
  refine wp_requireMembership_bind (fun m₁ s₁ _ _ _ _ => ?_)
    fun _ _ _ _ => trivial
  refine wp_lockRows_bind ⟨rfl, rfl⟩ (fun _ => rfl)
    fun rows l₂ s₂ _ _ hg₂ _ => ?_
  refine wp_scalarOneOrNone_bind fun o _ => ?_
  refine wp_require_bind (fun invitation _ => ?_) fun _ _ => trivial
  refine wp_now_bind fun τ s₃ _ _ => ?_
  refine wp_updateKey_bind fun l₄ s₄ s₅ r _ _ _ hinv₅ hr _ hg₄ _ => ?_
  refine wp_audit_bind fun l₆ s₆ event h₆ _ _ _ _ _ _ _ _ hg₆ _ => ?_
  have hbase := hg₂.trans (Grows.observe l₂ (.answered Call.now τ))
  rw [hbase.view] at hr
  refine keeping_commit_neutral fun x hx => ?_
  rw [((hbase.trans hg₄).trans hg₆).writes] at hx
  rcases List.mem_pair.mp hx with rfl | rfl
  · exact (neutral_invitation hinv₅ hr rfl rfl).rely h₆
  · exact trivial

/-- A commit that adds one member, who is no owner, without the lock of the
organization. -/
theorem keeping_commit_joined {m : Membership} {ws : List (Write schema)}
    (hO : m.organizationId = O → m.role ≠ .owner ∧ Registered s.store O)
    (hnone : (s.store .memberships).lookup
      (membershipKey m.organizationId m.userId) = none)
    (hlock : l.locks
      (.memberships, membershipKey m.organizationId m.userId))
    (hwrites : l.session.writes = .put .memberships m :: ws)
    (hws : ∀ x ∈ ws, Neutral O s.store x) :
    Keeping requests O p Prog.commitNow l s := by
  by_cases hm : m.organizationId = O
  · subst O
    refine wp_commitNow fun s' c h hinv hc _ => ?_
    have hstore : c.before = s'.store := hc.before
    have hbefore : (c.before .memberships).lookup
        (membershipKey m.organizationId m.userId) = none := by
      rw [hstore, h.lookup_eq hlock]
      exact hnone
    have hneutral : ∀ x ∈ ws, Neutral m.organizationId c.before x := by
      rw [hstore]
      exact fun x hx => (hws x hx).rely h
    have hafter : (c.after .memberships).lookup
        (membershipKey m.organizationId m.userId) = some m := by
      rw [hc.after_eq, hwrites]
      exact Store.lookup_view_put []
        fun x hx => (hws x hx).membership m.userId
    have hreg : Registered c.before m.organizationId :=
      hstore ▸ registered_rely h (hO rfl).2
    have hinvBefore : OwnerInvariant m.organizationId c.before := by
      rw [hstore]
      exact hinv
    obtain ⟨u, hu⟩ := hinvBefore.owned hreg
    have hne : u ≠ m.userId := by
      rintro rfl
      obtain ⟨m', hm', _⟩ := hu
      rw [hbefore] at hm'
      cases hm'
    obtain ⟨hguar, hinv'⟩ := keeps_of_member (k := m.userId)
      hinvBefore hreg
      (by
        intro x hx
        rw [hc.session, hwrites] at hx
        rcases List.mem_cons.mp hx with rfl | hx
        · exact Or.inr rfl
        · exact Or.inl (hneutral x hx))
      (Or.inr ⟨hbefore, (not_owns_iff hafter).mpr (hO rfl).1⟩)
      (Or.inl ⟨u, hne, hu⟩)
    exact ⟨hguar, hinv', keeping_done⟩
  · refine keeping_commit_neutral fun x hx => ?_
    rw [hwrites] at hx
    rcases List.mem_cons.mp hx with rfl | hx
    · exact hm
    · exact hws x hx

theorem keeping_join {actor : User} {i : Invitation} {time : Instant}
    (hempty : l.session.writes = []) (hinv : OwnerInvariant O s.store)
    (hi : (s.store .invitations).lookup (.id i.id) = some i) :
    Keeping requests O p (join actor i time) l s := by
  have hview : ∀ s' : Shared schema, l.view s' = s'.store := by
    intro s'
    simp [Local.view, Session.view, hempty]
  simp only [join]
  refine wp_get_bind fun s₁ h₁ _ => ?_
  have hread := Grows.observe l (.saw (l.view s₁))
  split
  · refine wp_insertOrHalt_bind fun l₂ s₂ h₂ _ hconflict hg₂ hlocks₂ => ?_
    refine wp_updateKey_bind fun l₃ s₃ s₄ r h₃ _ h₄ hinv₄ hr _ hg₃ _ => ?_
    refine wp_audit_bind fun l₅ s₅ event h₅ _ _ _ _ _ _ _ _ hg₅ _ => ?_
    have hbase := hread.trans hg₂
    have hlock := hlocks₂ _ List.mem_cons_self
    rw [hbase.view, hview, Store.lookup_view_of_not_mem
      (by simp [Write.ref])] at hr
    have hnone := Store.lookup_of_conflict_none hconflict
    rw [hread.view, hview] at hnone
    have hwrites := ((hbase.trans hg₃).trans hg₅).writes
    rw [hempty] at hwrites
    have hrely₂ := h₃.trans h₄
    refine keeping_commit_joined (fun hO => ?_) ?_
      (hg₅.locks _ (hg₃.locks _ hlock)) hwrites ?_
    · obtain ⟨hrole, hreg⟩ := hinv.invited _ i hi hO
      exact ⟨hrole, registered_rely h₅ (registered_rely hrely₂
        (registered_rely h₂ (registered_rely h₁ hreg)))⟩
    · have hstable₅ := h₅.lookup_eq (hg₃.locks _ hlock)
      exact hstable₅.trans ((hrely₂.lookup_eq hlock).trans hnone)
    · intro x hx
      rcases List.mem_pair.mp hx with rfl | rfl
      · exact (neutral_invitation hinv₄ hr rfl rfl).rely h₅
      · exact trivial
  · refine wp_updateKey_bind fun l₃ s₃ s₄ r _ _ _ hinv₄ hr _ hg₃ _ => ?_
    refine wp_audit_bind fun l₅ s₅ event h₅ _ _ _ _ _ _ _ _ hg₅ _ => ?_
    rw [hread.view, hview] at hr
    have hwrites := ((hread.trans hg₃).trans hg₅).writes
    rw [hempty] at hwrites
    refine keeping_commit_neutral fun x hx => ?_
    rw [hwrites] at hx
    rcases List.mem_pair.mp hx with rfl | rfl
    · exact (neutral_invitation hinv₄ hr rfl rfl).rely h₅
    · exact trivial

theorem keeping_accept {actor : User} {body : InvitationAccept} :
    Keeping requests O p (accept H actor body) {} s := by
  simp only [accept]
  refine wp_lockRows_bind ⟨rfl, rfl⟩ (fun _ => rfl)
    fun rows l₁ s₁ _ hinv₁ hg₁ hrows => ?_
  refine wp_scalarOneOrNone_bind fun o ho => ?_
  refine wp_now_bind fun τ s₂ h₂ hinv₂ => ?_
  refine wp_require_bind (fun i hi => ?_) fun _ _ => trivial
  refine wp_ensure_bind (fun _ => ?_) fun _ _ => trivial
  refine wp_ensure_bind (fun _ => ?_) fun _ _ => trivial
  split
  · exact keeping_done
  · obtain ⟨hlook, _, _⟩ :=
      hrows.rely h₂ i (by rw [ho, hi]; exact List.mem_cons_self)
    rw [hg₁.view] at hlook
    exact keeping_join hg₁.writes hinv₂ hlook

theorem keeping_serve :
    Keeping requests O p (serve H (requests p)) {} s := by
  cases hrequest : requests p with
  | create user body requestId =>
      exact keeping_create fun _ _ _ => keeping_done
  | changeRole o k actor body => exact keeping_changeRole
  | removeMember o k actor => exact keeping_removeMember hrequest
  | invite o actor body => exact keeping_invite fun _ _ _ => keeping_done
  | revokeInvitation o i actor => exact keeping_revokeInvitation
  | accept actor body => exact keeping_accept

end Requests

/-! ## Every run -/

theorem ownerInvariant_of_absent {db : Db} {O : Uuid} (h : Absent db O) :
    OwnerInvariant O db where
  owned := by
    rintro ⟨o, ho⟩
    exact absurd (Key.id.inj (Relation.key_of_lookup ho))
      (h.organizations o (Relation.mem_of_lookup ho))
  membered := by
    intro u m hm
    exact absurd (Key.pair.inj (Relation.key_of_lookup hm)).1
      (h.memberships m (Relation.mem_of_lookup hm))
  invited := by
    intro k i hi hO
    exact absurd hO (h.invitations i (Relation.mem_of_lookup hi))

/-- An organization that a run has created has an owner in every committed
state, unless some removal is a `StaleRemoval`. -/
theorem exists_owner (H : TokenHash) (requests : Pid → Request) {s₀ : Db}
    {O : Uuid} (habsent : Absent s₀ O) {w : World schema AppError Unit}
    (hreach : Reachable (World.start s₀ fun p => serve H (requests p)) w)
    (hremovals : ∀ c ∈ w.log, ¬ StaleRemoval O (requests c.pid) c)
    (hO : Registered w.store O) :
    ∃ m ∈ (w.store .memberships).rows,
      Membership.organizationId m = O ∧ m.role = .owner := by
  have hinv := ownerInvariant_of_absent habsent
  have hsound := sound (C := ownership requests O) hinv
    (fun _ => keeping_serve) hreach hremovals
  obtain ⟨u, m, hm, hrole⟩ := hsound.inv.owned hO
  exact ⟨m, Relation.mem_of_lookup hm,
    (Key.pair.inj (Relation.key_of_lookup hm)).1, hrole⟩

/-! ## A run with a stale removal -/

def alice : User where
  id := 2
  email := "alice@example.org"
  passwordHash := 0
  displayName := "Alice"

def bob : User where
  id := 1
  email := "bob@example.org"
  passwordHash := 0
  displayName := "Bob"

theorem admin_ne_owner : Role.admin ≠ .owner := by decide

/-- Bob creates an organization and invites Alice as an admin.  While she
removes herself, he hands the organization over to her. -/
def handover : Pid → Request
  | 0 => .create bob ⟨"Team", "team"⟩ "request"
  | 1 => .invite 10 bob ⟨"alice@example.org", .admin, admin_ne_owner⟩
  | 2 => .accept alice ⟨20⟩
  | 3 => .changeRole 10 2 bob ⟨.owner⟩
  | 4 => .changeRole 10 1 bob ⟨.member⟩
  | _ => .removeMember 10 2 alice

def handoverSetup : List (Pid × Input schema) :=
  steps 0 [.value 10, .value 1, .value 1, .go, .go, .value 11, .value 2, .go,
    .go] ++
  steps 1 [.go, .value 20, .value 3, .value 21, .go, .value 22, .value 3, .go,
    .value 23, .value 3, .go, .go] ++
  steps 2 [.order [.id 21], .go, .go, .value 4, .go, .go, .order [.id 21],
    .go, .go, .value 24, .value 5, .go, .go]

def aliceRaised : List (Pid × Input schema) :=
  steps 3 [.go, .order [.id 10], .go, .go, .go, .order [.pair 10 2], .go, .go,
    .value 25, .value 6, .go, .go]

def handoverChanges : List (Pid × Input schema) :=
  aliceRaised ++
    steps 4 [.go, .order [.id 10], .go, .go, .go, .go, .order [.pair 10 1],
      .go, .go, .value 26, .value 7, .go, .go]

/-- The permission of the removal is checked before the changes, the rest of
it runs after them. -/
def removalAfter (changes : List (Pid × Input schema)) :
    List (Pid × Input schema) :=
  handoverSetup ++ steps 5 [.go] ++ changes ++
    steps 5 [.order [.id 10], .go, .go, .value 27, .value 8, .go,
      .order [.pair 10 2], .go, .go, .go]

def handoverStart : World schema AppError Unit :=
  World.start (Store.empty schema) fun p => serve plainHash (handover p)

/-- Without the condition on removals an organization can end up with members
and no owner. -/
theorem staleRemoval_loses_owner :
    ¬ ∀ w, Reachable handoverStart w → Registered w.store 10 →
      ∃ m ∈ (w.store .memberships).rows,
        Membership.organizationId m = 10 ∧ m.role = .owner := by
  intro hclaim
  have hrun : (handoverStart.run (removalAfter handoverChanges)).any (fun w =>
      ((w.store .organizations).lookup (.id 10)).isSome ∧
        ∀ m ∈ (w.store .memberships).rows, Membership.role m ≠ .owner) =
          true := by
    decide +kernel
  obtain ⟨w, hreach, hO, hnone⟩ := exists_reachable hrun
  obtain ⟨m, hm, _, hrole⟩ :=
    hclaim w hreach (Option.isSome_iff_exists.mp hO)
  exact hnone m hm hrole

theorem handover_removal {p : Pid} {o k : Uuid} {actor : User}
    (h : handover p = .removeMember o k actor) : 5 ≤ p ∧ actor = alice := by
  match p, h with
  | n + 5, h =>
      cases h
      exact ⟨Nat.le_add_left 5 n, rfl⟩

/-- Half of the handover: Alice is an owner by the time that she is removed,
and Bob still is one. -/
theorem exists_owner_handover :
    ∃ w, Reachable handoverStart w ∧
      (∃ c ∈ w.log, handover c.pid = .removeMember 10 2 alice) ∧
      ∃ m ∈ (w.store .memberships).rows,
        Membership.organizationId m = 10 ∧ m.role = .owner := by
  have hrun : (handoverStart.run (removalAfter aliceRaised)).any (fun w =>
      ((w.store .organizations).lookup (.id 10)).isSome ∧
        (∃ c ∈ w.log, c.pid = 5) ∧ ∀ c ∈ w.log, 5 ≤ c.pid →
          ((c.before .memberships).lookup (membershipKey 10 1)).any
            (fun m => m.role = .owner) = true) = true := by
    decide +kernel
  obtain ⟨w, hreach, hO, ⟨c, hc, hpid⟩, hbob⟩ := exists_reachable hrun
  have habsent : Absent (Store.empty schema) 10 := by
    constructor <;> simp [Store.empty]
  refine ⟨w, hreach, ⟨c, hc, by rw [hpid]; rfl⟩,
    exists_owner plainHash handover habsent hreach ?_
      (Option.isSome_iff_exists.mp hO)⟩
  rintro d hd ⟨actor, _, hrequest, _, _, _, honly⟩
  obtain ⟨hlate, rfl⟩ := handover_removal hrequest
  obtain ⟨m, hm, hrole⟩ := (Option.any_eq_true _ _).mp (hbob d hd hlate)
  have hsame : (1 : Uuid) = alice.id :=
    honly 1 ⟨m, hm, of_decide_eq_true hrole⟩
  exact absurd hsame (by decide)

end Workstream.Organizations
