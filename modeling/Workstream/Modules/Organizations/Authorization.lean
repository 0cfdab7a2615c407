import Workstream.Modules.Organizations.Steps

/-!
# Who changes members

The permission of `change_role` and `remove_member` is read before the lock of
the organization is taken.  A commit is authorized by the store on which it is
made, unless its actor has been demoted or removed in between.
-/

namespace Workstream.Organizations

open ReadCommitted Contract

/-- Roles in the order of what they permit, above no role at all. -/
def rank : Option Role → ℕ
  | none => 0
  | some .viewer => 1
  | some .member => 2
  | some .admin => 3
  | some .owner => 4

theorem rank_owner {r : Option Role} (h : 4 ≤ rank r) : r = some .owner := by
  match r, h with
  | some .owner, _ => rfl

theorem rank_admin {r : Option Role} (h : 3 ≤ rank r) :
    r = some .owner ∨ r = some .admin := by
  match r, h with
  | some .owner, _ => exact Or.inl rfl
  | some .admin, _ => exact Or.inr rfl

theorem rank_le (r : Option Role) : rank r ≤ 4 := by
  rcases r with _ | r
  · exact Nat.zero_le 4
  · cases r <;> decide

/-- The user who changes the members of `O` with a request. -/
def Request.changer (O : Uuid) : Request → Option Uuid
  | .changeRole o _ actor _ => if o = O then some actor.id else none
  | .removeMember o _ actor => if o = O then some actor.id else none
  | _ => none

@[simp] theorem changer_changeRole (O k : Uuid) (actor : User)
    (body : RoleChange) :
    (Request.changeRole O k actor body).changer O = some actor.id :=
  if_pos rfl

@[simp] theorem changer_removeMember (O k : Uuid) (actor : User) :
    (Request.removeMember O k actor).changer O = some actor.id :=
  if_pos rfl

/-- The store on which a request commits gives its actor the permission. -/
structure Authorized (O : Uuid) (request : Request) (c : Commit schema) :
    Prop where
  changeRole : ∀ k actor body, request = .changeRole O k actor body →
    roleOf c.before O actor.id = some .owner
  removeMember : ∀ k actor, request = .removeMember O k actor →
    (roleOf c.before O actor.id = some .owner ∨
      roleOf c.before O actor.id = some .admin) ∧
    (roleOf c.before O k = some .owner →
      roleOf c.before O actor.id = some .owner)

/-- The actor of a change has been demoted or removed since its permission was
checked. -/
def Demoted (O : Uuid) (request : Request) (c : Commit schema) : Prop :=
  ∃ u db, request.changer O = some u ∧ checkedOn c = some db ∧
    rank (roleOf c.before O u) < rank (roleOf db O u)

/-! ## The contract -/

/-- Without the lock of the organization, memberships are only added. -/
def MembersLocked (O : Uuid) (c : Commit schema) : Prop :=
  ¬ c.Held (.organizations, .id O) → ∀ u,
    (c.after .memberships).lookup (membershipKey O u) =
        (c.before .memberships).lookup (membershipKey O u) ∨
      (c.before .memberships).lookup (membershipKey O u) = none

def authority (requests : Pid → Request) (O : Uuid) : Contract schema where
  inv := fun s => Registered s.store O
  assume := fun _ => True
  guar := fun c => MembersLocked O c ∧
    (¬ Demoted O (requests c.pid) c → Authorized O (requests c.pid) c)
  inv_draw := fun _ _ _ h => h

section Stability

variable {requests : Pid → Request} {O : Uuid} {p : Pid} {l : Local schema}
  {s : Shared schema} {db : Db} {c : Commit schema}

/-- A member who has been found under the lock of the organization stays
one. -/
theorem member_of_past {u : Uuid} {m : Membership}
    (hpast : (authority requests O).Past p s [(.organizations, .id O)] db)
    (hm : (db .memberships).lookup (membershipKey O u) = some m) :
    (s.store .memberships).lookup (membershipKey O u) = some m := by
  obtain ⟨used, _, hrely⟩ := hpast
  refine hrely.induct (P := fun v : Shared schema =>
    (v.store .memberships).lookup (membershipKey O u) = some m) hm ?_
  intro v v' henv hv
  cases henv with
  | commit d _ _ hlocks _ _ hguar =>
      have hfree : ¬ d.Held (.organizations, .id O) :=
        fun hheld => hlocks _ hheld List.mem_cons_self
      rcases hguar.1 hfree u with hsame | hnone
      · rw [hsame, hv]
      · rw [hv] at hnone
        cases hnone
  | draw => exact hv

/-- An organization is there to be locked. -/
theorem locked_of_past {refs : List schema.Ref}
    (h : Locked ((authority requests O).Past p s) c O refs) :
    refs = [(.organizations, .id O)] ∧ c.Held (.organizations, .id O) := by
  cases h with
  | held hheld => exact ⟨rfl, hheld⟩
  | missing db hpast hnone =>
      obtain ⟨used, hinv, _⟩ := hpast
      obtain ⟨o, ho⟩ := hinv
      change (db .organizations).lookup (.id O) = some o at ho
      rw [ho] at hnone
      cases hnone

end Stability

/-! ## One commit -/

section Commits

variable {H : TokenHash} {requests : Pid → Request} {O : Uuid} {p : Pid}
  {s : Shared schema} {c : Commit schema} {request : Request}

theorem membersLocked_of_writes
    (h : ∀ x ∈ c.session.writes, ∀ u,
      x.ref ≠ (.memberships, membershipKey O u)) : MembersLocked O c :=
  fun _ u => Or.inl (Store.lookup_view_of_not_mem fun x hx => h x hx u)

/-- A membership that replaces another one is not of another organization. -/
theorem membershipKey_of_lookup {db : Db} {o k : Uuid} {r : Membership}
    (hr : (db .memberships).lookup (membershipKey o k) = some r) :
    membershipKey r.organizationId r.userId = membershipKey o k :=
  Relation.key_of_lookup hr

theorem Effects.membersLocked (hO : Registered c.before O)
    (h : Effects H ((authority requests O).Past p s) request c) :
    MembersLocked O c := by
  have hchange : ∀ {o k held m},
      Found ((authority requests O).Past p s) c o k held m →
      (∀ x ∈ c.session.writes, ∀ u, x.ref = (.memberships, membershipKey O u) →
        o = O) → MembersLocked O c := by
    rintro o k held m ⟨refs, hlocked, _⟩ hws
    by_cases ho : o = O
    · subst ho
      exact fun hfree => absurd (locked_of_past hlocked).2 hfree
    · exact membersLocked_of_writes fun x hx u href => ho (hws x hx u href)
  cases h with
  | created org event _ _ hnew _ _ hwrites =>
      refine membersLocked_of_writes ?_
      have hne := ne_of_new hO hnew
      simp [hwrites, Write.ref, primaryKey, membershipKey, hne]
  | roleKept am m event _ _ _ _ hwrites =>
      exact membersLocked_of_writes (by simp [hwrites, Write.ref])
  | roleChanged am m r event _ hfound _ hrow _ hwrites =>
      refine hchange hfound ?_
      have hkey := membershipKey_of_lookup hrow
      simp only [membershipKey, Key.pair.injEq] at hkey
      simp [hwrites, Write.ref, primaryKey, membershipKey, hkey]
  | removed am m event _ hfound _ _ _ hwrites =>
      refine hchange hfound ?_
      simp [hwrites, Write.ref, membershipKey]
  | unremoved am m event db _ _ _ _ _ _ hwrites =>
      exact membersLocked_of_writes (by simp [hwrites, Write.ref])
  | invited am id eventId raw time occurredAt event _ _ _ _ _ hwrites =>
      exact membersLocked_of_writes (by simp [hwrites, Write.ref])
  | revoked am r time event _ _ _ _ hwrites =>
      exact membersLocked_of_writes (by simp [hwrites, Write.ref])
  | @accepted actor body _ r time ws event _ _ _ _ _ _ _ hjoins _ hwrites =>
      cases hjoins with
      | already db m _ _ =>
          exact membersLocked_of_writes (by simp [hwrites, Write.ref])
      | member hnone =>
          intro _ u
          by_cases hu : membershipKey r.organizationId actor.id =
            membershipKey O u
          · exact Or.inr (hu ▸ hnone)
          · refine Or.inl (Store.lookup_view_of_not_mem ?_)
            simpa [hwrites, Write.ref, primaryKey, membershipKey] using hu

/-- What the permission check has found is a lower bound for what the actor
may do, if he has not been demoted since. -/
theorem le_rank_of_checked {past : List schema.Ref → Db → Prop} {u : Uuid}
    {roles : List Role} {m : Membership}
    (hchanger : request.changer O = some u)
    (hchecked : Checked past c O u roles m) (h : ¬ Demoted O request c) :
    rank (some m.role) ≤ rank (roleOf c.before O u) := by
  obtain ⟨_, db, hdb, _, hm⟩ := hchecked
  by_contra hlt
  refine h ⟨u, db, hchanger, hdb, ?_⟩
  rw [roleOf_eq hm]
  exact Nat.not_le.mp hlt

theorem authorized_removal {k : Uuid} {actor : User} {am m : Membership}
    (hbefore : c.before = s.store)
    (hchecked : Checked ((authority requests O).Past p s) c O actor.id
      [.owner, .admin] am)
    (hfound : Found ((authority requests O).Past p s) c O k
      (if k = actor.id then some am else none) m)
    (hallowed : am.role = .admin → m.role ≠ .owner)
    (h : ¬ Demoted O (.removeMember O k actor) c) :
    Authorized O (.removeMember O k actor) c := by
  have hrank := le_rank_of_checked (changer_removeMember O k actor)
    hchecked h
  have hrole : am.role = .owner ∨ am.role = .admin := by
    simpa using hchecked.1
  refine ⟨by rintro _ _ _ ⟨⟩, ?_⟩
  rintro _ _ ⟨⟩
  constructor
  · apply rank_admin
    rcases hrole with hrole | hrole
    · rw [hrole] at hrank
      exact Nat.le_of_succ_le hrank
    · rw [hrole] at hrank
      exact hrank
  · intro howner
    by_cases hself : k = actor.id
    · rwa [hself] at howner
    · rw [if_neg hself] at hfound
      obtain ⟨refs, hlocked, db, hpast, hm⟩ := hfound
      rw [(locked_of_past hlocked).1] at hpast
      have hnow := member_of_past hpast hm
      rw [hbefore, roleOf_eq hnow] at howner
      rcases hrole with hrole | hrole
      · rw [hrole] at hrank
        exact rank_owner hrank
      · exact absurd (Option.some.inj howner) (hallowed hrole)

theorem Effects.authorized (hbefore : c.before = s.store)
    (heffects : Effects H ((authority requests O).Past p s) request c)
    (h : ¬ Demoted O request c) : Authorized O request c := by
  have hother : ∀ {o}, o ≠ O →
      (∀ k actor body, request = .changeRole O k actor body → o = O) →
      (∀ k actor, request = .removeMember O k actor → o = O) →
      Authorized O request c := by
    intro o ho hrole hremove
    exact ⟨fun k actor body hr => absurd (hrole k actor body hr) ho,
      fun k actor hr => absurd (hremove k actor hr) ho⟩
  have hchange : ∀ {o k actor body am},
      request = .changeRole o k actor body →
      Checked ((authority requests O).Past p s) c o actor.id [.owner] am →
      Authorized O request c := by
    rintro o k actor body am rfl hchecked
    by_cases ho : o = O
    · subst ho
      have hrank := le_rank_of_checked (changer_changeRole o k actor body)
        hchecked h
      have hrole : am.role = .owner := by simpa using hchecked.1
      rw [hrole] at hrank
      refine ⟨?_, by rintro _ _ ⟨⟩⟩
      rintro _ _ _ ⟨⟩
      exact rank_owner hrank
    · refine hother ho ?_ ?_
      · rintro _ _ _ ⟨⟩
        rfl
      · rintro _ _ ⟨⟩
  have hremoval : ∀ {o k actor am m}, request = .removeMember o k actor →
      Checked ((authority requests O).Past p s) c o actor.id
        [.owner, .admin] am →
      Found ((authority requests O).Past p s) c o k
        (if k = actor.id then some am else none) m →
      (am.role = .admin → m.role ≠ .owner) → Authorized O request c := by
    rintro o k actor am m rfl hchecked hfound hallowed
    by_cases ho : o = O
    · subst ho
      exact authorized_removal hbefore hchecked hfound hallowed h
    · refine hother ho ?_ ?_
      · rintro _ _ _ ⟨⟩
      · rintro _ _ ⟨⟩
        rfl
  cases heffects with
  | roleKept am m event hchecked => exact hchange rfl hchecked
  | roleChanged am m r event hchecked => exact hchange rfl hchecked
  | removed am m event hchecked hfound hallowed =>
      exact hremoval rfl hchecked hfound hallowed
  | unremoved am m event db hchecked hfound hallowed =>
      exact hremoval rfl hchecked hfound hallowed
  | _ => exact ⟨by rintro _ _ _ ⟨⟩, by rintro _ _ ⟨⟩⟩

theorem allows_authority :
    Allows H (authority requests O) requests p := by
  intro l s c hinv hc _ _ heffects
  have hO : Registered c.before O := by
    rw [hc.before]
    exact hinv
  refine ⟨⟨heffects.membersLocked hO, ?_⟩, heffects.registered hO⟩
  rw [hc.pid]
  exact heffects.authorized hc.before

end Commits

/-! ## Every run -/

/-- A demoted actor is authorized all the same only if he is still an admin
and removes somebody who is no owner. -/
theorem Authorized.of_demoted {O : Uuid} {request : Request}
    {c : Commit schema} (h : Authorized O request c)
    (hdemoted : Demoted O request c) :
    ∃ k actor, request = .removeMember O k actor ∧
      roleOf c.before O actor.id = some .admin ∧
      roleOf c.before O k ≠ some .owner := by
  obtain ⟨u, db, hchanger, _, hlt⟩ := hdemoted
  have hnot : roleOf c.before O u ≠ some .owner := by
    intro howner
    rw [howner] at hlt
    exact absurd (Nat.lt_of_lt_of_le hlt (rank_le _)) (Nat.lt_irrefl 4)
  cases request with
  | changeRole o k actor body =>
      simp only [Request.changer, Option.ite_none_right_eq_some,
        Option.some.injEq] at hchanger
      obtain ⟨rfl, rfl⟩ := hchanger
      exact absurd (h.changeRole k actor body rfl) hnot
  | removeMember o k actor =>
      simp only [Request.changer, Option.ite_none_right_eq_some,
        Option.some.injEq] at hchanger
      obtain ⟨rfl, rfl⟩ := hchanger
      obtain ⟨hrole, howner⟩ := h.removeMember k actor rfl
      exact ⟨k, actor, rfl, hrole.resolve_left hnot,
        fun hk => hnot (howner hk)⟩
  | _ => cases hchanger

/-- Every change of members is authorized by the state that it changes, unless
its actor has been demoted since the permission check. -/
theorem changes_authorized (H : TokenHash) (requests : Pid → Request)
    {s₀ : Db} {O : Uuid} (hO : Registered s₀ O)
    {w : World schema AppError Unit}
    (hreach : Reachable (World.start s₀ fun p => serve H (requests p)) w) :
    ∀ c ∈ w.log,
      (¬ Demoted O (requests c.pid) c → Authorized O (requests c.pid) c) ∧
      (Demoted O (requests c.pid) c → Authorized O (requests c.pid) c →
        ∃ k actor, requests c.pid = .removeMember O k actor ∧
          roleOf c.before O actor.id = some .admin ∧
          roleOf c.before O k ≠ some .owner) := by
  have hsound := sound (C := authority requests O) hO
    (fun p => requests_serve allows_authority hO) hreach fun _ _ => trivial
  intro c hc
  exact ⟨(hsound.guar c hc).2, fun hdemoted h => h.of_demoted hdemoted⟩

/-! ## A run with a demoted owner -/

def team : Organization where
  id := 10
  name := "Team"
  slug := "team"
  createdAt := 0
  updatedAt := 0

/-- Alice and Bob own the organization. -/
def twoOwners : Db :=
  Store.view (σ := schema)
    [.put .organizations team,
      .put .memberships { organizationId := 10, userId := 1, role := .owner },
      .put .memberships { organizationId := 10, userId := 2, role := .owner }]
    (Store.empty schema)

theorem registered_twoOwners : Registered twoOwners 10 :=
  ⟨team, by decide +kernel⟩

/-- Bob makes himself an owner while Alice demotes him. -/
def promotion : Pid → Request
  | 0 => .changeRole 10 1 bob ⟨.owner⟩
  | _ => .changeRole 10 1 alice ⟨.member⟩

def promotionStart : World schema AppError Unit :=
  World.start twoOwners fun p => serve plainHash (promotion p)

/-- Alice's request from its permission check to its commit. -/
def demotion : List (Pid × Input schema) :=
  steps 1 [.go, .order [.id 10], .go, .go, .go, .go, .order [.pair 10 1], .go,
    .go, .value 25, .value 6, .go, .go]

/-- Bob's permission is checked before he is demoted, the rest of his request
runs after that. -/
def promotionRun : List (Pid × Input schema) :=
  steps 0 [.go] ++ demotion ++
    steps 0 [.order [.id 10], .go, .go, .go, .order [.pair 10 1], .go, .go,
      .value 26, .value 7, .go, .go]

/-- A demoted owner can promote himself with a request that is under way. -/
theorem demoted_owner_changes_role :
    ¬ ∀ w, Reachable promotionStart w → ∀ c ∈ w.log,
      Authorized 10 (promotion c.pid) c := by
  intro hclaim
  have hrun : (promotionStart.run promotionRun).any (fun w =>
      ∃ c ∈ w.log, c.pid = 0 ∧ roleOf c.before 10 1 ≠ some .owner) = true := by
    decide +kernel
  obtain ⟨w, hreach, c, hc, hpid, hrole⟩ := exists_reachable hrun
  have hauthorized := hclaim w hreach c hc
  rw [hpid] at hauthorized
  exact hrole (hauthorized.changeRole 1 bob ⟨.owner⟩ rfl)

/-- Alice's demotion of Bob alone is authorized. -/
theorem changes_authorized_demotion :
    ∃ w, Reachable promotionStart w ∧ ∃ c ∈ w.log,
      Authorized 10 (promotion c.pid) c := by
  have hrun : (promotionStart.run demotion).any (fun w =>
      ∃ c ∈ w.log, c.pid = 1 ∧ (checkedOn c).all fun db =>
        rank (roleOf db 10 2) ≤ rank (roleOf c.before 10 2)) = true := by
    decide +kernel
  obtain ⟨w, hreach, c, hc, hpid, hrank⟩ := exists_reachable hrun
  refine ⟨w, hreach, c, hc, (changes_authorized plainHash promotion
    registered_twoOwners hreach c hc).1 ?_⟩
  rintro ⟨u, db, hchanger, hdb, hlt⟩
  rw [hpid] at hchanger
  cases hchanger
  rw [hdb] at hrank
  exact Nat.not_le.mpr hlt (of_decide_eq_true hrank)

end Workstream.Organizations
