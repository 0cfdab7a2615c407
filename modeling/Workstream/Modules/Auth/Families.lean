import Workstream.Modules.Auth.Router

/-!
# Session families

A family is a chain of rows of which exactly the newest is not rotated.  A
commit opens a family, appends to one, or revokes rows; `SessionChange` says
so once, and everything that the endpoints rely on follows from it.
-/

namespace Workstream.Auth

open ReadCommitted

abbrev SessionTable : Type := Relation schema .authSessions

theorem mem_sessions_iff {R : SessionTable} {x : AuthSession} :
    x ∈ R.rows ↔ R.lookup (.id x.id) = some x := by
  rw [Relation.lookup_eq_some_iff]
  exact (and_iff_left rfl).symm

/-- The representation invariant of the table. -/
structure Families (R : SessionTable) : Prop where
  head : ∀ x ∈ R.rows, ∃ y ∈ R.rows,
    AuthSession.familyId y = AuthSession.familyId x ∧ y.rotatedAt = none
  headUnique : ∀ x ∈ R.rows, ∀ y ∈ R.rows,
    AuthSession.familyId x = AuthSession.familyId y →
    x.rotatedAt = none → y.rotatedAt = none → x = y
  login : ∀ x ∈ R.rows, ∀ y ∈ R.rows,
    AuthSession.familyId x = AuthSession.familyId y →
    x.userId = y.userId ∧ x.expiresAt = y.expiresAt
  digest : ∀ x ∈ R.rows, ∀ y ∈ R.rows,
    AuthSession.refreshTokenHash x = AuthSession.refreshTokenHash y → x = y

/-- A row can be used: it is neither revoked nor rotated. -/
def Live (x : AuthSession) : Prop :=
  x.revokedAt = none ∧ x.rotatedAt = none

/-- A family without a live row. -/
def Dead (F : Uuid) (R : SessionTable) : Prop :=
  ∀ x ∈ R.rows, AuthSession.familyId x = F → ¬ Live x

/-! ## What a commit does to the rows -/

/-- `r` is a row that the table does not know in any way. -/
structure NewRow (R : SessionTable) (r : AuthSession) : Prop where
  key : R.lookup (.id r.id) = none
  digest : ∀ x ∈ R.rows,
    AuthSession.refreshTokenHash x ≠ r.refreshTokenHash
  unrotated : r.rotatedAt = none

/-- `r` continues the login of `h`. -/
structure Successor (h r : AuthSession) : Prop where
  family : r.familyId = h.familyId
  user : r.userId = h.userId
  expires : r.expiresAt = h.expiresAt

/-- The change from `b` to `a` that the commit of a request may make. -/
inductive SessionChange (H : TokenHash) (request : Request)
    (b a : SessionTable) : Prop where
  | opened (body : LoginRequest) (client : Client) (r : AuthSession)
      (hrequest : request = .login body client) (hnew : NewRow b r)
      (hfamily : ∀ x ∈ b.rows, AuthSession.familyId x ≠ r.familyId)
      (hafter : ∀ k, a.lookup k = if k = .id r.id then some r else b.lookup k)
  | revoked (time : Instant)
      (hafter : ∀ k, a.lookup k = b.lookup k ∨ ∃ r : AuthSession,
        b.lookup k = some r ∧
        a.lookup k = some { r with revokedAt := some time })
  | exchanged (body : RefreshRequest) (h r : AuthSession) (time : Instant)
      (hrequest : request = .refresh body)
      (hdigest : h.refreshTokenHash = H.hash body.refreshToken)
      (hmem : h ∈ b.rows) (hlive : Live h) (hnew : NewRow b r)
      (hsucc : Successor h r)
      (hafter : ∀ k, a.lookup k = if k = .id r.id then some r
        else if k = .id h.id then some { h with rotatedAt := some time }
        else b.lookup k)

section Change

variable {H : TokenHash} {request : Request} {b a : SessionTable}

theorem NewRow.ne {r x : AuthSession} (h : NewRow b r) (hx : x ∈ b.rows) :
    x.id ≠ r.id := by
  intro heq
  have hlook := mem_sessions_iff.mp hx
  rw [heq, h.key] at hlook
  cases hlook

/-- What becomes of a row: it keeps its login and its token, and is rotated
and revoked for good. -/
structure Persists (x y : AuthSession) : Prop where
  id : y.id = x.id
  family : y.familyId = x.familyId
  user : y.userId = x.userId
  expires : y.expiresAt = x.expiresAt
  digest : y.refreshTokenHash = x.refreshTokenHash
  rotated : x.rotatedAt ≠ none → y.rotatedAt ≠ none
  revoked : x.revokedAt ≠ none → y.revokedAt ≠ none

theorem Persists.refl (x : AuthSession) : Persists x x :=
  ⟨rfl, rfl, rfl, rfl, rfl, fun h => h, fun h => h⟩

theorem Persists.trans {x y z : AuthSession} (h : Persists x y)
    (h' : Persists y z) : Persists x z where
  id := h'.id.trans h.id
  family := h'.family.trans h.family
  user := h'.user.trans h.user
  expires := h'.expires.trans h.expires
  digest := h'.digest.trans h.digest
  rotated := fun hx => h'.rotated (h.rotated hx)
  revoked := fun hx => h'.revoked (h.revoked hx)

theorem persists_revoke (x : AuthSession) (time : Instant) :
    Persists x { x with revokedAt := some time } :=
  ⟨rfl, rfl, rfl, rfl, rfl, fun h => h, fun _ => by simp⟩

theorem persists_rotate (x : AuthSession) (time : Instant) :
    Persists x { x with rotatedAt := some time } :=
  ⟨rfl, rfl, rfl, rfl, rfl, fun _ => by simp, fun h => h⟩

/-- No row is ever lost. -/
theorem SessionChange.persists (h : SessionChange H request b a)
    {x : AuthSession} (hx : x ∈ b.rows) :
    ∃ y, a.lookup (.id x.id) = some y ∧ Persists x y := by
  have hlook := mem_sessions_iff.mp hx
  cases h with
  | opened body client r _ hnew _ hafter =>
      refine ⟨x, ?_, .refl x⟩
      rw [hafter, if_neg (by simpa using hnew.ne hx), hlook]
  | revoked time hafter =>
      rcases hafter (.id x.id) with hsame | ⟨r, hr, hafter⟩
      · exact ⟨x, hsame.trans hlook, .refl x⟩
      · rw [hlook] at hr
        obtain rfl := Option.some.inj hr
        exact ⟨_, hafter, persists_revoke x time⟩
  | exchanged body h r time _ _ hmem _ hnew _ hafter =>
      have hne : Key.id x.id ≠ .id r.id := by simpa using hnew.ne hx
      by_cases hxh : x.id = h.id
      · have hhead := mem_sessions_iff.mp hmem
        rw [← hxh, hlook] at hhead
        obtain rfl := Option.some.inj hhead
        refine ⟨{ x with rotatedAt := some time }, ?_, persists_rotate x time⟩
        rw [hafter, if_neg hne, if_pos rfl]
      · refine ⟨x, ?_, .refl x⟩
        rw [hafter, if_neg hne, if_neg (by simpa using hxh), hlook]

/-- Every row is an old one or a new one; an old one that is not rotated was
not rotated before. -/
theorem SessionChange.origin (h : SessionChange H request b a)
    {y : AuthSession} (hy : y ∈ a.rows) :
    (∃ x ∈ b.rows, Persists x y ∧
        (y.revokedAt = none → x.revokedAt = none) ∧
        (y.rotatedAt = none → x.rotatedAt = none)) ∨
      NewRow b y ∧
        ((∀ x ∈ b.rows, AuthSession.familyId x ≠ y.familyId) ∨
          ∃ h ∈ b.rows, Live h ∧ Successor h y ∧
            ∃ h', a.lookup (.id (AuthSession.id h)) = some h' ∧
              AuthSession.rotatedAt h' ≠ none) := by
  have hlook := mem_sessions_iff.mp hy
  cases h with
  | opened body client r _ hnew hfamily hafter =>
      rw [hafter] at hlook
      split at hlook
      · obtain rfl := Option.some.inj hlook
        exact Or.inr ⟨hnew, Or.inl hfamily⟩
      · exact Or.inl ⟨y, mem_sessions_iff.mpr hlook, .refl y, fun h => h,
          fun h => h⟩
  | revoked time hafter =>
      left
      rcases hafter (.id y.id) with hsame | ⟨r, hr, hafter⟩
      · rw [hsame] at hlook
        exact ⟨y, mem_sessions_iff.mpr hlook, .refl y, fun h => h, fun h => h⟩
      · rw [hafter] at hlook
        obtain rfl := Option.some.inj hlook
        refine ⟨r, mem_sessions_iff.mpr hr, persists_revoke r time, ?_,
          fun h => h⟩
        intro hnone
        cases hnone
  | exchanged body h r time _ _ hmem hlive hnew hsucc hafter =>
      have hhead : a.lookup (.id h.id) =
          some { h with rotatedAt := some time } := by
        rw [hafter, if_neg (by simpa using hnew.ne hmem), if_pos rfl]
      rw [hafter] at hlook
      split at hlook
      · obtain rfl := Option.some.inj hlook
        exact Or.inr ⟨hnew, Or.inr ⟨h, hmem, hlive, hsucc, _, hhead, by simp⟩⟩
      · split at hlook
        · obtain rfl := Option.some.inj hlook
          refine Or.inl ⟨h, hmem, persists_rotate h time, fun h => h, ?_⟩
          intro hnone
          cases hnone
        · exact Or.inl ⟨y, mem_sessions_iff.mpr hlook, .refl y, fun h => h,
            fun h => h⟩

theorem eq_of_id_eq {R : SessionTable} {x y : AuthSession} (hx : x ∈ R.rows)
    (hy : y ∈ R.rows) (h : x.id = y.id) : x = y :=
  R.eq_of_key_eq hx hy (congrArg Key.id h)

/-- A commit adds one row at most. -/
theorem SessionChange.new_unique (h : SessionChange H request b a)
    {x y : AuthSession} (hx : x ∈ a.rows) (hy : y ∈ a.rows)
    (hnewx : NewRow b x) (hnewy : NewRow b y) : x = y := by
  have hlookx := mem_sessions_iff.mp hx
  have hlooky := mem_sessions_iff.mp hy
  cases h with
  | opened body client r _ hnew _ hafter =>
      rw [hafter, hnewx.key] at hlookx
      rw [hafter, hnewy.key] at hlooky
      split at hlookx
      · split at hlooky
        · rw [← Option.some.inj hlookx, ← Option.some.inj hlooky]
        · cases hlooky
      · cases hlookx
  | revoked time hafter =>
      rcases hafter (.id x.id) with hsame | ⟨r, hr, _⟩
      · rw [hsame, hnewx.key] at hlookx
        cases hlookx
      · rw [hnewx.key] at hr
        cases hr
  | exchanged body h r time _ _ hmem _ hnew _ hafter =>
      have hne : ∀ z, NewRow b z → Key.id z.id ≠ .id h.id := by
        intro z hz heq
        exact hz.ne hmem (Key.id.inj heq).symm
      rw [hafter, if_neg (hne x hnewx), hnewx.key] at hlookx
      rw [hafter, if_neg (hne y hnewy), hnewy.key] at hlooky
      split at hlookx
      · split at hlooky
        · rw [← Option.some.inj hlookx, ← Option.some.inj hlooky]
        · cases hlooky
      · cases hlookx

/-- The row that a commit appends is the head of its family. -/
theorem SessionChange.head (h : SessionChange H request b a)
    (hb : Families b) {y : AuthSession} (hy : y ∈ a.rows) :
    ∃ z ∈ a.rows, AuthSession.familyId z = y.familyId ∧
      z.rotatedAt = none := by
  have hold : ∀ x ∈ b.rows, ∃ z ∈ a.rows,
      AuthSession.familyId z = AuthSession.familyId x ∧
        z.rotatedAt = none := by
    intro x hx
    obtain ⟨hd, hhd, hfam, hrot⟩ := hb.head x hx
    have hlook := mem_sessions_iff.mp hhd
    cases h with
    | opened body client r _ hnew _ hafter =>
        refine ⟨hd, mem_sessions_iff.mpr ?_, hfam, hrot⟩
        rw [hafter, if_neg (by simpa using hnew.ne hhd), hlook]
    | revoked time hafter =>
        rcases hafter (.id hd.id) with hsame | ⟨r, hr, hafter⟩
        · exact ⟨hd, mem_sessions_iff.mpr (hsame.trans hlook), hfam, hrot⟩
        · rw [hlook] at hr
          obtain rfl := Option.some.inj hr
          exact ⟨{ hd with revokedAt := some time },
            mem_sessions_iff.mpr hafter, hfam, hrot⟩
    | exchanged body h r time _ _ hmem hlive hnew hsucc hafter =>
        by_cases hsame : h.familyId = x.familyId
        · refine ⟨r, mem_sessions_iff.mpr ?_, hsucc.family.trans hsame,
            hnew.unrotated⟩
          rw [hafter, if_pos rfl]
        · have hne : hd.id ≠ h.id := by
            intro heq
            have hdh := eq_of_id_eq hhd hmem heq
            exact hsame (hdh ▸ hfam)
          refine ⟨hd, mem_sessions_iff.mpr ?_, hfam, hrot⟩
          rw [hafter, if_neg (by simpa using hnew.ne hhd),
            if_neg (by simpa using hne), hlook]
  rcases h.origin hy with ⟨x, hx, hxy, _⟩ | ⟨hnew, _⟩
  · obtain ⟨z, hz, hfam, hrot⟩ := hold x hx
    exact ⟨z, hz, hfam.trans hxy.family.symm, hrot⟩
  · exact ⟨y, hy, rfl, hnew.unrotated⟩

/-- A new row and an old one agree on the login if they share a family, and
the old one is rotated. -/
theorem SessionChange.new_old (h : SessionChange H request b a)
    (hb : Families b) {x y z : AuthSession} (hy : y ∈ a.rows)
    (hz : z ∈ a.rows) (hnew : NewRow b y) (hx : x ∈ b.rows)
    (hxz : Persists x z) (hunrotated : z.rotatedAt = none → x.rotatedAt = none)
    (hfam : y.familyId = z.familyId) :
    z.rotatedAt ≠ none ∧ y.userId = z.userId ∧ y.expiresAt = z.expiresAt := by
  rcases h.origin hy with ⟨x', hx', hxy', _⟩ | ⟨_, hdiff | ⟨hd, hhd, hlive,
    hsucc, hd', hlook', hrot'⟩⟩
  · have hcontra := mem_sessions_iff.mp hx'
    rw [← hxy'.id, hnew.key] at hcontra
    cases hcontra
  · exact absurd (hxz.family.symm.trans hfam.symm) (hdiff x hx)
  · have hfamily : x.familyId = hd.familyId :=
      (hxz.family.symm.trans hfam.symm).trans hsucc.family
    obtain ⟨huser, hexp⟩ := hb.login x hx hd hhd hfamily
    refine ⟨?_, ?_, ?_⟩
    · intro hnone
      have hsame : x = hd :=
        hb.headUnique x hx hd hhd hfamily (hunrotated hnone) hlive.2
      subst hsame
      have hlookz := mem_sessions_iff.mp hz
      rw [hxz.id, hlook'] at hlookz
      rw [Option.some.inj hlookz] at hrot'
      exact hrot' hnone
    · rw [hsucc.user, hxz.user, huser]
    · rw [hsucc.expires, hxz.expires, hexp]

/-- The representation invariant is kept by every commit. -/
theorem Families.change (hb : Families b)
    (h : SessionChange H request b a) : Families a where
  head := fun _ hy => h.head hb hy
  headUnique := by
    intro y hy z hz hfam hroty hrotz
    rcases h.origin hy with ⟨x, hx, hxy, _, hux⟩ | ⟨hnewy, _⟩
    · rcases h.origin hz with ⟨x', hx', hxz, _, hux'⟩ | ⟨hnewz, _⟩
      · have hsame : x = x' := hb.headUnique x hx x' hx'
          (hxy.family.symm.trans (hfam.trans hxz.family))
          (hux hroty) (hux' hrotz)
        refine eq_of_id_eq hy hz ?_
        rw [hxy.id, hxz.id, hsame]
      · exact absurd hroty (h.new_old hb hz hy hnewz hx hxy hux hfam.symm).1
    · rcases h.origin hz with ⟨x', hx', hxz, _, hux'⟩ | ⟨hnewz, _⟩
      · exact absurd hrotz (h.new_old hb hy hz hnewy hx' hxz hux' hfam).1
      · exact h.new_unique hy hz hnewy hnewz
  login := by
    intro y hy z hz hfam
    rcases h.origin hy with ⟨x, hx, hxy, _, hux⟩ | ⟨hnewy, _⟩
    · rcases h.origin hz with ⟨x', hx', hxz, _, hux'⟩ | ⟨hnewz, _⟩
      · obtain ⟨huser, hexp⟩ := hb.login x hx x' hx'
          (hxy.family.symm.trans (hfam.trans hxz.family))
        rw [hxy.user, hxz.user, hxy.expires, hxz.expires]
        exact ⟨huser, hexp⟩
      · obtain ⟨_, huser, hexp⟩ :=
          h.new_old hb hz hy hnewz hx hxy hux hfam.symm
        exact ⟨huser.symm, hexp.symm⟩
    · rcases h.origin hz with ⟨x', hx', hxz, _, hux'⟩ | ⟨hnewz, _⟩
      · exact (h.new_old hb hy hz hnewy hx' hxz hux' hfam).2
      · obtain rfl := h.new_unique hy hz hnewy hnewz
        exact ⟨rfl, rfl⟩
  digest := by
    intro y hy z hz hdigest
    rcases h.origin hy with ⟨x, hx, hxy, _, _⟩ | ⟨hnewy, _⟩
    · rcases h.origin hz with ⟨x', hx', hxz, _, _⟩ | ⟨hnewz, _⟩
      · have hsame : x = x' := hb.digest x hx x' hx'
          (hxy.digest.symm.trans (hdigest.trans hxz.digest))
        refine eq_of_id_eq hy hz ?_
        rw [hxy.id, hxz.id, hsame]
      · exact absurd (hxy.digest.symm.trans hdigest) (hnewz.digest x hx)
    · rcases h.origin hz with ⟨x', hx', hxz, _, _⟩ | ⟨hnewz, _⟩
      · exact absurd (hxz.digest.symm.trans hdigest.symm)
          (hnewy.digest x' hx')
      · exact h.new_unique hy hz hnewy hnewz

/-- A family without a live row never gets one again. -/
theorem Dead.change {F : Uuid} (hdead : Dead F b)
    (hknown : ∃ x ∈ b.rows, AuthSession.familyId x = F)
    (h : SessionChange H request b a) : Dead F a := by
  intro y hy hF hlive
  rcases h.origin hy with ⟨x, hx, hxy, hrev, hrot⟩ | ⟨_, hdiff | ⟨hd, hhd,
    hlivehd, hsucc, _⟩⟩
  · exact hdead x hx (hxy.family.symm.trans hF) ⟨hrev hlive.1, hrot hlive.2⟩
  · obtain ⟨x, hx, hxF⟩ := hknown
    exact hdiff x hx (hxF.trans hF.symm)
  · exact hdead hd hhd (hsucc.family.symm.trans hF) hlivehd

end Change

/-! ## What the endpoints see -/

/-- The join of `current_principal` has one row at most. -/
theorem Families.principalRows_length {db : Db}
    (h : Families (db .authSessions)) (userId sessionId : Uuid) :
    (principalRows userId sessionId db).length ≤ 1 := by
  have hsessions : ∀ u : User, ((db .authSessions).rows.filter
      fun s : AuthSession => s.userId = u.id ∧ s.familyId = sessionId ∧
        s.revokedAt = none ∧ s.rotatedAt = none).length ≤ 1 := by
    intro u
    refine length_le_one ((db .authSessions).nodup_rows.filter _) ?_
    intro x hx y hy
    simp only [List.mem_filter, decide_eq_true_eq] at hx hy
    exact h.headUnique x hx.1 y hy.1 (hx.2.2.1.trans hy.2.2.1.symm)
      hx.2.2.2.2 hy.2.2.2.2
  have husers : ((db .users).rows.filter
      fun u : User => u.id = userId ∧ u.isActive).length ≤ 1 := by
    refine length_le_one ((db .users).nodup_rows.filter _) ?_
    intro x hx y hy
    simp only [List.mem_filter, decide_eq_true_eq] at hx hy
    refine (db .users).eq_of_key_eq hx.1 hy.1 (congrArg Key.id ?_)
    exact hx.2.1.trans hy.2.1.symm
  unfold principalRows
  match (db .users).rows.filter fun u : User => u.id = userId ∧ u.isActive,
    husers with
  | [], _ => simp
  | [u], _ => simpa using hsessions u

/-- A dead family authenticates nobody. -/
theorem Dead.principalRows_eq {db : Db} {F : Uuid}
    (h : Dead F (db .authSessions)) (userId : Uuid) :
    principalRows userId F db = [] := by
  rw [principalRows, List.flatMap_eq_nil_iff]
  intro u _
  rw [List.map_eq_nil_iff, List.filter_eq_nil_iff]
  intro x hx
  simp only [decide_eq_true_eq]
  rintro ⟨_, hF, hlive⟩
  exact h x hx hF hlive

/-- The listing of sessions shows every family once. -/
theorem Families.sessionRows_nodup {db : Db}
    (h : Families (db .authSessions)) (userId : Uuid) :
    ((sessionRows userId db).map AuthSession.familyId).Nodup := by
  rw [sessionRows, ((List.perm_insertionSort _ _).map _).nodup_iff]
  refine List.Nodup.map_on ?_ ((db .authSessions).nodup_rows.filter _)
  intro x hx y hy hfam
  simp only [List.mem_filter, decide_eq_true_eq] at hx hy
  exact h.headUnique x hx.1 y hy.1 hfam hx.2.2 hy.2.2

end Workstream.Auth
