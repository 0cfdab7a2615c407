import Workstream.Modules.Auth.Revocation
import Workstream.ReadCommitted.Steady

/-!
# Presenting a rotated token

A refresh that finds its token rotated revokes the family and says so.  It
does not stop before, unless a failure befalls it: the row of the token is one
row, and the `UPDATE` of the family fails on none.
-/

namespace Workstream.Auth

open ReadCommitted World

section Lookup

variable {H : TokenHash} {settings : Settings} {body : RefreshRequest}

/-- The `SELECT ... FOR UPDATE` of a refresh. -/
abbrev tokenScan (H : TokenHash) (body : RefreshRequest) :
    Scan schema .authSessions where
  pred := fun s => s.refreshTokenHash = H.hash body.refreshToken

/-- What follows the `SELECT` speaks, if it has found no row or a rotated
one. -/
structure Looked (k : List AuthSession → Tx Response) : Prop where
  unknown : (k []).Speaks
  rotated : ∀ h : AuthSession, h.rotatedAt ≠ none → (k [h]).Speaks

theorem harmless_revoke (pred : AuthSession → Bool) (time : Instant) :
    Scan.Harmless (σ := schema) (t := .authSessions)
      { pred, effect := fun s => .write { s with revokedAt := some time } } :=
  fun _ _ => ⟨rfl, rfl⟩

theorem serve_refresh (H : TokenHash) (settings : Settings)
    (body : RefreshRequest) : ∃ k, serve H settings (.refresh body) =
      .scan .authSessions (tokenScan H body) k ∧ Looked k := by
  refine ⟨_, rfl, fun _ => trivial, fun h hh time => ?_⟩
  have hrotated : h.rotatedAt.isSome = true := Option.isSome_iff_ne_none.mpr hh
  change (Prog.bind _ (if h.rotatedAt.isSome then _ else _)).Speaks
  rw [if_pos hrotated]
  exact ⟨harmless_revoke _ _, fun _ => trivial⟩

end Lookup

/-! ## How far a refresh has come -/

/-- A refresh on its way to the row of its token, or beyond: it speaks, or the
token was good when its `SELECT` ran. -/
inductive Presenting (H : TokenHash) (body : RefreshRequest)
    (k : List AuthSession → Tx Response)
    (w : World schema AppError Response) (p : Pid) : Prop where
  | before (hguard : (w.procs p).guard = none)
      (hprog : (w.procs p).prog = .scan .authSessions (tokenScan H body) k)
      (hwrites : (w.session p).writes = []) (hseen : (w.session p).seen = [])
  | visiting (db : Db) (todo : List Key) (acc : List AuthSession)
      (hguard : (w.procs p).guard = none)
      (hprog : (w.procs p).prog =
        .visit .authSessions (tokenScan H body) todo acc k)
      (hwrites : (w.session p).writes = [])
      (hseen : (w.session p).seen =
        (acc.map (Obs.kept (σ := schema) .authSessions)).reverse ++
          [.scanning db])
      (hcount : acc.length + todo.length ≤ 1)
      (hsame : ∀ x ∈ (db .authSessions).rows,
        AuthSession.refreshTokenHash x = H.hash body.refreshToken →
        ∀ key ∈ todo, key = .id (AuthSession.id x))
      (hacc : ∀ h ∈ acc, ∀ x ∈ (db .authSessions).rows,
        AuthSession.refreshTokenHash x = H.hash body.refreshToken →
        x.rotatedAt ≠ none → AuthSession.rotatedAt h ≠ none)
      (hsince : ∀ x ∈ (db .authSessions).rows, ∃ y,
        (w.store .authSessions).lookup (.id (AuthSession.id x)) = some y ∧
          Persists x y)
  | speaking (h : Speaking w p)
  | good (h : AuthSession) (db : Db)
      (hseen : [.kept .authSessions h, .scanning db] <:+ (w.session p).seen)
      (hrow : h.rotatedAt = none)
      (hdb : ∀ x ∈ (db .authSessions).rows,
        AuthSession.refreshTokenHash x = H.hash body.refreshToken →
        x.rotatedAt = none)

section Presenting

variable {H : TokenHash} {body : RefreshRequest}
  {k : List AuthSession → Tx Response}
  {w w' : World schema AppError Response} {p : Pid}

theorem view_of_unwritten (hwrites : (w.session p).writes = []) :
    w.view p = w.store := by
  rw [World.view, Session.view, hwrites]
  rfl

/-- Whoever has stopped has not presented a rotated token. -/
theorem Presenting.not_halt (h : Presenting H body k w p)
    (hpresents : PresentsRotated H body (w.localOf p)) :
    (w.procs p).prog ≠ .halt := by
  intro hhalt
  cases h with
  | before _ hprog => cases hhalt.symm.trans hprog
  | visiting _ _ _ _ hprog => cases hhalt.symm.trans hprog
  | speaking h =>
      have hprog := h.prog
      rw [hhalt] at hprog
      exact hprog
  | good h db hseen hrow hdb =>
      rcases hpresents.found hseen with ⟨x, hx, hhash, hrotated⟩ | hrotated
      · exact hrotated (hdb x hx hhash)
      · exact hrotated hrow

/-- What somebody else does. -/
theorem Presenting.others (h : Presenting H body k w p) {q : Pid}
    {x : Input schema} (hstep : w.advance q x = some w') (hq : p ≠ q)
    (hkeeps : ∀ (i : Uuid) (y : AuthSession),
      (w.store .authSessions).lookup (.id i) = some y →
      ∃ z, (w'.store .authSessions).lookup (.id i) = some z ∧ Persists y z) :
    Presenting H body k w' p := by
  have hproc := ((change_of_advance hstep).others hq).1
  have hsession : w'.session p = w.session p := by
    rw [World.session, hproc, World.session]
  cases h with
  | before hguard hprog hwrites hseen =>
      exact .before (hproc ▸ hguard) (hproc ▸ hprog) (hsession ▸ hwrites)
        (hsession ▸ hseen)
  | visiting db todo acc hguard hprog hwrites hseen hcount hsame hacc hsince =>
      refine .visiting db todo acc (hproc ▸ hguard) (hproc ▸ hprog)
        (hsession ▸ hwrites) (hsession ▸ hseen) hcount hsame hacc ?_
      intro x hx
      obtain ⟨y, hy, hxy⟩ := hsince x hx
      obtain ⟨z, hz, hyz⟩ := hkeeps x.id y hy
      exact ⟨z, hz, hxy.trans hyz⟩
  | speaking h => exact .speaking (h.others hstep hq)
  | good h db hseen hrow hdb => exact .good h db (hsession ▸ hseen) hrow hdb

/-- The `SELECT` starts: the token is in one row at most. -/
theorem Presenting.start (hguard : (w.procs p).guard = none)
    (hwrites : (w.session p).writes = [])
    (hseen : (w.session p).seen = [])
    (hfamilies : Families (w.store .authSessions)) {keys : List Key}
    (hvisits : (tokenScan H body).Visits (w.view p) keys) :
    Presenting H body k (w.resume p
      (.visit .authSessions (tokenScan H body) keys [] k)
      ((w.session p).observe (.scanning (w.view p)))) p := by
  rw [view_of_unwritten hwrites] at hvisits ⊢
  refine .visiting w.store keys [] ?_ ?_ ?_ ?_ ?_ ?_ ?_ ?_
  · simpa [World.resume, setProc] using hguard
  · simp [World.resume, setProc]
  · simpa [World.resume, World.session, setProc, Session.observe]
      using hwrites
  · simpa [World.resume, World.session, setProc, Session.observe] using hseen
  · rw [List.length_nil, Nat.zero_add, hvisits.1.length_eq, Scan.candidates,
      List.length_map]
    refine length_le_one ((w.store .authSessions).nodup_rows.filter _) ?_
    intro x hx y hy
    simp only [List.mem_filter, decide_eq_true_eq] at hx hy
    exact hfamilies.digest x hx.1 y hy.1 (hx.2.trans hy.2.symm)
  · intro x hx hhash key hkey
    obtain ⟨y, hy, hpred⟩ := hvisits.mem_candidates.mp hkey
    rw [decide_eq_true_eq] at hpred
    have hxy : x = y := hfamilies.digest x hx y (Relation.mem_of_lookup hy)
      (hhash.trans hpred.symm)
    rw [hxy]
    exact (Relation.key_of_lookup hy).symm
  · exact fun h hh => absurd hh List.not_mem_nil
  · exact fun x hx => ⟨x, mem_sessions_iff.mp hx, .refl x⟩

/-- The `SELECT` is over. -/
theorem Presenting.looked (hlooked : Looked k) {db : Db}
    {acc : List AuthSession} (hguard : (w.procs p).guard = none)
    (hseen : (w.session p).seen =
      (acc.map (Obs.kept (σ := schema) .authSessions)).reverse ++
        [.scanning db])
    (hcount : acc.length ≤ 1)
    (hacc : ∀ h ∈ acc, ∀ x ∈ (db .authSessions).rows,
      AuthSession.refreshTokenHash x = H.hash body.refreshToken →
      x.rotatedAt ≠ none → AuthSession.rotatedAt h ≠ none) :
    Presenting H body k (w.resume p (k acc) (w.session p)) p := by
  match acc, hcount with
  | [], _ => exact .speaking (.resume hguard hlooked.unknown _)
  | [h], _ =>
      by_cases hrotated : h.rotatedAt = none
      · refine .good h db ?_ hrotated ?_
        · have hsession : (w.resume p (k [h]) (w.session p)).session p =
              w.session p := by
            simp [World.resume, World.session, setProc]
          rw [hsession, hseen]
          exact List.suffix_rfl
        · intro x hx hhash
          by_contra hx'
          exact hacc h List.mem_cons_self x hx hhash hx' hrotated
      · exact .speaking (.resume hguard (hlooked.rotated h hrotated) _)

/-- The row of the token is rotated if it was rotated in the snapshot. -/
theorem Presenting.keep {db : Db} {key : Key} {r : AuthSession}
    {ws : List (Write schema)} {refs : List schema.Ref}
    (hguard : (w.procs p).guard = none)
    (hwrites : (w.session p).writes = [])
    (hseen : (w.session p).seen = [.scanning db])
    (hsame : ∀ x ∈ (db .authSessions).rows,
      AuthSession.refreshTokenHash x = H.hash body.refreshToken →
      key = .id (AuthSession.id x))
    (hsince : ∀ x ∈ (db .authSessions).rows, ∃ y,
      (w.store .authSessions).lookup (.id (AuthSession.id x)) = some y ∧
        Persists x y)
    (hvisit : (tokenScan H body).visit (w.view p) key = .keep r ws refs) :
    Presenting H body k (w.lockAndResume p ((.authSessions, key) :: refs)
      (.visit .authSessions (tokenScan H body) [] [r] k)
      (((w.session p).add ws).observe (.kept .authSessions r))) p := by
  rw [view_of_unwritten hwrites] at hvisit
  have hrow : (w.store .authSessions).lookup key = some r ∧ ws = [] := by
    unfold Scan.visit at hvisit
    split at hvisit
    · cases hvisit
    · next x hx =>
        split at hvisit
        · cases hvisit
          exact ⟨hx, rfl⟩
        · cases hvisit
  obtain ⟨hr, rfl⟩ := hrow
  refine .visiting db [] [r] ?_ ?_ ?_ ?_ le_rfl ?_ ?_ hsince
  · simpa [World.lockAndResume, World.resume, setProc] using hguard
  · simp [World.lockAndResume, World.resume, setProc]
  · simpa [World.lockAndResume, World.resume, World.session, setProc,
      Session.observe, Session.add] using hwrites
  · simpa [World.lockAndResume, World.resume, World.session, setProc,
      Session.observe, Session.add] using hseen
  · exact fun _ _ _ key hkey => absurd hkey List.not_mem_nil
  · intro h hh x hx hhash hrotated
    rw [List.mem_singleton.mp hh]
    obtain ⟨y, hy, hxy⟩ := hsince x hx
    rw [← hsame x hx hhash, hr] at hy
    rw [Option.some.inj hy]
    exact hxy.rotated hrotated

/-- A step of the refresh itself, without a failure. -/
theorem Presenting.advance (h : Presenting H body k w p)
    (hlooked : Looked k) (hview : (w.view p).Unique)
    (hfamilies : Families (w.store .authSessions)) {x : Input schema}
    (hx : x.regular = true) (hanswer : (w.procs p).answer = none)
    (hstep : w.advance p x = some w') : Presenting H body k w' p := by
  cases h with
  | before hguard hprog hwrites hseen =>
      rw [World.advance, hprog] at hstep
      cases x <;> simp only [Input.regular, Bool.false_eq_true] at hx
      all_goals simp only [perform, reduceCtorEq] at hstep
      split at hstep
      · next hvisits =>
          cases hstep
          exact .start hguard hwrites hseen hfamilies hvisits
      · cases hstep
  | visiting db todo acc hguard hprog hwrites hseen hcount hsame hacc hsince =>
      rw [World.advance, hprog] at hstep
      cases x <;> simp only [Input.regular, Bool.false_eq_true] at hx
      all_goals simp only [perform, reduceCtorEq] at hstep
      cases todo with
      | nil =>
          cases hstep
          exact .looked hlooked hguard hseen hcount hacc
      | cons key rest =>
          have hlength : acc.length = 0 ∧ rest.length = 0 := by
            rw [List.length_cons] at hcount
            omega
          obtain rfl := List.eq_nil_of_length_eq_zero hlength.1
          obtain rfl := List.eq_nil_of_length_eq_zero hlength.2
          simp only [Scan.full, reduceCtorEq, decide_false, Bool.false_eq_true,
            if_false, visitOne] at hstep
          split at hstep
          · cases hvisit : (tokenScan H body).visit (w.view p) key with
            | skip =>
                rw [hvisit] at hstep
                cases hstep
                refine .visiting db [] [] ?_ ?_ ?_ ?_ (Nat.zero_le 1) ?_ ?_
                  hsince
                · simpa [World.resume, setProc] using hguard
                · simp [World.resume, setProc]
                · simpa [World.resume, World.session, setProc] using hwrites
                · simpa [World.resume, World.session, setProc] using hseen
                · exact fun _ _ _ _ hk => absurd hk List.not_mem_nil
                · exact fun _ hh => absurd hh List.not_mem_nil
            | failed =>
                have hharmless : (tokenScan H body).Harmless :=
                  fun _ _ => trivial
                exact absurd hvisit (hharmless.visit_ne_failed hview key)
            | keep r ws refs =>
                rw [hvisit] at hstep
                simp only at hstep
                split at hstep
                · cases hstep
                  exact .keep hguard hwrites hseen
                    (fun x hx hhash => hsame x hx hhash key List.mem_cons_self)
                    hsince hvisit
                · cases hstep
          · cases hstep
  | speaking h => exact .speaking (h.advance hview hx hanswer hstep)
  | good h db hseen hrow hdb =>
      exact .good h db (hseen.trans (change_of_advance hstep).seen.1) hrow hdb

end Presenting

/-! ## A presentation that nobody disturbs -/

/-- The family of the token, as `db` has it, is revoked in `db'`. -/
def FamilyRevoked (H : TokenHash) (token : Token) (db db' : Db) : Prop :=
  ∀ x ∈ (db .authSessions).rows, AuthSession.refreshTokenHash x = H.hash token →
    ∀ y ∈ (db .authSessions).rows,
      AuthSession.familyId y = AuthSession.familyId x →
      RevokedAt (.id (AuthSession.id y)) db'

section Undisturbed

variable {H : TokenHash} {settings : Settings} {body : RefreshRequest}
  {db : Db} {used : List ℕ} {x : AuthSession}

theorem visits_tokenScan (hfamilies : Families (db .authSessions))
    (hx : x ∈ (db .authSessions).rows)
    (hhash : x.refreshTokenHash = H.hash body.refreshToken) {keys : List Key} :
    (tokenScan H body).Visits db keys ↔ keys = [.id x.id] := by
  refine Scan.visits_one (mem_sessions_iff.mp hx) (by simpa using hhash) ?_
  intro y hy hpred
  rw [decide_eq_true_eq] at hpred
  exact hfamilies.digest y hy x hx (hpred.trans hhash.symm)

/-- The `UPDATE` of a family reaches every row of it. -/
theorem yields_revoke {Q : Except AppError Response → Db → Prop}
    {f : Unit → Tx Response} {familyId : Uuid} {time : Instant}
    (hdb : db.Unique)
    (h : ∀ db' : Db, (∀ y ∈ (db .authSessions).rows,
        AuthSession.familyId y = familyId →
        RevokedAt (.id (AuthSession.id y)) db') →
      (f ()).Yields Q none db' [] used) :
    ((do revokeWhere (fun s => s.familyId = familyId) time
         Prog.commitNow
         f ()) : Tx Response).Yields Q none db [] used := by
  set q : Scan schema .authSessions :=
    { pred := fun s => s.familyId = familyId
      effect := fun s => .write { s with revokedAt := some time } }
  change Prog.Yields Q (.scan .authSessions q _) none db [] used
  rw [Prog.Yields]
  refine ⟨⟨q.candidates db, .refl _, List.pairwise_of_forall fun _ _ => rfl⟩,
    fun keys hvisits => ?_⟩
  refine yieldsVisit_write rfl (harmless_revoke _ time) (fun _ => rfl) hdb
    (hvisits.1.nodup_iff.mpr (q.nodup_candidates db)) ?_
  intro rows ws _ hrows
  refine h _ fun y hy hfamily => ?_
  have hlook := mem_sessions_iff.mp hy
  have hpred : q.pred y = true := by simpa [q] using hfamily
  exact ⟨_, hrows _ (hvisits.mem_candidates.mpr ⟨y, hlook, hpred⟩) y hlook
    hpred, Option.some_ne_none time⟩

/-- Whoever presents a rotated token, undisturbed, ends the family. -/
theorem yields_refresh (hdb : db.Unique)
    (hfamilies : Families (db .authSessions))
    (hx : x ∈ (db .authSessions).rows)
    (hhash : x.refreshTokenHash = H.hash body.refreshToken)
    (hrotated : x.rotatedAt ≠ none) :
    (serve H settings (.refresh body)).Yields (fun a db' =>
      a = .error refreshTokenReuse ∧
        FamilyRevoked H body.refreshToken db db') none db [] used := by
  have hvisits : ∀ keys, (tokenScan H body).Visits db keys ↔
      keys = [.id x.id] := fun _ => visits_tokenScan hfamilies hx hhash
  have hvisit : (tokenScan H body).visit db (.id x.id) = .keep x [] [] := by
    simp only [Scan.visit, mem_sessions_iff.mp hx, hhash, decide_true, if_true]
  change Prog.Yields (σ := schema) _
    (.scan .authSessions (tokenScan H body) _) none db [] used
  rw [Prog.Yields]
  simp only [Store.view_nil, hvisits, exists_eq, true_and, forall_eq]
  simp only [yieldsVisit, Scan.full, reduceCtorEq, decide_false,
    Bool.false_eq_true, if_false, Store.view_nil, hvisit]
  intro time
  have hsome : x.rotatedAt.isSome = true :=
    Option.isSome_iff_ne_none.mpr hrotated
  change (Prog.bind _ (if x.rotatedAt.isSome then _ else _)).Yields _ none db
    [] used
  rw [if_pos hsome]
  refine yields_revoke (f := fun _ => .raise refreshTokenReuse) hdb
    fun db' hrevoked => ⟨rfl, ?_⟩
  intro z hz hzhash y hy hfamily
  obtain rfl : z = x := hfamilies.digest z hz x hx (hzhash.trans hhash.symm)
  exact hrevoked y hy hfamily

end Undisturbed

end Workstream.Auth
