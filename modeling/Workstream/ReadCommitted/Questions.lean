import Workstream.ReadCommitted.Permission
import Workstream.ReadCommitted.Requests

/-!
# Questions

What a client calls may depend on what its first query has found.  As a
discipline that is about nothing but the calls, this is checked for each answer
of the query, and holds of all that the client remembers.
-/

namespace ReadCommitted

variable {σ : Schema} {ε α : Type}

open World Discipline

/-- Everything goes, but for the calls that are not in `Ψ`. -/
def questions (Ψ : σ.Call → Prop) : Discipline σ ε Unit where
  adds := fun _ => True
  alters := fun _ _ => True
  erases := fun _ => True
  notes := fun _ => false
  asks := fun _ c => Ψ c
  answered := fun _ _ _ => ()
  commits := fun _ _ => True
  committed := fun _ => ()
  raises := fun _ _ => True
  tries := True
  alters_unnoted := fun _ => rfl
  erases_unnoted := fun _ => rfl
  noted_kept := fun h => absurd h Bool.false_ne_true

variable {Ψ : σ.Call → Prop}

theorem asks_of_questions {os : List (Obs σ)}
    (h : (questions (ε := ε) Ψ).Lawful () os) {c : σ.Call} {n : ℕ}
    (hc : Obs.answered c n ∈ os) : Ψ c := by
  induction os with
  | nil => cases hc
  | cons o os ih =>
      rcases List.mem_cons.mp hc with rfl | hmem
      · exact h.1
      · cases o with
        | answered d m => exact ih h.2 hmem
        | _ => exact ih h hmem

/-- The program calls only what is in `Ψ`. -/
def Prog.Asks (Ψ : σ.Call → Prop) (prog : Prog σ ε α) : Prop :=
  (questions Ψ).Follows (fun _ _ => True) prog ⟨(), []⟩

variable {s₀ : Store σ} {code : Pid → Prog σ ε α} {w w' : World σ ε α} {p : Pid}

/-- The client goes on to call only what is in `Ψ`. -/
abbrev Asking (Ψ : σ.Call → Prop) (w : World σ ε α) (p : Pid) : Prop :=
  Obeys (questions Ψ) () (fun _ _ => True) w.store (w.procs p)

/-- A client whose program begins with a query has not gone on yet, or it
calls only what `Ψ` says about something that it has found. -/
inductive Inquiring (k : Store σ → Prog σ ε α) (Ψ : Store σ → σ.Call → Prop)
    (w : World σ ε α) (p : Pid) : Prop where
  | waiting (hidle : Idle w p) (hprog : (w.procs p).prog = .query k)
      (hseen : (w.session p).seen = [])
  | asking (Φ : σ.Call → Prop)
      (hΦ : ∀ c, Φ c → ∃ s, Obs.saw s ∈ (w.session p).seen ∧ Ψ s c)
      (hasking : Asking Φ w p)

variable {k : Store σ → Prog σ ε α} {Ψ : Store σ → σ.Call → Prop}

/-- The first statement of a client. -/
theorem inquiring_first (hidle : Idle w p)
    (hprog : (w.procs p).prog = .query k) (hseen : (w.session p).seen = [])
    (hasks : ∀ s, (k s).Asks (Ψ s)) {x : Input σ}
    (hstep : w.advance p x = some w') : Inquiring k Ψ w' p := by
  have hgone : (w.failed p = w' ∨ w.rolledBack p .halt none = w') →
      Inquiring k Ψ w' p := by
    have hrolled : w.failed p = w.rolledBack p .halt none := by
      simp [World.failed, hidle.guard]
    rw [hrolled, or_self]
    rintro rfl
    refine .asking (fun _ => False) (fun c hc => hc.elim) ?_
    have hproc : (w.rolledBack p .halt none).procs p =
        { prog := .halt, guard := none, session := (w.session p).discard } := by
      simp [World.rolledBack, setProc]
    rw [Asking, hproc]
    refine Obeys.fresh rfl ?_ trivial ?_
    · change (questions _).Lawful () (w.session p).seen
      rw [hseen]
      trivial
    · intro g hg
      cases hg
  unfold advance at hstep
  rw [hprog] at hstep
  cases x <;> simp only [perform, reduceCtorEq, Option.some.injEq] at hstep
  · subst hstep
    have hproc : (w.resume p (k (w.view p))
        ((w.session p).observe (.saw (w.view p)))).procs p =
        { prog := k (w.view p), guard := none
          session := (w.session p).observe (.saw (w.view p)) } := by
      simp [World.resume, setProc, hidle.guard]
    refine .asking (Ψ (w.view p)) (fun c hc => ⟨w.view p, ?_, hc⟩) ?_
    · rw [session, hproc]
      exact List.mem_cons_self
    · rw [Asking, hproc]
      refine Obeys.fresh hidle.writes ?_ (hasks _) ?_
      · change (questions _).Lawful () (w.session p).seen
        rw [hseen]
        trivial
      · intro g hg
        cases hg
  · exact hgone (.inl hstep)
  · exact hgone (.inr hstep)

theorem inquiring_of_reachable (hcode : code p = .query k)
    (hasks : ∀ s, (k s).Asks (Ψ s)) (hreach : Reachable (start s₀ code) w) :
    Inquiring k Ψ w p := by
  induction hreach with
  | start => exact .waiting (idle_start s₀ code p) hcode rfl
  | @step w w' q x hprev hstep ih =>
      have hchange := change_of_advance hstep
      cases ih with
      | waiting hidle hprog hseen =>
          by_cases hq : p = q
          · subst q
            exact inquiring_first hidle hprog hseen hasks hstep
          · have hsame := (hchange.others hq).1
            refine .waiting (hidle.others hstep hq) (hsame ▸ hprog) ?_
            rw [session, hsame]
            exact hseen
      | asking Φ hΦ hasking =>
          refine .asking Φ (fun c hc => ?_) ?_
          · obtain ⟨s, hs, hc⟩ := hΦ c hc
            exact ⟨s, (hchange.seen_suffix p).subset hs, hc⟩
          · by_cases hq : p = q
            · subst q
              exact obeys_advance hasking hstep
            · exact hasking.others (wellFormed_of_reachable hprev) hchange hq

/-- What a client has called, it has called because of something that it has
found. -/
theorem asked_of_reachable (hcode : code p = .query k)
    (hasks : ∀ s, (k s).Asks (Ψ s)) (hreach : Reachable (start s₀ code) w)
    {c : σ.Call} {n : ℕ} (hasked : Obs.answered c n ∈ (w.session p).seen) :
    ∃ s, Obs.saw s ∈ (w.session p).seen ∧ Ψ s c := by
  cases inquiring_of_reachable hcode hasks hreach with
  | waiting _ _ hseen =>
      rw [hseen] at hasked
      cases hasked
  | asking Φ hΦ hasking =>
      exact hΦ c (asks_of_questions hasking.lawful hasked)

end ReadCommitted
