import Workstream.ReadCommitted.Rules

/-!
# One client on its own

What a client reaches while the others stand still: they may hold locks, but
they do not move.
-/

namespace ReadCommitted
namespace World

variable {σ : Schema} {ε α β : Type} {u v w : World σ ε α} {p : Pid}

theorem run_append (xs ys : List (Pid × Input σ)) :
    w.run (xs ++ ys) = (w.run xs).bind fun w' => w'.run ys := by
  induction xs generalizing w with
  | nil => rfl
  | cons x xs ih =>
      obtain ⟨q, i⟩ := x
      simp only [List.cons_append, run]
      cases w.advance q i with
      | none => rfl
      | some w' => exact ih

/-- `v` is reached from `u` by moves of `p` within one transaction, which has
gained the writes `ws`. -/
structure Alone (p : Pid) (ws : List (Write σ)) (u v : World σ ε α) :
    Prop where
  run : ∃ xs : List (Input σ), u.run (xs.map fun x => (p, x)) = some v
  store : v.store = u.store
  log : v.log = u.log
  writes : (v.session p).writes = (u.session p).writes ++ ws
  free : ∀ r, Free v.locks p [r] ↔ Free u.locks p [r]

theorem Alone.refl (u : World σ ε α) : Alone p [] u u where
  run := ⟨[], rfl⟩
  store := rfl
  log := rfl
  writes := (List.append_nil _).symm
  free := fun _ => Iff.rfl

theorem Alone.trans {ws vs : List (Write σ)} (h : Alone p ws u v)
    (h' : Alone p vs v w) : Alone p (ws ++ vs) u w where
  run := by
    obtain ⟨xs, hxs⟩ := h.run
    obtain ⟨ys, hys⟩ := h'.run
    refine ⟨xs ++ ys, ?_⟩
    rw [List.map_append, run_append, hxs]
    exact hys
  store := h'.store.trans h.store
  log := h'.log.trans h.log
  writes := by rw [h'.writes, h.writes, List.append_assoc]
  free := fun r => (h'.free r).trans (h.free r)

theorem Alone.view {ws : List (Write σ)} (h : Alone p ws u v) :
    v.view p = Store.view ws (u.view p) := by
  simp only [World.view, Session.view, h.writes, h.store, Store.view_append]

end World

namespace World

variable {σ : Schema} {ε α : Type} {u : World σ ε α} {p : Pid}

end World
end ReadCommitted
