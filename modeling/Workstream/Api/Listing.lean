import Mathlib.Data.Prod.Lex
import Mathlib.Order.OrderDual
import Workstream.Api.Cursors
import Workstream.Keyset.Walk
import Workstream.ReadCommitted.Reads

/-!
# Listings

What the `list_` endpoints have in common: the comparison with the cursor, the
order, and the row that is read beyond the limit.
-/

namespace Workstream

open ReadCommitted

/-- `Query(50, ge=1, le=100)`. -/
structure Limit where
  rows : ℕ
  pos : 1 ≤ rows
  le : rows ≤ 100

structure CursorPage (ρ : Type) where
  items : List ρ
  nextCursor : Option String

/-- The columns `created_at` and `id` of a statement, and the direction of its
`ORDER BY`. -/
structure Sorting (ρ : Type) where
  createdAt : ρ → Instant
  id : ρ → Uuid
  descending : Bool := true

namespace Sorting

variable {ρ : Type} (o : Sorting ρ)

def position (r : ρ) : Instant × Uuid :=
  (o.createdAt r, o.id r)

/-- `x` comes before `y`. -/
def precedes (x y : Instant × Uuid) : Bool :=
  if o.descending then y.1 < x.1 ∨ y.1 = x.1 ∧ y.2 < x.2
  else y.1 > x.1 ∨ y.1 = x.1 ∧ y.2 > x.2

/-- The rows in the order of the statement. -/
def orderBy (rows : List ρ) : List ρ :=
  rows.mergeSort fun a b => !o.precedes (o.position b) (o.position a)

end Sorting

/-- The instant that the driver sends to the database; a time without an offset
is a local one. -/
def Datetime.instant (P : Platform) (t : Datetime) : Option Instant :=
  let x := (t.clock : ℤ) - t.offset.getD (P.localOffset t.clock)
  if 0 ≤ x ∧ x < Text.maxOrdinal * 86400000000 then some x.toNat else none

/-- The position that a request starts from; an empty cursor is none. -/
def startPosition (P : Platform) (cursor : Option String) :
    Tx (Option (Instant × Uuid)) :=
  match cursor with
  | none => pure none
  | some value =>
      if value = "" then pure none
      else do
        let position ← decodeCursor P value
        match position.1.instant P with
        | some createdAt => return some (createdAt, position.2)
        | none => .halt

/-- The page of a statement. -/
def listPage {ρ : Type} (P : Platform) (o : Sorting ρ) (stmt : Db → List ρ)
    (cursor : Option String) (limit : Limit) : Tx (CursorPage ρ) := do
  let start ← startPosition P cursor
  let rows ← Prog.select fun db =>
    (o.orderBy ((stmt db).filter fun r =>
      start.all fun x => o.precedes x (o.position r))).take (limit.rows + 1)
  let items := rows.take limit.rows
  return {
    items
    nextCursor :=
      if limit.rows < rows.length then
        items.getLast?.map fun r => encodeCursor (utc (o.createdAt r)) (o.id r)
      else none }

/-! ## The order of the positions -/

/-- A position in the direction of a statement. -/
@[ext]
structure Position (descending : Bool) where
  createdAt : ℕ
  id : ℕ

namespace Position

def lex {descending : Bool} (x : Position descending) : ℕ ×ₗ ℕ :=
  toLex (x.createdAt, x.id)

theorem lex_injective {descending : Bool} :
    Function.Injective (@lex descending) := by
  intro x y h
  have hpair := toLex.injective h
  exact Position.ext (congrArg Prod.fst hpair) (congrArg Prod.snd hpair)

instance : (descending : Bool) → LinearOrder (Position descending)
  | true => LinearOrder.lift' (fun x => OrderDual.toDual x.lex)
      (OrderDual.toDual.injective.comp lex_injective)
  | false => LinearOrder.lift' lex lex_injective

end Position

namespace Sorting

variable {ρ : Type} (o : Sorting ρ)

def key (r : ρ) : Position o.descending where
  createdAt := o.createdAt r
  id := o.id r

def start (x : Instant × Uuid) : Position o.descending where
  createdAt := x.1
  id := x.2

theorem lt_iff (x y : Instant × Uuid) :
    o.start x < o.start y ↔ o.precedes x y = true := by
  obtain ⟨createdAt, id, descending⟩ := o
  cases descending
  · have hlex : toLex x < toLex y ↔ x.1 < y.1 ∨ x.1 = y.1 ∧ x.2 < y.2 :=
      Prod.Lex.toLex_lt_toLex
    have hpair : (x.1 = y.1) = (y.1 = x.1) := propext eq_comm
    rw [hpair] at hlex
    exact hlex.trans (by simp [precedes])
  · have hlex : toLex y < toLex x ↔ y.1 < x.1 ∨ y.1 = x.1 ∧ y.2 < x.2 :=
      Prod.Lex.toLex_lt_toLex
    exact hlex.trans (by simp [precedes])

theorem key_lt {a b : ρ} :
    o.key a < o.key b ↔ o.precedes (o.position a) (o.position b) = true :=
  o.lt_iff (o.position a) (o.position b)

theorem key_le {a b : ρ} :
    o.key a ≤ o.key b ↔ o.precedes (o.position b) (o.position a) = false := by
  rw [← not_lt, key_lt, Bool.not_eq_true]

theorem orderBy_eq (rows : List ρ) :
    o.orderBy rows = rows.mergeSort fun a b => o.key a ≤ o.key b := by
  unfold orderBy
  congr 1
  funext a b
  rw [Bool.eq_iff_iff, Bool.not_eq_true', decide_eq_true_eq, key_le]

theorem after_iff {c : Option (Instant × Uuid)} {r : ρ} :
    Keyset.After (c.map o.start) (o.key r) ↔
      (c.all fun x => o.precedes x (o.position r)) = true := by
  cases c with
  | none => simp [Keyset.After]
  | some x =>
      rw [Option.map_some, Keyset.after_some, Option.all_some]
      exact o.lt_iff x (o.position r)

/-- The response that a page becomes. -/
def respond (page : Keyset.Page ρ (Position o.descending)) : CursorPage ρ where
  items := page.items
  nextCursor := page.next.map fun x => encodeCursor (utc x.createdAt) x.id

end Sorting

/-- The instants of `datetime`, and the numbers of a `UUID`. -/
structure Representable (createdAt id : ℕ) : Prop where
  instant : createdAt < Text.maxOrdinal * 86400000000
  uuid : id < 16 ^ 32

section Answer

variable {ρ : Type} {P : Platform} {o : Sorting ρ} {stmt : Db → List ρ}
  {cursor : Option String} {limit : Limit} {db : Db}

theorem Representable.valid {createdAt id : ℕ}
    (h : Representable createdAt id) : (utc createdAt).Valid where
  clock := h.instant
  offset := by simp [utc]

theorem Representable.instant_utc {createdAt id : ℕ}
    (h : Representable createdAt id) :
    (utc createdAt).instant P = some createdAt := by
  have hrange := h.instant
  have hclock : ((utc createdAt).clock : ℤ) = createdAt := rfl
  have hoffset : (utc createdAt).offset = some 0 := rfl
  rw [Datetime.instant, hoffset, hclock, Option.getD_some, sub_zero,
    if_pos (by omega), Int.toNat_natCast]

theorem startPosition_none : startPosition P none = pure none := rfl

theorem startPosition_some {value : String} {t : Datetime} {id : Uuid}
    {createdAt : Instant} (hne : value ≠ "")
    (hdecode : decodeCursor P value = pure (t, id))
    (hinstant : t.instant P = some createdAt) :
    startPosition P (some value) = pure (some (createdAt, id)) := by
  rw [startPosition, if_neg hne, hdecode, pure_bind]
  dsimp only
  rw [hinstant]

theorem startPosition_encodeCursor {createdAt id : ℕ}
    (h : Representable createdAt id) :
    startPosition P (some (encodeCursor (utc createdAt) id)) =
      pure (some (createdAt, id)) :=
  startPosition_some (encodeCursor_ne_empty _ id)
    (decodeCursor_encodeCursor P h.valid h.uuid) h.instant_utc

/-- A statement reads the page after its cursor. -/
theorem answer_listPage {start : Option (Instant × Uuid)}
    (h : startPosition P cursor = pure start) :
    (listPage P o stmt cursor limit).answer db =
      some (.ok (o.respond (Keyset.page o.key (stmt db) (start.map o.start)
        limit.rows))) := by
  have hfound : o.orderBy ((stmt db).filter fun r =>
      start.all fun x => o.precedes x (o.position r)) =
      Keyset.found o.key (stmt db) (start.map o.start) := by
    rw [o.orderBy_eq, Keyset.found]
    congr 1
    refine List.filter_congr fun r _ => ?_
    rw [Bool.eq_iff_iff, decide_eq_true_eq, o.after_iff]
  have hread : ∀ {α : Type} (q : Db → α) (f : α → Tx (CursorPage ρ)),
      (Prog.select q >>= f).answer db = (f (q db)).answer db :=
    fun _ _ => rfl
  have hlast : ∀ items : List ρ,
      items.getLast?.map (fun r => encodeCursor (utc (o.createdAt r)) (o.id r)) =
        (items.getLast?.map o.key).map
          fun x => encodeCursor (utc x.createdAt) x.id := by
    intro items
    rw [Option.map_map]
    rfl
  rw [listPage, h, pure_bind, hread, hfound, Sorting.respond, Keyset.page]
  dsimp only
  rw [hlast, apply_ite (Option.map _)]
  rfl

end Answer

/-! ## Requests that only read -/

section Reads

variable {α ρ : Type}

theorem reads_scalarOneOrNone (rows : List α) :
    (scalarOneOrNone rows).Reads := by
  match rows with
  | [] => exact .ret _
  | [_] => exact .ret _
  | _ :: _ :: _ => exact .halt

theorem reads_requireMembership (organizationId userId : Uuid)
    (roles : List Role) : (requireMembership organizationId userId roles).Reads := by
  refine (Prog.reads_select _).bind fun membership => ?_
  refine (Prog.reads_require _ _).bind fun membership => ?_
  exact (Prog.reads_ensure _ _).bind fun _ => .ret _

theorem reads_decodeCursor (P : Platform) (value : String) :
    (decodeCursor P value).Reads := by
  unfold decodeCursor
  split
  · exact .ret _
  · exact .raise _
  · exact .raise _
  · exact .halt

theorem reads_listPage (P : Platform) (o : Sorting ρ) (stmt : Db → List ρ)
    (cursor : Option String) (limit : Limit) :
    (listPage P o stmt cursor limit).Reads := by
  have hstart : (startPosition P cursor).Reads := by
    unfold startPosition
    repeat' split
    · exact .ret _
    · exact .ret _
    · refine (reads_decodeCursor P _).bind fun position => ?_
      split
      · exact .ret _
      · exact .halt
  refine hstart.bind fun start => ?_
  exact (Prog.reads_select _).bind fun rows => .ret _

end Reads

end Workstream
