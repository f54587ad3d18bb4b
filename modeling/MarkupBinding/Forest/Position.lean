import MarkupBinding.Forest.Basic

/-!
# Positions from either end

A place in a list can be counted from the start, where the first node is at zero, or from the end,
where the last node is at one. The edits of a list are given here for both.
-/

namespace MarkupBinding

/-- A position in a list. -/
inductive Position where
  | fromStart (index : Nat)
  /-- The last node is at distance one. -/
  | fromEnd (distance : Nat)
deriving DecidableEq, Repr

namespace Forest

/-- Replaces the last node of a list by others. Counted from the end there is no position behind the
last node, so it stays in the list behind the others; but they take over its links, and it is left
without. -/
def replaceLast (f : Forest) (place : Place) (new : List NodeId) : Except PlaceError Forest :=
  let list := f.list place
  match list.getLast? with
  | none => .error .outOfRange
  | some last =>
    let f := (f.relink last new).setList place (list.dropLast ++ new ++ [last])
    .ok (f.unlink last)

/-- Replaces the node at a position by others. -/
def replaceAt (f : Forest) (place : Place) (position : Position) (new : List NodeId) :
    Except PlaceError Forest :=
  match position with
  | .fromStart index => f.replace place index new
  | .fromEnd 1 => f.replaceLast place new
  | .fromEnd distance =>
    let length := (f.list place).length
    if distance ≤ length then f.replace place (length - distance) new else .error .outOfRange

/-- Cuts a list off before a position. A position before the first node leaves nothing. -/
def truncateAt (f : Forest) (place : Place) : Position → Forest
  | .fromStart index => f.truncate place index
  | .fromEnd distance => f.truncate place ((f.list place).length - distance)

end Forest
end MarkupBinding
