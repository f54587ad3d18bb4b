import MarkupBinding.Forest.Basic

/-!
# Walks

A walk visits the nodes of a forest in document order while the visitor edits it. The visitor may
replace the visited node in its list; the walk then goes on at the same position, so the first
replacement is visited next. Otherwise it goes down into the node's children and on to the next
position. The lists still to be finished are kept on a stack, so depth is no obstacle.

A visitor can make a walk endless. The number of steps is therefore bounded, and an exhausted walk
is told apart from a finished one.
-/

namespace MarkupBinding

/-- A node at a position of a list. -/
structure Visit where
  node : NodeId
  place : Place
  index : Nat
deriving DecidableEq, Repr

/-- A position in a list that is being walked. -/
structure Cursor where
  place : Place
  index : Nat
deriving DecidableEq, Repr

/-- A forest under edit, and what the visitor keeps beside it. -/
structure Editing (σ : Type) where
  forest : Forest
  notes : σ

/-- What a visitor does at a node. It may give up with an error, but what it did before stays. -/
abbrev Visitor (ε σ : Type) := Visit → Editing σ → Editing σ × Option ε

/-- How a walk ends. -/
inductive Ending (ε : Type) where
  | finished
  | stopped (error : ε)
  | exhausted
deriving DecidableEq, Repr

namespace Forest

variable {ε σ : Type}

/-- Where a walk goes after a visit, given the positions to come back to. -/
def onward (f : Forest) (visit : Visit) (stack : List Cursor) : List Cursor :=
  if (f.list visit.place)[visit.index]? = some visit.node then
    let rest := ⟨visit.place, visit.index + 1⟩ :: stack
    if f.children visit.node = [] then rest else ⟨.childrenOf visit.node, 0⟩ :: rest
  else ⟨visit.place, visit.index⟩ :: stack

/-- Walks from the positions on the stack for at most the given number of steps. -/
def walkFrom (visitor : Visitor ε σ) : Nat → List Cursor → Editing σ → Editing σ × Ending ε
  | 0, _, s => (s, .exhausted)
  | _ + 1, [], s => (s, .finished)
  | steps + 1, cursor :: stack, s =>
    match (s.forest.list cursor.place)[cursor.index]? with
    | none => walkFrom visitor steps stack s
    | some node =>
      let visit : Visit := ⟨node, cursor.place, cursor.index⟩
      match visitor visit s with
      | (s, some error) => (s, .stopped error)
      | (s, none) => walkFrom visitor steps (s.forest.onward visit stack) s

/-- Walks the whole forest for at most the given number of steps. -/
def walk (visitor : Visitor ε σ) (steps : Nat) (s : Editing σ) : Editing σ × Ending ε :=
  walkFrom visitor steps [⟨.roots, 0⟩] s

end Forest
end MarkupBinding
