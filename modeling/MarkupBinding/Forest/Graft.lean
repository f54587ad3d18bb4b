import MarkupBinding.Forest.Basic

/-!
# Trees in a forest

Trees take their place in a linked forest, and are read off it again. A tree fills consecutive
entries of the table, each node before its children, so where every node goes and what its links are
follows from the sizes of the trees before it.
-/

namespace MarkupBinding

namespace Tree

mutual

/-- The number of nodes of a tree. -/
def size : Tree → Nat
  | .element _ _ children => sizeAll children + 1
  | .data _ _ => 1

/-- The number of nodes of some trees. -/
def sizeAll : List Tree → Nat
  | [] => 0
  | tree :: trees => size tree + sizeAll trees

end

/-- The names of trees that are laid out one after another. -/
def idsFrom (start : NodeId) : List Tree → List NodeId
  | [] => []
  | tree :: trees => start :: idsFrom (start + size tree) trees

mutual

/-- The nodes of a tree that is laid out from `start` and has the given links. -/
def layout (start : NodeId) (links : Links) : Tree → List Node
  | .data kind content => [⟨.data kind content, links⟩]
  | .element name attrs children =>
    ⟨.element name attrs (idsFrom (start + 1) children), links⟩ ::
      layoutAll (start + 1) (some start) none children

/-- The nodes of neighbouring trees that are laid out from `start`. -/
def layoutAll (start : NodeId) (parent previous : Option NodeId) : List Tree → List Node
  | [] => []
  | tree :: trees =>
    let after := start + size tree
    let next := if trees.isEmpty then none else some after
    layout start { parent, previous, next } tree ++ layoutAll after parent (some start) trees

end

end Tree

namespace Forest

/-- Puts trees into the table. They are linked with each other but at no place yet. -/
def graft (f : Forest) (trees : List Tree) : List NodeId × Forest :=
  let start := f.nodes.size
  (Tree.idsFrom start trees,
    { f with nodes := f.nodes ++ (Tree.layoutAll start none none trees).toArray })

/-- The forest that holds just these trees. -/
def ofTrees (trees : List Tree) : Forest :=
  let (roots, f) := graft {} trees
  { f with roots }

/-- Why no tree can be read off a forest. -/
inductive ViewError where
  /-- A node of a kind of its own is in the way. -/
  | bare (label : Text)
  /-- A name leads out of the table, or a node lies below itself. -/
  | dangling
deriving DecidableEq, Repr

/-- The tree below a node that is at most `depth` levels deep. -/
def treeAt (f : Forest) : Nat → NodeId → Except ViewError Tree
  | 0, _ => .error .dangling
  | depth + 1, id =>
    match f.content? id with
    | none => .error .dangling
    | some (.bare label) => .error (.bare label)
    | some (.data kind content) => .ok (.data kind content)
    | some (.element name attrs children) => do
      let trees ← children.mapM (treeAt f depth)
      pure (.element name attrs trees)

/-- The trees below some nodes. No path is longer than the table, unless it runs in a circle. -/
def treesAt (f : Forest) (ids : List NodeId) : Except ViewError (List Tree) :=
  ids.mapM (f.treeAt (f.nodes.size + 1))

/-- The trees of a forest. -/
def trees (f : Forest) : Except ViewError (List Tree) := f.treesAt f.roots

/-- All entries of the root list and the child lists. -/
def entryCount (f : Forest) : Nat :=
  f.nodes.foldl (fun count node =>
    match node.content with
    | .element _ _ children => count + children.length
    | _ => count) f.roots.length

/-- Lists nodes and what lies below them in document order, each once; `seen` holds those that are
listed already, the last one first. -/
def listFrom (f : Forest) : Nat → List NodeId → List NodeId → List NodeId
  | 0, _, seen => seen
  | _, [], seen => seen
  | fuel + 1, id :: ids, seen =>
    if seen.contains id then f.listFrom fuel ids seen
    else f.listFrom fuel (f.children id ++ ids) (id :: seen)

/-- The nodes that can be reached from the roots, in document order, each once. -/
def reachable (f : Forest) : List NodeId := (f.listFrom (f.entryCount + 1) f.roots []).reverse

end Forest
end MarkupBinding
