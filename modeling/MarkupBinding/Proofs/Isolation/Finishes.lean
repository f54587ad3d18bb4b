import Mathlib.Tactic.Ring
import MarkupBinding.Proofs.Isolation.Anchors
import MarkupBinding.Proofs.Isolation.Fragment

/-!
# The isolation walk ends

Each node that is still to be walked has a cost, and every move lowers the cost of all that is left.
A text costs the square of its weight, so the texts of a split, each of which is lighter and which
are no heavier together, cost less than the text that was split. A text that may still be wrapped
costs a little more than one that comes first in an element.

* `costAll_le`: what trees can cost.
* `cost_moved`: every move lowers the cost.
* `isolation_finishes`: the walk ends, within the steps that are allowed for it.
-/

namespace MarkupBinding

open Outline

namespace Tree

mutual

/-- What it costs to walk a tree; `first` says that it is the first child of an element. -/
def cost (first : Bool) : Tree → Nat
  | .data .text content => 40 * (content.weight * content.weight) + if first then 1 else 5
  | .data _ _ => 1
  | .element _ _ children => 2 + costAll true children

/-- What it costs to walk trees one after another. -/
def costAll (first : Bool) : List Tree → Nat
  | [] => 0
  | tree :: trees => cost first tree + costAll false trees

end

theorem cost_pos (first : Bool) (tree : Tree) : 0 < cost first tree := by
  cases tree with
  | element name attrs children =>
    rw [cost]
    omega
  | data kind content =>
    cases kind with
    | text =>
      rw [cost]
      split <;> omega
    | comment => exact Nat.one_pos
    | cdata => exact Nat.one_pos
    | directive => exact Nat.one_pos

theorem cost_le_cost_false (first : Bool) (tree : Tree) : cost first tree ≤ cost false tree := by
  cases tree with
  | element name attrs children => exact Nat.le_refl _
  | data kind content =>
    cases kind with
    | text =>
      rw [cost, cost]
      cases first <;> simp
    | comment => exact Nat.le_refl 1
    | cdata => exact Nat.le_refl 1
    | directive => exact Nat.le_refl 1

theorem cost_true_le (first : Bool) (tree : Tree) : cost true tree ≤ cost first tree := by
  cases tree with
  | element name attrs children => exact Nat.le_refl _
  | data kind content =>
    cases kind with
    | text =>
      rw [cost, cost]
      cases first <;> simp
    | comment => exact Nat.le_refl 1
    | cdata => exact Nat.le_refl 1
    | directive => exact Nat.le_refl 1

theorem costAll_le_costAll_false (first : Bool) (trees : List Tree) :
    costAll first trees ≤ costAll false trees := by
  cases trees with
  | nil => exact Nat.le_refl 0
  | cons tree trees => exact Nat.add_le_add_right (cost_le_cost_false first tree) _

theorem costAll_append_le (first : Bool) (trees others : List Tree) :
    costAll first (trees ++ others) ≤ costAll false trees + costAll false others := by
  induction trees generalizing first with
  | nil =>
    rw [List.nil_append, costAll, Nat.zero_add]
    exact costAll_le_costAll_false first others
  | cons tree trees ih =>
    have hrest := ih false
    have htree := cost_le_cost_false first tree
    rw [List.cons_append, costAll, costAll]
    omega

mutual

theorem cost_le {limit : Nat} (first : Bool) : ∀ (tree : Tree),
    AllTexts (Text.weight · ≤ limit) tree →
      cost first tree ≤ 40 * (limit * total Text.weight 0 tree) + 5 * total (fun _ => 1) 1 tree
  | .data .text content, h => by
    have hsquare : content.weight * content.weight ≤ limit * content.weight :=
      Nat.mul_le_mul_right _ h
    rw [cost, total, total]
    split <;> omega
  | .data .comment _, _ | .data .cdata _, _ | .data .directive _, _ => by
    show 1 ≤ 40 * (limit * 0) + 5 * 1
    omega
  | .element _ _ children, h => by
    have hchildren := costAll_le true children h
    rw [cost, total, total, Nat.zero_add]
    omega

/-- What trees can cost whose texts are not heavier than a limit. -/
theorem costAll_le {limit : Nat} (first : Bool) : ∀ (trees : List Tree),
    AllTextsAll (Text.weight · ≤ limit) trees →
      costAll first trees ≤
        40 * (limit * totalAll Text.weight 0 trees) + 5 * totalAll (fun _ => 1) 1 trees
  | [], _ => Nat.zero_le _
  | tree :: trees, h => by
    have htree := cost_le first tree h.1
    have htrees := costAll_le false trees h.2
    rw [costAll, totalAll, totalAll, Nat.mul_add limit]
    omega

end

end Tree

namespace Isolation

variable {options : Options} {protection : Protection} {f g : Forest} {a b : Stage}

/-! ## What is left to be walked -/

/-- Whether the next node is the first child of an element. -/
def atFirst : Trail → Bool
  | .top _ => false
  | .inside _ _ _ done => done.isEmpty

/-- What it costs to walk what comes after the list at the end of a trail. -/
def laterCost (f : Forest) : Trail → Nat
  | .top _ => 0
  | .inside outer _ later _ => Tree.costAll false (f.treesOf later) + 1 + laterCost f outer

/-- What it costs to walk on. -/
def Stage.cost (a : Stage) : Nat :=
  Tree.costAll (atFirst a.2.trail) (a.1.forest.treesOf a.2.todo) + 1 +
    laterCost a.1.forest a.2.trail

theorem atFirst_keep (t : Trail) (outline : Outline) : atFirst (t.keep outline) = false := by
  cases t with
  | top done => rfl
  | inside outer owner later done => simp [Trail.keep, atFirst]

theorem laterCost_keep (f : Forest) (t : Trail) (outline : Outline) :
    laterCost f (t.keep outline) = laterCost f t := by
  cases t <;> rfl

theorem laterCost_congr (t : Trail) (h : ∀ id ∈ t.otherNames, g.label? id = f.label? id) :
    laterCost g t = laterCost f t := by
  induction t with
  | top done => rfl
  | inside outer owner later done ih =>
    rw [Trail.otherNames] at h
    have hlater : g.treesOf later = f.treesOf later :=
      Forest.treesOf_congr later fun id hid => h id (by simp [hid])
    rw [laterCost, laterCost, hlater, ih fun id hid => h id (by simp [hid])]

/-- What stands behind a visited node costs what it did. -/
theorem cost_kept {t : Trail} {outline : Outline} {todo : List Outline}
    (h : f.Follows (t.fill (outline :: todo))) (hlabels : KeepsLabels f g) :
    g.treesOf todo = f.treesOf todo ∧ laterCost g t = laterCost f t := by
  have hnames : ∀ id ∈ namesAll todo ++ t.otherNames, g.label? id = f.label? id := by
    intro id hid
    refine hlabels id (h.inTable id ((t.perm_namesAll (outline :: todo)).symm.subset ?_))
    rw [namesAll, List.append_assoc]
    exact List.mem_append_right _ hid
  exact ⟨Forest.treesOf_congr todo fun id hid => hnames id (List.mem_append_left _ hid),
    laterCost_congr t fun id hid => hnames id (List.mem_append_right _ hid)⟩

theorem treeOf_of_text? {id : NodeId} {content : Text} (h : f.text? id = some content) :
    f.treeOf (.node id []) = .text content := by
  rw [Forest.treeOf, Forest.label?_of_text? h]

/-! ## Every move lowers the cost -/

/-- What comes of a split costs less than the text that was split. -/
theorem costAll_fragment_lt {content : Text} {found : Text.Found BindingInsert}
    (hfound : BindingInsert.find? options.binding content = some found)
    (hmixed : ¬ (found.before = [] ∧ found.after = [])) (first : Bool) (collapses : Bool) :
    Tree.costAll first (Tree.parse (fragment options found) collapses) <
      Tree.cost true (.text content) := by
  have hinner := Text.weight_pos (BindingInsert.markup_ne_nil_of_find? hfound)
  have hwhole := weight_content hfound
  have hrest : 0 < found.before.weight + found.after.weight := by
    by_contra hzero
    refine hmixed ⟨?_, ?_⟩
    · by_contra hne
      have hpos := Text.weight_pos hne
      omega
    · by_contra hne
      have hpos := Text.weight_pos hne
      omega
  obtain ⟨limit, hlimit⟩ : ∃ limit, content.weight = limit + 1 := by
    refine ⟨content.weight - 1, ?_⟩
    unfold inner at hwhole
    omega
  have hcost := Tree.costAll_le first _ (allTexts_fragment hfound hmixed hlimit collapses)
  have htexts : Tree.totalAll Text.weight 0 (Tree.parse (fragment options found) collapses) ≤
      limit + 1 := by
    have hle := totalAll_weight_parse_le (fragment options found) collapses
    have htokens := textWeightAll_fragment_le hfound
    omega
  have hnodes : Tree.totalAll (fun _ => 1) 1 (Tree.parse (fragment options found) collapses) ≤
      limit + 14 := by
    have hle := totalAll_one_parse_le (fragment options found) collapses
    have hfragment := weight_fragment hfound
    omega
  have hproduct := Nat.mul_le_mul_left limit htexts
  have hsquare : (limit + 1) * (limit + 1) = limit * (limit + 1) + (limit + 1) :=
    Nat.succ_mul limit (limit + 1)
  have hpositive : 1 ≤ limit := by
    unfold inner at hwhole
    omega
  rw [Tree.cost, hlimit, hsquare, if_pos rfl]
  omega

/-- A node with children is an element, which costs more than all of them. -/
theorem cost_treeOf_of_children {id : NodeId} {child : Outline} {children : List Outline}
    (h : f.children id = ids (child :: children)) (first : Bool) :
    Tree.cost first (f.treeOf (.node id (child :: children))) =
      2 + Tree.costAll true (f.treesOf (child :: children)) := by
  obtain ⟨name, attrs, hlabel⟩ : f.HasPlace (.childrenOf id) := by
    refine Forest.hasPlace_of_mem (?_ : child.name ∈ f.children id)
    rw [h]
    exact List.mem_cons_self
  rw [Forest.treeOf, hlabel]
  rfl

/-- Going into a node, or past it if nothing is below it, costs less than the node. -/
theorem cost_enter_lt {s : Editing Log} {t : Trail} {outline : Outline} {todo : List Outline}
    (h : s.forest.Follows (t.fill (outline :: todo))) :
    Stage.cost (s, Focus.enter t outline todo) < Stage.cost (s, ⟨t, outline :: todo⟩) := by
  have hpos := Tree.cost_pos (atFirst t) (s.forest.treeOf outline)
  have hchildren := h.children_eq
  obtain ⟨id, children⟩ := outline
  unfold Stage.cost
  simp only
  rw [Forest.treesOf, Tree.costAll]
  cases children with
  | nil =>
    unfold Focus.enter
    simp only [Outline.children]
    rw [atFirst_keep, laterCost_keep]
    omega
  | cons child children =>
    have helement := @cost_treeOf_of_children s.forest id child children hchildren (atFirst t)
    rw [helement]
    show Tree.costAll true (s.forest.treesOf (child :: children)) + 1 +
      (Tree.costAll false (s.forest.treesOf todo) + 1 + laterCost s.forest t) < _
    omega

theorem atFirst_eq_false {t : Trail} (h : t.place = .roots ∨ t.done ≠ []) : atFirst t = false := by
  cases t with
  | top done => rfl
  | inside outer owner later done =>
    rcases h with hplace | hdone
    · cases hplace
    · cases done with
      | nil => exact absurd rfl hdone
      | cons outline done => rfl

theorem cost_moved (hmoved : Moved options protection a b) (h : a.Follows) : b.cost < a.cost := by
  cases hmoved with
  | @left s outer owner later done =>
    unfold Stage.cost
    simp only
    rw [atFirst_keep, laterCost_keep, laterCost]
    omega
  | entered isolated => exact cost_enter_lt h
  | @split s s' t id todo new content found text first mixed labels bare gone follows trees =>
    obtain ⟨htodo, hlater⟩ : s'.forest.treesOf todo = s.forest.treesOf todo ∧
        laterCost s'.forest t = laterCost s.forest t := cost_kept h labels
    have hnew := costAll_fragment_lt first mixed false options.collapses
    have hall := Tree.costAll_append_le (atFirst t) (s'.forest.treesOf new) (s'.forest.treesOf todo)
    have htext := Tree.cost_true_le (atFirst t) (.text content)
    unfold Stage.cost
    simp only
    rw [Forest.treesOf_append, hlater, Forest.treesOf, Tree.costAll, treeOf_of_text? text]
    rw [trees, htodo] at hall
    rw [trees, htodo]
    omega
  | @wrapped s s' t id wrapper todo content text inside labels bare gone follows element =>
    obtain ⟨htodo, hlater⟩ : s'.forest.treesOf todo = s.forest.treesOf todo ∧
        laterCost s'.forest t = laterCost s.forest t := cost_kept h labels
    have hid : s'.forest.text? id = some content := by
      rw [Forest.text?_eq_of_label? (labels id ?_), text]
      exact Forest.lt_size_of_label? (Forest.label?_of_text? text)
    have hwrapper : s'.forest.treeOf (.node wrapper [.node id []]) =
        .element wrapperName [] [.text content] := by
      rw [Forest.treeOf, element, Forest.treesOf, treeOf_of_text? hid]
      rfl
    unfold Stage.cost
    simp only
    rw [hlater, Forest.treesOf, Forest.treesOf, hwrapper, treeOf_of_text? text, htodo,
      atFirst_eq_false inside]
    simp only [Tree.costAll, Tree.cost]
    simp
    omega

/-! ## The end of the walk -/

/-- A walk with more steps than it costs comes to its end, and always to the same. -/
theorem exists_finished (bound : Nat) : ∀ {a : Stage}, a.Follows → a.cost ≤ bound →
    ∃ s done, Moves options protection a (s, ⟨.top done, []⟩) ∧
      ∀ n > bound, walkOn options protection n a = (s, .finished) := by
  -- The induction is on the cost, which every move lowers.
  induction bound with
  | zero =>
    intro a _ hcost
    unfold Stage.cost at hcost
    omega
  | succ bound ih =>
    intro a h hcost
    rcases @exists_moved options protection a h with ⟨done, hdone⟩ | ⟨b, hmoved, hwalk⟩
    · obtain ⟨s, x⟩ := a
      obtain rfl : x = ⟨.top done, []⟩ := hdone
      refine ⟨s, done, .refl, ?_⟩
      intro n hn
      obtain ⟨m, rfl⟩ : ∃ m, n = m + 2 := ⟨n - 2, by omega⟩
      show Forest.walkFrom _ (m + 1 + 1) (Trail.top done).cursors s = _
      rw [Forest.walkFrom_end h.nests]
      rfl
    · have hlower := cost_moved hmoved h
      obtain ⟨s, done, hmoves, hend⟩ := ih (hmoved.follows h) (by omega)
      refine ⟨s, done, hmoves.head hmoved, ?_⟩
      intro n hn
      obtain ⟨m, rfl⟩ : ∃ m, n = m + 1 := ⟨n - 1, by omega⟩
      rw [hwalk]
      exact hend m (by omega)

/-- Where the walk begins. -/
def start (options : Options) (html : Text) (notes : Log) : Stage :=
  (⟨options.parse (options.protect html).1, notes⟩,
    ⟨.top [], Tree.outlineAll 0 (Tree.parse (options.protect html).1 options.collapses)⟩)

theorem isolating_start (options : Options) (html : Text) (notes : Log) :
    Isolating options (options.protect html).2 (start options html notes).1.forest
      (start options html notes).2 :=
  isolating_parse options (options.protect html).2 (options.protect html).1

/-- The steps that are allowed for a walk are more than it costs. -/
theorem cost_start_lt (options : Options) (html : Text) (notes : Log) :
    (start options html notes).cost < steps (options.protect html).1.length := by
  generalize hmarkup : (options.protect html).1 = markup
  have hcost : (start options html notes).cost =
      Tree.costAll false (Tree.parse markup options.collapses) + 1 := by
    unfold Stage.cost start
    simp only
    rw [hmarkup]
    show Tree.costAll false ((Forest.ofTrees _).treesOf _) + 1 + 0 = _
    rw [Forest.treesOf_ofTrees, Nat.add_zero]
  have htokens : Token.textWeightAll (Scanner.tokens markup) ≤ markup.weight :=
    Nat.le_trans (Token.textWeightAll_le_weightAll _) (Scanner.weightAll_tokens_le markup false)
  have hall := Tree.costAll_le false _ (allTexts_parse options.collapses htokens)
  have htexts := Nat.le_trans (totalAll_weight_parse_le markup options.collapses) htokens
  have hnodes := totalAll_one_parse_le markup options.collapses
  have hproduct := Nat.mul_le_mul_left markup.weight htexts
  have hweight := Text.weight_le markup
  have hsquare := Nat.mul_le_mul hweight hweight
  unfold steps
  simp only
  rw [hcost]
  generalize 14 * markup.length = size at hweight hsquare ⊢
  have hcube : (size + 16) * (size + 16) * (size + 16) =
      size * size * size + 48 * (size * size) + 768 * size + 4096 := by ring
  rw [hcube]
  omega

end Isolation

/-- **The isolation pass ends.** For every document there are finitely many steps after which the walk
is finished, and the steps that are allowed for it are enough: with more of them it ends the same. -/
theorem Options.isolation_finishes (options : Options) (html : Text) (notes : Log) :
    ∃ s, ∀ steps ≥ Isolation.steps (options.protect html).1.length,
      options.isolation html notes steps = (s, .finished) := by
  have hfollows : (Isolation.start options html notes).Follows :=
    (Isolation.isolating_start options html notes).follows
  obtain ⟨s, done, _, hend⟩ := @Isolation.exists_finished options (options.protect html).2 _ _
    hfollows (Nat.le_refl _)
  refine ⟨s, fun steps hsteps => hend steps ?_⟩
  exact Nat.lt_of_lt_of_le (Isolation.cost_start_lt options html notes) hsteps

end MarkupBinding
