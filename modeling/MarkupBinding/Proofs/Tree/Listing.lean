import MarkupBinding.Forest.Basic
import MarkupBinding.Proofs.Tree.Backed

/-!
# Every token has its place

A builder keeps what it takes in: the nodes of its trees, listed in document order, are those that the
tokens stand for, and each lies inside the elements that were open when its token came. Texts are
compared by the runs that they form, since text is merged with the text before it.

The open elements are the last root, its last child and so on, so a new node goes to the very end of
the listing (`listing_insert`), and closing elements changes nothing in it (`listing_closeMany`).
Texts that are listed one after another are joined (`joined`), which forgets how a run was cut.

* `numbered_of_mem_listingAll`: the number of an element is its place in the listing.
* `listing_absorb`: what one token adds to the listing.
* `trees_list_tokens`: the trees list what the tokens stand for.
-/

namespace MarkupBinding

/-! ## Listings -/

/-- A node in a listing: where it stands, and what it is, children apart. -/
structure Listed (κ : Type) where
  spot : κ
  label : Content
deriving DecidableEq, Repr

namespace Listed

variable {κ ι : Type}

/-- The same node with less said, or more, about where it stands. -/
def relocate (f : κ → ι) (node : Listed κ) : Listed ι := ⟨f node.spot, node.label⟩

/-- Puts text before a listing. Empty text is left out, and text at the spot of the text behind it
is joined with that. -/
def prependText [DecidableEq κ] (spot : κ) (content : Text) (rest : List (Listed κ)) :
    List (Listed κ) :=
  if content = [] then rest
  else
    match rest with
    | ⟨next, .data .text more⟩ :: others =>
      if next = spot then ⟨spot, .data .text (content ++ more)⟩ :: others
      else ⟨spot, .data .text content⟩ :: rest
    | _ => ⟨spot, .data .text content⟩ :: rest

/-- Puts a node before a listing. -/
def prepend [DecidableEq κ] : Listed κ → List (Listed κ) → List (Listed κ)
  | ⟨spot, .data .text content⟩, rest => prependText spot content rest
  | node, rest => node :: rest

/-- A listing with texts at one spot joined, and without empty ones. -/
def joined [DecidableEq κ] (nodes : List (Listed κ)) : List (Listed κ) := nodes.foldr prepend []

variable [DecidableEq κ] [DecidableEq ι]

theorem prependText_nil (spot : κ) (rest : List (Listed κ)) : prependText spot [] rest = rest :=
  if_pos rfl

theorem prependText_same {spot : κ} {content : Text} (h : content ≠ []) (more : Text)
    (others : List (Listed κ)) :
    prependText spot content (⟨spot, .data .text more⟩ :: others) =
      ⟨spot, .data .text (content ++ more)⟩ :: others := by
  simp only [prependText, if_neg h, if_pos]

/-- A listing begins with text at a spot, or all text that comes there stands for itself. -/
theorem prependText_cases (spot : κ) (rest : List (Listed κ)) :
    (∃ more others, rest = ⟨spot, .data .text more⟩ :: others) ∨
      ∀ content, content ≠ [] →
        prependText spot content rest = ⟨spot, .data .text content⟩ :: rest := by
  by_cases hsame : ∃ more others, rest = ⟨spot, .data .text more⟩ :: others
  · exact .inl hsame
  · refine .inr fun content hcontent => ?_
    unfold prependText
    rw [if_neg hcontent]
    split
    · next next more others =>
      exact if_neg fun hspot => hsame ⟨more, others, by rw [hspot]⟩
    · rfl

/-- Text that is put before a listing in two pieces. -/
theorem prependText_append (spot : κ) (first second : Text) (rest : List (Listed κ)) :
    prependText spot first (prependText spot second rest) =
      prependText spot (first ++ second) rest := by
  by_cases hfirst : first = []
  · rw [hfirst, prependText_nil, List.nil_append]
  by_cases hsecond : second = []
  · rw [hsecond, prependText_nil, List.append_nil]
  have hboth : first ++ second ≠ [] := fun h => hfirst (List.append_eq_nil_iff.1 h).1
  obtain ⟨more, others, rfl⟩ | halone := prependText_cases spot rest
  · rw [prependText_same hsecond, prependText_same hfirst, prependText_same hboth,
      List.append_assoc]
  · rw [halone second hsecond, prependText_same hfirst, halone _ hboth]

/-- A node may be put before a listing before or after that listing is put before another. -/
theorem foldr_prepend (f : κ → ι) (node : Listed κ) (nodes : List (Listed κ))
    (rest : List (Listed ι)) :
    (prepend node nodes).foldr (fun node => prepend (node.relocate f)) rest =
      prepend (node.relocate f) (nodes.foldr (fun node => prepend (node.relocate f)) rest) := by
  by_cases htext : ∃ spot content, node = ⟨spot, .data .text content⟩
  · obtain ⟨spot, content, rfl⟩ := htext
    show (prependText spot content nodes).foldr _ rest = prependText (f spot) content _
    by_cases hcontent : content = []
    · rw [hcontent, prependText_nil, prependText_nil]
    obtain ⟨more, others, rfl⟩ | halone := prependText_cases spot nodes
    · rw [prependText_same hcontent, List.foldr_cons, List.foldr_cons]
      exact (prependText_append _ content more _).symm
    · rw [halone content hcontent]
      rfl
  · have hprepend : prepend node nodes = node :: nodes := by
      unfold prepend
      split
      · exact absurd ⟨_, _, rfl⟩ htext
      · rfl
    rw [hprepend, List.foldr_cons]

/-- Joining texts loses nothing of what is listed. -/
theorem foldr_joined (f : κ → ι) (nodes : List (Listed κ)) (rest : List (Listed ι)) :
    (joined nodes).foldr (fun node => prepend (node.relocate f)) rest =
      nodes.foldr (fun node => prepend (node.relocate f)) rest := by
  induction nodes with
  | nil => rfl
  | cons node nodes ih =>
    show (prepend node (joined nodes)).foldr _ rest = _
    rw [foldr_prepend, ih, List.foldr_cons]

/-- Listings that are the same once texts are joined stay so when they go on in the same way. -/
theorem joined_append_congr {nodes nodes' : List (Listed κ)} (h : joined nodes = joined nodes')
    (rest : List (Listed κ)) : joined (nodes ++ rest) = joined (nodes' ++ rest) := by
  have happend : ∀ nodes : List (Listed κ),
      joined (nodes ++ rest) = (joined nodes).foldr prepend (joined rest) := by
    intro nodes
    rw [joined, List.foldr_append]
    exact (foldr_joined id nodes (joined rest)).symm
  rw [happend, happend, h]

/-- Listings that are the same once texts are joined stay so when less is said about the spots. -/
theorem joined_map_congr {nodes nodes' : List (Listed κ)} (h : joined nodes = joined nodes')
    (f : κ → ι) : joined (nodes.map (relocate f)) = joined (nodes'.map (relocate f)) := by
  have hmap : ∀ nodes : List (Listed κ), joined (nodes.map (relocate f)) =
      (joined nodes).foldr (fun node => prepend (node.relocate f)) [] := by
    intro nodes
    rw [foldr_joined, joined, List.foldr_map]
  rw [hmap, hmap, h]

/-- Whether a node counts when nodes other than text are numbered. -/
def counts (node : Listed κ) : Bool :=
  match node.label with
  | .data .text _ => false
  | _ => true

end Listed

/-- The elements around a node, the outermost first. Each is known by its name and by its number,
which says how many nodes other than text come before it. -/
abbrev Ancestors := List (Nat × Text)

namespace Tree

/-- The number of nodes other than text. -/
abbrev others (trees : List Tree) : Nat := totalAll (fun _ => 0) 1 trees

mutual

/-- A tree in document order, `before` nodes other than text coming before it. -/
def listing (around : Ancestors) (before : Nat) : Tree → List (Listed Ancestors)
  | .data kind content => [⟨around, .data kind content⟩]
  | .element name attrs children =>
    ⟨around, .element name attrs []⟩ ::
      listingAll (around ++ [(before, name)]) (before + 1) children

/-- Trees in document order. -/
def listingAll (around : Ancestors) (before : Nat) : List Tree → List (Listed Ancestors)
  | [] => []
  | tree :: trees =>
    listing around before tree ++ listingAll around (before + others [tree]) trees

end

theorem listingAll_append (around : Ancestors) (before : Nat) (first second : List Tree) :
    listingAll around before (first ++ second) =
      listingAll around before first ++ listingAll around (before + others first) second := by
  induction first generalizing before with
  | nil => rfl
  | cons tree first ih =>
    have hothers : others (tree :: first) = others [tree] + others first := by
      simp only [others, totalAll]
      omega
    rw [List.cons_append, listingAll, listingAll, ih, hothers, List.append_assoc, Nat.add_assoc]

theorem listingAll_singleton (around : Ancestors) (before : Nat) (tree : Tree) :
    listingAll around before [tree] = listing around before tree := by
  rw [listingAll, listingAll, List.append_nil]

/-! ### Numbers of elements -/

mutual

theorem length_filter_counts (around : Ancestors) (before : Nat) :
    ∀ tree : Tree, ((listing around before tree).filter Listed.counts).length = others [tree]
  | .data kind content => by
    cases kind <;> rfl
  | .element name attrs children => by
    have hchildren :=
      length_filterAll_counts (around ++ [(before, name)]) (before + 1) children
    rw [listing, List.filter_cons_of_pos rfl, List.length_cons, hchildren]
    simp only [others, totalAll, total]
    omega

theorem length_filterAll_counts (around : Ancestors) (before : Nat) :
    ∀ trees : List Tree,
      ((listingAll around before trees).filter Listed.counts).length = others trees
  | [] => rfl
  | tree :: trees => by
    rw [listingAll, List.filter_append, List.length_append, length_filter_counts around before tree,
      length_filterAll_counts around _ trees]
    simp only [others, totalAll]
    omega

end

/-- An element is listed in the place that its number says, when `before` numbers are given. -/
def NumberedIn (nodes : List (Listed Ancestors)) (before : Nat) (ancestor : Nat × Text) : Prop :=
  ∃ i spot attrs, ancestor.1 = before + i ∧
    (nodes.filter Listed.counts)[i]? = some ⟨spot, .element ancestor.2 attrs []⟩

mutual

/-- An element around a listed node is around the whole listing, or is the one listed in the place
that its number says. -/
theorem numbered_of_mem_listing {around : Ancestors} {before : Nat} {node : Listed Ancestors}
    {ancestor : Nat × Text} (hancestor : ancestor ∈ node.spot) :
    ∀ tree : Tree, node ∈ listing around before tree →
      ancestor ∈ around ∨ NumberedIn (listing around before tree) before ancestor
  | .data kind content, hnode => by
    rw [listing, List.mem_singleton] at hnode
    exact .inl (by rwa [hnode] at hancestor)
  | .element name attrs children, hnode => by
    rw [listing] at hnode ⊢
    rcases List.mem_cons.1 hnode with rfl | hnode
    · exact .inl hancestor
    · rcases numbered_of_mem_listingAll hancestor children hnode with haround | hnumbered
      · rcases List.mem_append.1 haround with haround | hself
        · exact .inl haround
        · exact .inr ⟨0, around, attrs, by rw [List.mem_singleton.1 hself]; rfl,
            by rw [List.mem_singleton.1 hself, List.filter_cons_of_pos rfl]; rfl⟩
      · obtain ⟨i, spot, attrs', hnumber, hlisted⟩ := hnumbered
        exact .inr ⟨i + 1, spot, attrs', by omega,
          by rw [List.filter_cons_of_pos rfl, List.getElem?_cons_succ, hlisted]⟩

theorem numbered_of_mem_listingAll {around : Ancestors} {before : Nat} {node : Listed Ancestors}
    {ancestor : Nat × Text} (hancestor : ancestor ∈ node.spot) :
    ∀ trees : List Tree, node ∈ listingAll around before trees →
      ancestor ∈ around ∨ NumberedIn (listingAll around before trees) before ancestor
  | [], hnode => absurd hnode List.not_mem_nil
  | tree :: trees, hnode => by
    have hlength := length_filter_counts around before tree
    rw [listingAll] at hnode ⊢
    rcases List.mem_append.1 hnode with hnode | hnode
    · rcases numbered_of_mem_listing hancestor tree hnode with haround | hnumbered
      · exact .inl haround
      · obtain ⟨i, spot, attrs, hnumber, hlisted⟩ := hnumbered
        exact .inr ⟨i, spot, attrs, hnumber,
          by rw [List.filter_append, List.getElem?_append_left
            (List.getElem?_eq_some_iff.1 hlisted).1, hlisted]⟩
    · rcases numbered_of_mem_listingAll hancestor trees hnode with haround | hnumbered
      · exact .inl haround
      · obtain ⟨i, spot, attrs, hnumber, hlisted⟩ := hnumbered
        refine .inr ⟨others [tree] + i, spot, attrs, by omega, ?_⟩
        rw [List.filter_append, List.getElem?_append_right (by omega), hlength,
          Nat.add_sub_cancel_left, hlisted]

end

end Tree

namespace Builder

/-! ## What tokens stand for -/

/-- Open elements, the innermost one first, as those that a node is added to. -/
def ancestorsFrom (roots : List Tree) : List Frame → Ancestors
  | [] => []
  | frame :: opened => ancestorsFrom roots opened ++ [(others { roots, opened }, frame.name)]

/-- The open elements. -/
def ancestors (b : Builder) : Ancestors := ancestorsFrom b.roots b.opened

/-- An end tag of this name in lower case stands for an empty element: it is that of a line break,
or that of a paragraph while none is open. -/
def StandsAlone (b : Builder) (lowered : Text) : Prop :=
  lowered = "br".toList ∨
    lowered = "p".toList ∧ ∀ frame ∈ b.opened, frame.name.lowercase ≠ "p".toList

instance (b : Builder) (lowered : Text) : Decidable (b.StandsAlone lowered) :=
  inferInstanceAs (Decidable (_ ∨ _))

/-- The node that a token stands for. -/
def added? (b : Builder) : Token → Option Content
  | .startTag name attrs => some (.element name attrs [])
  | .endTag name _ =>
    if b.StandsAlone name.lowercase then some (.element name [] []) else none
  | .data kind content => some (.data kind content)
  | .endOfInput => none

/-- The builder when the node of a token is added: a start tag has ended some elements by then. -/
def readyFor (b : Builder) : Token → Builder
  | .startTag name _ => b.closeImplied name.lowercase
  | _ => b

/-- The node that a token stands for, inside the elements that are open when it is added. -/
def listed (b : Builder) (token : Token) : List (Listed Ancestors) :=
  (b.added? token).toList.map fun label => ⟨(b.readyFor token).ancestors, label⟩

/-- The nodes that tokens stand for. -/
def listedAll (b : Builder) : List Token → List (Listed Ancestors)
  | [] => []
  | token :: tokens => b.listed token ++ (b.absorb token).listedAll tokens

/-! ## The listing of a builder -/

/-- Trees that are being built, with more trees put where the next node will go. -/
def fill (roots : List Tree) : List Frame → List Tree → List Tree
  | [], more => roots.reverse ++ more
  | frame :: opened, more =>
    fill roots opened [.element frame.name frame.attrs (frame.children.reverse ++ more)]

/-- The trees that a builder holds, with more trees put where the next node will go. -/
def filled (b : Builder) (more : List Tree) : List Tree := fill b.roots b.opened more

/-- The nodes that a builder holds, in document order. -/
def listing (b : Builder) : List (Listed Ancestors) := Tree.listingAll [] 0 (b.filled [])

theorem filled_insert (b : Builder) (tree : Tree) (more : List Tree) :
    (b.insert tree).filled more = b.filled (tree :: more) := by
  obtain ⟨collapses, roots, opened⟩ := b
  cases opened with
  | nil =>
    show (tree :: roots).reverse ++ more = roots.reverse ++ tree :: more
    rw [List.reverse_cons, List.append_assoc, List.singleton_append]
  | cons frame opened =>
    show fill roots opened
      [.element frame.name frame.attrs ((tree :: frame.children).reverse ++ more)] = _
    rw [List.reverse_cons, List.append_assoc, List.singleton_append]
    rfl

/-- An open element stands where it will stand when it is closed. -/
theorem filled_close (b : Builder) : b.close.filled [] = b.filled [] := by
  obtain ⟨collapses, roots, opened⟩ := b
  cases opened with
  | nil => rfl
  | cons frame opened =>
    show (insert ⟨collapses, roots, opened⟩ frame.tree).filled [] = fill roots opened _
    rw [filled_insert, List.append_nil]
    rfl

theorem filled_closeMany (n : Nat) (b : Builder) : (closeMany n b).filled [] = b.filled [] :=
  closeMany_induction (fun next h => (filled_close next).trans h) n rfl

/-- The trees of a builder are those that it holds. -/
theorem filled_nil (b : Builder) : b.filled [] = b.trees := by
  have hclosed : b.closeAll.filled [] = b.filled [] := filled_closeMany _ b
  rw [← hclosed, filled, opened_closeAll]
  exact List.append_nil _

theorem listing_closeMany (n : Nat) (b : Builder) : (closeMany n b).listing = b.listing :=
  congrArg (Tree.listingAll [] 0) (filled_closeMany n b)

theorem listingAll_trees (b : Builder) : Tree.listingAll [] 0 b.trees = b.listing :=
  congrArg (Tree.listingAll [] 0) (filled_nil b).symm

/-- What is put where the next node will go is listed behind all that a builder holds, and inside
the open elements. -/
theorem listingAll_fill (roots : List Tree) (opened : List Frame) (more : List Tree) :
    Tree.listingAll [] 0 (fill roots opened more) =
      Tree.listingAll [] 0 (fill roots opened []) ++
        Tree.listingAll (ancestorsFrom roots opened) (others { roots, opened }) more := by
  induction opened generalizing more with
  | nil =>
    have hothers : others { roots } = Tree.others roots.reverse := by
      simp only [others, sum, List.map_nil, List.sum_nil, Nat.add_zero, Tree.others,
        Tree.totalAll_eq_sumAll, Tree.sumAll_reverse]
    rw [hothers, ancestorsFrom, fill, fill, Tree.listingAll_append, List.append_nil, Nat.zero_add]
  | cons frame opened ih =>
    have hothers : others { roots, opened := frame :: opened } =
        others { roots, opened } + 1 + Tree.others frame.children.reverse := by
      simp only [others, sum, List.map_cons, List.sum_cons, Tree.others, Tree.sumAll_reverse,
        Tree.totalAll_eq_sumAll, Content.weigh]
      omega
    have hframe : ∀ more, Tree.listingAll [] 0 (fill roots (frame :: opened) more) = _ :=
      fun more => ih [.element frame.name frame.attrs (frame.children.reverse ++ more)]
    rw [hframe, hframe, List.append_nil, Tree.listingAll_singleton, Tree.listingAll_singleton,
      Tree.listing, Tree.listing, Tree.listingAll_append, List.append_assoc, List.cons_append,
      hothers]
    rfl

/-- A new node is listed last. -/
theorem listing_insert (b : Builder) (tree : Tree) :
    (b.insert tree).listing = b.listing ++ tree.listing b.ancestors b.others := by
  obtain ⟨collapses, roots, opened⟩ := b
  rw [listing, filled_insert]
  show Tree.listingAll [] 0 (fill roots opened [tree]) = _
  rw [listingAll_fill, Tree.listingAll_singleton]
  rfl

/-- An element that is opened is listed last, whatever comes into it later. -/
theorem listing_open (b : Builder) (name : Text) (attrs : Attributes) :
    listing { b with opened := { name, attrs } :: b.opened } =
      b.listing ++ [⟨b.ancestors, .element name attrs []⟩] := by
  have hempty : Tree.listing b.ancestors b.others (.element name attrs []) =
      [⟨b.ancestors, .element name attrs []⟩] := by
    rw [Tree.listing, Tree.listingAll]
  rw [← hempty, ← listing_insert, listing, listing, filled_insert]
  rfl

/-! ## One token, all tokens -/

@[simp] theorem ancestors_withSiblings (b : Builder) (trees : List Tree) :
    (b.withSiblings trees).ancestors = b.ancestors := by
  obtain ⟨collapses, roots, opened⟩ := b
  cases opened <;> rfl

/-- Text is listed last, as part of the text that it is merged with. -/
theorem listing_insertText {b : Builder} (hkept : b.collapses = false) (content : Text) :
    Listed.joined (b.insertText content).listing =
      Listed.joined (b.listing ++ [⟨b.ancestors, .data .text content⟩]) := by
  have hcontent : ∀ content, b.kept content = content := by
    intro content
    rw [kept, hkept]
    rfl
  unfold insertText
  simp only [hcontent]
  split
  · next last before hs =>
    have hinsert : ∀ content, b.withSiblings (.text content :: before) =
        (b.withSiblings before).insert (.text content) := by
      intro content
      rw [insert, withSiblings_withSiblings, siblings_withSiblings]
    have hlast : b = (b.withSiblings before).insert (.text last) := by
      rw [← hinsert, ← hs, withSiblings_siblings]
    have hlisting : b.listing =
        (b.withSiblings before).listing ++ [⟨b.ancestors, .data .text last⟩] := by
      conv_lhs => rw [hlast]
      rw [listing_insert, ancestors_withSiblings, Tree.listing]
    rw [hinsert, listing_insert, ancestors_withSiblings, Tree.listing, hlisting, List.append_assoc,
      Listed.joined, List.foldr_append, Listed.joined, List.foldr_append]
    congr 1
    exact (Listed.prependText_append b.ancestors last content []).symm
  · rw [listing_insert, Tree.listing]

/-- An end tag closes elements, or stands for an empty element. -/
theorem listing_endTag (b : Builder) (name : Text) (attrs : Attributes) :
    (b.endTag name).listing = b.listing ++ b.listed (.endTag name attrs) := by
  have hinsert : (b.insert (.element name [] [])).listing =
      b.listing ++ [⟨b.ancestors, .element name [] []⟩] := by
    rw [listing_insert, Tree.listing, Tree.listingAll]
  have hvoid : Element.isVoid "br".toList = true ∧ Element.isVoid "p".toList = false := by
    decide
  unfold endTag listed added?
  simp only
  by_cases hbr : name.lowercase = "br".toList
  · rw [if_pos (hbr ▸ hvoid.1), if_pos hbr, if_pos (.inl hbr)]
    exact hinsert
  have hother : name.lowercase ≠ "p".toList → ¬ b.StandsAlone name.lowercase := by
    rintro hp (h | ⟨h, _⟩)
    · exact hbr h
    · exact hp h
  -- The name of a line break is that of a void element, the name of a paragraph is not.
  by_cases hlowered : Element.isVoid name.lowercase = true
  · have hp : name.lowercase ≠ "p".toList := by
      intro h
      rw [h, hvoid.2] at hlowered
      cases hlowered
    rw [if_pos hlowered, if_neg hbr, if_neg (hother hp)]
    exact (List.append_nil _).symm
  · rw [if_neg hlowered]
    split
    · next i hfind =>
      have hopen : ¬ b.StandsAlone name.lowercase := by
        obtain ⟨hlt, hfound, _⟩ := List.findIdx?_eq_some_iff_getElem.1 hfind
        have hname := of_decide_eq_true hfound
        rintro (h | ⟨h, hnone⟩)
        · exact hbr h
        · exact hnone _ (List.getElem_mem hlt) (hname.trans h)
      rw [if_neg hopen, listing_closeMany]
      exact (List.append_nil _).symm
    · next hfind =>
      have hnone : ∀ frame ∈ b.opened, frame.name.lowercase ≠ name.lowercase :=
        fun frame hframe => of_decide_eq_false (List.findIdx?_eq_none_iff.1 hfind frame hframe)
      by_cases hp : name.lowercase = "p".toList
      · rw [if_pos hp, if_pos (.inr ⟨hp, hp ▸ hnone⟩)]
        exact hinsert
      · rw [if_neg hp, if_neg (hother hp)]
        exact (List.append_nil _).symm

/-- What one token adds to the listing. -/
theorem listing_absorb {b : Builder} (hkept : b.collapses = false) {token : Token}
    (hname : ∀ attrs, token ≠ .startTag [] attrs) :
    Listed.joined (b.absorb token).listing = Listed.joined (b.listing ++ b.listed token) := by
  cases token with
  | startTag name attrs =>
    have hname : name ≠ [] := fun h => hname attrs (by rw [h])
    have hclosed : (b.closeImplied name.lowercase).listing = b.listing := listing_closeMany _ b
    refine congrArg Listed.joined ?_
    show _ = b.listing ++ [⟨(b.closeImplied name.lowercase).ancestors, .element name attrs []⟩]
    rw [← hclosed]
    unfold absorb accept startTag
    simp only
    rw [if_neg hname]
    by_cases hvoid : Element.isVoid name.lowercase = true
    · rw [if_pos hvoid]
      refine (listing_insert _ _).trans ?_
      rw [Tree.listing, Tree.listingAll]
    · rw [if_neg hvoid]
      exact listing_open _ name attrs
  | endTag name attrs => exact congrArg Listed.joined (listing_endTag b name attrs)
  | data kind content =>
    cases kind with
    | text => exact listing_insertText hkept content
    | comment => exact congrArg Listed.joined (listing_insert b _)
    | cdata => exact congrArg Listed.joined (listing_insert b _)
    | directive => exact congrArg Listed.joined (listing_insert b _)
  | endOfInput =>
    refine congrArg Listed.joined ?_
    rw [listed, added?, Option.toList_none, List.map_nil, List.append_nil]
    exact listing_closeMany _ b

/-- What tokens add to the listing. -/
theorem listing_absorbAll {b : Builder} (hkept : b.collapses = false) {tokens : List Token}
    (hnames : ∀ attrs, .startTag [] attrs ∉ tokens) :
    Listed.joined (b.absorbAll tokens).listing = Listed.joined (b.listing ++ b.listedAll tokens) := by
  induction tokens generalizing b with
  | nil => rw [listedAll, List.append_nil]; rfl
  | cons token tokens ih =>
    have htoken : ∀ attrs, token ≠ .startTag [] attrs :=
      fun attrs h => hnames attrs (h ▸ List.mem_cons_self)
    have hrest : ∀ attrs, .startTag [] attrs ∉ tokens :=
      fun attrs h => hnames attrs (List.mem_cons_of_mem token h)
    rw [absorbAll_cons, ih ((collapses_absorb b token).trans hkept) hrest, listedAll,
      ← List.append_assoc]
    exact Listed.joined_append_congr (listing_absorb hkept htoken) _

/-- Only a start tag without a name is refused. -/
theorem accept_eq_absorb (b : Builder) {token : Token}
    (hname : ∀ attrs, token ≠ .startTag [] attrs) : b.accept token = .ok (b.absorb token) := by
  have haccept : ∃ next, b.accept token = .ok next := by
    cases token with
    | startTag name attrs =>
      have hname : name ≠ [] := fun h => hname attrs (by rw [h])
      unfold accept startTag
      simp only
      rw [if_neg hname]
      split <;> exact ⟨_, rfl⟩
    | endTag name attrs => exact ⟨_, rfl⟩
    | data kind content => cases kind <;> exact ⟨_, rfl⟩
    | endOfInput => exact ⟨_, rfl⟩
  obtain ⟨next, hnext⟩ := haccept
  rw [absorb, hnext]

theorem foldlM_accept (b : Builder) {tokens : List Token}
    (hnames : ∀ attrs, .startTag [] attrs ∉ tokens) :
    tokens.foldlM accept b = .ok (b.absorbAll tokens) := by
  induction tokens generalizing b with
  | nil => rfl
  | cons token tokens ih =>
    have htoken : ∀ attrs, token ≠ .startTag [] attrs :=
      fun attrs h => hnames attrs (h ▸ List.mem_cons_self)
    have hrest : ∀ attrs, .startTag [] attrs ∉ tokens :=
      fun attrs h => hnames attrs (List.mem_cons_of_mem token h)
    rw [List.foldlM_cons, accept_eq_absorb b htoken]
    exact ih (b.absorb token) hrest

/-- A builder that keeps texts as they are keeps every token, once, in order and at the right place:
its trees list what the tokens stand for, and each node lies inside the elements that were open when
it was added. -/
theorem trees_list_tokens (tokens : List Token) (hnames : ∀ attrs, .startTag [] attrs ∉ tokens) :
    ∃ b, tokens.foldlM accept {} = .ok b ∧
      Listed.joined ((Tree.listingAll [] 0 b.trees).map (Listed.relocate fun _ => ())) =
        Listed.joined ((listedAll {} tokens).map (Listed.relocate fun _ => ())) ∧
      Listed.joined (Tree.listingAll [] 0 b.trees) = Listed.joined (listedAll {} tokens) := by
  have hlisted : Listed.joined (Tree.listingAll [] 0 (absorbAll {} tokens).trees) =
      Listed.joined (listedAll {} tokens) := by
    rw [listingAll_trees]
    exact listing_absorbAll rfl hnames
  exact ⟨_, foldlM_accept {} hnames, Listed.joined_map_congr hlisted _, hlisted⟩

/-- Paragraphs of which the second ends the first, end tags that close nothing, and the end of the
input before the last tokens. -/
def strayTokens : List Token :=
  [.startTag "p".toList [], .data .text "a".toList, .endTag "x".toList [],
    .data .text "b".toList, .startTag "P".toList [], .endTag "br".toList [], .endOfInput,
    .endTag "p".toList [], .data .text "c".toList]

theorem trees_list_strayTokens :
    ∃ b, strayTokens.foldlM accept {} = .ok b ∧
      Listed.joined (Tree.listingAll [] 0 b.trees) =
        [⟨[], .element "p".toList [] []⟩,
          ⟨[(0, "p".toList)], .data .text "ab".toList⟩,
          ⟨[], .element "P".toList [] []⟩,
          ⟨[(1, "P".toList)], .element "br".toList [] []⟩,
          ⟨[], .element "p".toList [] []⟩,
          ⟨[], .data .text "c".toList⟩] := by
  obtain ⟨b, haccept, _, hlisted⟩ := trees_list_tokens strayTokens (by simp [strayTokens])
  exact ⟨b, haccept, hlisted.trans (by decide +kernel)⟩

end Builder
end MarkupBinding
