import MarkupBinding.Proofs.Token.Extension
import MarkupBinding.Proofs.Tree.Neighbours
import MarkupBinding.Proofs.Tree.Weight

/-!
# Texts behind elements

Behind a start tag every text either comes first in an element or stands behind an element, as long
as no comment, section or directive comes before a text. And where all trees of a document are texts,
none of its tokens was any of these, nor a start tag.

* `Backs`: what stands before a text is an element.
* `backed_parse`: the trees of a document that begins with a start tag.
* `adds_eq_false_of_parse`: the tokens of a document of texts.
-/

namespace MarkupBinding

namespace Tree

/-- What stands before a text is an element. -/
def Backs (before after : Tree) : Prop := after.isText = true → before.isElement = true

theorem ofTexts_backs : OfTexts Backs where
  other := by
    intro before after hafter htext
    rw [hafter] at htext
    cases htext
  text h _ := h rfl

/-- A node is an element or text, if it is no comment, section or directive. -/
def IsPlain (tree : Tree) : Prop := tree.isText = true ∨ tree.isElement = true

end Tree

namespace Builder

variable {b : Builder}

/-! ## Builders without comments, sections and directives -/

/-- All nodes that a builder holds in its lists are elements or texts. -/
structure Plain (b : Builder) : Prop where
  roots : ∀ tree ∈ b.roots, tree.IsPlain
  opened : ∀ frame ∈ b.opened, ∀ tree ∈ frame.children, tree.IsPlain

namespace Plain

theorem siblings (h : b.Plain) : ∀ tree ∈ b.siblings, tree.IsPlain := by
  obtain ⟨collapses, roots, opened⟩ := b
  cases opened with
  | nil => exact h.roots
  | cons frame opened => exact h.opened frame List.mem_cons_self

theorem withSiblings (h : b.Plain) {trees : List Tree} (htrees : ∀ tree ∈ trees, tree.IsPlain) :
    (b.withSiblings trees).Plain := by
  obtain ⟨collapses, roots, opened⟩ := b
  cases opened with
  | nil => exact ⟨htrees, h.opened⟩
  | cons frame opened =>
    refine ⟨h.roots, ?_⟩
    intro other hother
    rcases List.mem_cons.1 hother with rfl | hother
    · exact htrees
    · exact h.opened other (List.mem_cons_of_mem frame hother)

theorem insert (h : b.Plain) {tree : Tree} (htree : tree.IsPlain) : (b.insert tree).Plain := by
  refine h.withSiblings ?_
  intro other hother
  rcases List.mem_cons.1 hother with rfl | hother
  · exact htree
  · exact h.siblings other hother

theorem insertText (h : b.Plain) (content : Text) : (b.insertText content).Plain := by
  unfold Builder.insertText
  split
  · next last before hs =>
    refine h.withSiblings ?_
    intro other hother
    rcases List.mem_cons.1 hother with rfl | hother
    · exact .inl rfl
    · refine h.siblings other ?_
      rw [hs]
      exact List.mem_cons_of_mem _ hother
  · exact h.insert (.inl rfl)

theorem close (h : b.Plain) : b.close.Plain := by
  obtain ⟨collapses, roots, opened⟩ := b
  cases opened with
  | nil => exact h
  | cons frame opened =>
    have houter : Plain { collapses, roots, opened } :=
      ⟨h.roots, fun other hother => h.opened other (List.mem_cons_of_mem frame hother)⟩
    exact houter.insert (.inr rfl)

theorem closeMany (n : Nat) (h : b.Plain) : (Builder.closeMany n b).Plain :=
  closeMany_induction (fun _ h => h.close) n h

theorem absorb (h : b.Plain) {token : Token} (htoken : token.isAside = false) :
    (b.absorb token).Plain := by
  have habsorbed := b.absorbed token
  generalize b.absorb token = next at habsorbed
  cases habsorbed with
  | refused => exact h
  | opened n hname =>
    have hclosed := h.closeMany n
    refine ⟨hclosed.roots, ?_⟩
    intro frame hframe
    rcases List.mem_cons.1 hframe with rfl | hframe
    · exact fun _ hmem => absurd hmem List.not_mem_nil
    · exact hclosed.opened frame hframe
  | void n hname => exact (h.closeMany n).insert (.inr rfl)
  | closed n => exact h.closeMany n
  | stray => exact h.insert (.inr rfl)
  | text => exact h.insertText _
  | @data kind content hkind =>
    cases kind with
    | text => exact absurd rfl hkind
    | _ => cases htoken
  | finished => exact h.closeMany _

end Plain

/-! ## Texts stay behind elements -/

/-- The first tree is no text. -/
def FirstIsNoText (b : Builder) : Prop := ∀ tree ∈ b.roots.getLast?, tree.isText = false

/-- A document that has begun, and not with a text. -/
structure Begun (b : Builder) : Prop where
  first : b.FirstIsNoText
  some : b.roots ≠ [] ∨ b.opened ≠ []

namespace Begun

theorem insert (h : b.FirstIsNoText) {tree : Tree} (hkind : tree.isText = false) :
    (b.insert tree).Begun := by
  obtain ⟨collapses, roots, opened⟩ := b
  cases opened with
  | cons frame opened => exact ⟨h, .inr (List.cons_ne_nil _ _)⟩
  | nil =>
    refine ⟨?_, .inl (List.cons_ne_nil _ _)⟩
    intro other hother
    have hlast : (tree :: roots).getLast? = .some other := hother
    rw [List.getLast?_cons] at hlast
    cases hroots : roots.getLast? with
    | none =>
      rw [hroots] at hlast
      cases hlast
      exact hkind
    | some last =>
      rw [hroots] at hlast
      cases hlast
      exact h _ hroots

/-- Closing an element leaves a tree at least. -/
theorem close (h : b.Begun) : b.close.Begun := by
  obtain ⟨collapses, roots, opened⟩ := b
  cases opened with
  | nil => exact h
  | cons frame opened =>
    have houter : FirstIsNoText { collapses, roots, opened } := h.first
    exact insert houter rfl

theorem closeMany (n : Nat) (h : b.Begun) : (Builder.closeMany n b).Begun :=
  closeMany_induction (fun _ h => h.close) n h

/-- Text that is added comes behind the first tree. -/
theorem insertText (h : b.Begun) (content : Text) : (b.insertText content).Begun := by
  obtain ⟨collapses, roots, opened⟩ := b
  have hfirst := h.first
  cases opened with
  | cons frame opened =>
    unfold Builder.insertText
    split <;> exact ⟨hfirst, .inr (List.cons_ne_nil _ _)⟩
  | nil =>
    have hroots : roots ≠ [] := h.some.resolve_right (absurd rfl)
    obtain ⟨before, root, rfl⟩ : ∃ before root, roots = before ++ [root] :=
      ⟨roots.dropLast, roots.getLast hroots, (List.dropLast_append_getLast hroots).symm⟩
    have hkind : root.isText = false := hfirst root List.getLast?_concat
    have hlast : ∀ trees, FirstIsNoText { collapses, roots := trees ++ [root] } := by
      intro trees tree htree
      have heq : (trees ++ [root]).getLast? = .some tree := htree
      rw [List.getLast?_concat] at heq
      cases heq
      exact hkind
    unfold Builder.insertText
    split
    · next last others hs =>
      have hs : before ++ [root] = .data .text last :: others := hs
      cases before with
      | nil =>
        cases hs
        cases hkind
      | cons last' before =>
        obtain ⟨_, rfl⟩ := List.cons.inj hs
        exact ⟨hlast (_ :: before), .inl (List.cons_ne_nil _ _)⟩
    · exact ⟨hlast (_ :: before), .inl (List.cons_ne_nil _ _)⟩

/-- The first start tag begins a document. -/
theorem opened (h : b.FirstIsNoText) (name : Text) (attrs : Attributes) :
    Begun { b with opened := { name, attrs } :: b.opened } :=
  ⟨h, .inr (List.cons_ne_nil _ _)⟩

theorem absorb_of_not_text (h : b.Begun) {token : Token}
    (htoken : ∀ content, token ≠ .data .text content) : (b.absorb token).Begun := by
  have habsorbed := b.absorbed token
  generalize b.absorb token = next at habsorbed
  cases habsorbed with
  | refused => exact h
  | opened n hname => exact opened (h.closeMany n).first _ _
  | void n hname => exact insert (h.closeMany n).first rfl
  | closed n => exact h.closeMany n
  | stray => exact insert h.first rfl
  | text => exact absurd rfl (htoken _)
  | @data kind content hkind =>
    refine insert h.first ?_
    cases kind with
    | text => exact absurd rfl hkind
    | _ => rfl
  | finished => exact h.closeMany _

theorem startTag (collapses : Bool) {name : Text} (hname : name ≠ []) (attrs : Attributes) :
    Begun (Builder.absorb { collapses } (.startTag name attrs)) := by
  have hfirst : FirstIsNoText { collapses } := fun _ hmem => by cases hmem
  have hempty : ∀ n, Builder.closeMany n { collapses } = ({ collapses } : Builder) := by
    intro n
    induction n with
    | zero => rfl
    | succ n ih => exact ih
  have habsorbed := absorbed { collapses } (.startTag name attrs)
  generalize Builder.absorb { collapses } (.startTag name attrs) = next at habsorbed
  cases habsorbed with
  | refused => exact absurd rfl hname
  | opened n _ =>
    rw [hempty]
    exact opened hfirst name attrs
  | void n _ =>
    rw [hempty]
    exact insert hfirst rfl

end Begun

/-- Texts stand behind elements or come first in them. -/
structure Backed (b : Builder) : Prop where
  chained : b.Chained Tree.Backs
  begun : b.Begun

namespace Backed

/-- A token that is no text leaves the texts where they are. -/
theorem absorb_of_not_text (h : b.Backed) {token : Token}
    (htoken : ∀ content, token ≠ .data .text content) : (b.absorb token).Backed :=
  ⟨h.chained.absorb_of_not_text Tree.ofTexts_backs htoken, h.begun.absorb_of_not_text htoken⟩

/-- Text that is added comes first in an element, or behind one. -/
theorem insertText (h : b.Backed) (hplain : b.Plain) (content : Text) :
    (b.insertText content).Backed := by
  refine ⟨h.chained.insertText Tree.ofTexts_backs content ?_, h.begun.insertText content⟩
  intro last hlast hkind _ _
  rcases hplain.siblings last (List.mem_of_mem_head? hlast) with htext | helement
  · rw [htext] at hkind
    cases hkind
  · exact helement

theorem absorbAll_of_plain (tokens : List Token) (htokens : ∀ token ∈ tokens, token.isAside = false) :
    ∀ {b : Builder}, b.Backed → b.Plain → (b.absorbAll tokens).Backed := by
  induction tokens with
  | nil => exact fun h _ => h
  | cons token tokens ih =>
    intro b h hplain
    rw [absorbAll_cons]
    refine ih (fun other hother => htokens other (List.mem_cons_of_mem _ hother)) ?_
      (hplain.absorb (htokens token List.mem_cons_self))
    by_cases htext : ∃ content, token = .data .text content
    · obtain ⟨content, rfl⟩ := htext
      exact h.insertText hplain content
    · exact h.absorb_of_not_text fun content heq => htext ⟨content, heq⟩

theorem absorbAll_of_not_text (tokens : List Token)
    (htokens : ∀ token ∈ tokens, ∀ content, token ≠ .data .text content) :
    ∀ {b : Builder}, b.Backed → (b.absorbAll tokens).Backed := by
  induction tokens with
  | nil => exact fun h => h
  | cons token tokens ih =>
    intro b h
    rw [absorbAll_cons]
    exact ih (fun other hother => htokens other (List.mem_cons_of_mem _ hother))
      (h.absorb_of_not_text (htokens token List.mem_cons_self))

/-- A start tag begins a document in which texts are backed. -/
theorem startTag (collapses : Bool) {name : Text} (hname : name ≠ []) (attrs : Attributes) :
    Backed (Builder.absorb { collapses } (.startTag name attrs)) :=
  ⟨(Chained.empty Tree.Backs collapses).absorb_of_not_text Tree.ofTexts_backs
    fun _ => Token.noConfusion, Begun.startTag collapses hname attrs⟩

end Backed
end Builder

/-- In a document that begins with a start tag texts stand behind elements or come first in them, if
no comment, section or directive comes before a text. -/
theorem Tree.backed_parse {markup name : Text} {attrs : Attributes} {rest : List Token}
    (htokens : Scanner.tokens markup = .startTag name attrs :: rest) (hname : name ≠ [])
    (hrest : Token.TextsFirst rest) (collapses : Bool) :
    Tree.Chained Tree.Backs (Tree.parse markup collapses) ∧
      ∀ tree ∈ (Tree.parse markup collapses).head?, tree.isText = false := by
  obtain ⟨first, second, rfl, hfirst, hsecond⟩ := hrest
  have hstart := Builder.Backed.startTag collapses hname attrs
  have hplain : Builder.Plain (Builder.absorb { collapses } (.startTag name attrs)) :=
    Builder.Plain.absorb
      ⟨fun _ h => absurd h List.not_mem_nil, fun _ h => absurd h List.not_mem_nil⟩ rfl
  have hbuilt := Builder.Backed.absorbAll_of_not_text second hsecond
    (Builder.Backed.absorbAll_of_plain first hfirst hstart hplain)
  rw [← Builder.absorbAll_append, ← Builder.absorbAll_cons, ← htokens] at hbuilt
  refine ⟨hbuilt.chained.trees Tree.ofTexts_backs, ?_⟩
  intro tree htree
  unfold Tree.parse Builder.trees at htree
  rw [List.head?_reverse] at htree
  exact (hbuilt.begun.closeMany _).first tree htree

/-! ## Documents of texts -/

namespace Builder

/-- How many nodes of a builder are no texts. -/
def others (b : Builder) : Nat := b.sum (Content.weigh (fun _ => 0) 1)

theorem others_insertText (b : Builder) (content : Text) :
    (b.insertText content).others = b.others := by
  unfold Builder.insertText others
  split
  · next last before hs =>
    have hsum := @sum_withSiblings (Content.weigh (fun _ => 0) 1) b
      (.text (b.kept (last ++ content)) :: before)
    rw [hs, Tree.sumAll, Tree.sumAll, Tree.sum, Tree.sum] at hsum
    exact Nat.add_right_cancel hsum
  · rw [sum_insert]
    rfl

/-- No token takes a node away, and a start tag or an aside adds one. -/
theorem others_le_absorb (b : Builder) (token : Token) :
    b.others + (if token.adds then 1 else 0) ≤ (b.absorb token).others := by
  have hone : (if token.adds then 1 else 0) ≤ 1 := by split <;> omega
  have habsorbed := b.absorbed token
  generalize b.absorb token = next at habsorbed
  cases habsorbed with
  | refused => exact Nat.le_refl _
  | opened n hname =>
    unfold others
    rw [sum_open, sum_closeMany]
    exact Nat.add_le_add_left hone _
  | void n hname =>
    unfold others
    rw [sum_insert, sum_closeMany]
    exact Nat.add_le_add_left hone _
  | closed n =>
    unfold others
    rw [sum_closeMany]
    exact Nat.le_refl _
  | stray => exact Nat.le_trans (Nat.le_add_right _ _) (Nat.le_of_eq (sum_insert ..).symm)
  | text =>
    rw [others_insertText]
    exact Nat.le_refl _
  | @data kind content hkind =>
    unfold others
    rw [sum_insert]
    cases kind with
    | text => exact absurd rfl hkind
    | _ => exact Nat.le_refl _
  | finished => exact Nat.le_of_eq (sum_closeMany _ b).symm

theorem others_le_absorbAll (tokens : List Token) :
    ∀ b : Builder, b.others ≤ (b.absorbAll tokens).others := by
  induction tokens with
  | nil => exact fun _ => Nat.le_refl _
  | cons token tokens ih =>
    intro b
    have hfirst := others_le_absorb b token
    have hrest := ih (b.absorb token)
    rw [absorbAll_cons]
    omega

end Builder

theorem Tree.sumAll_of_isText {trees : List Tree} (h : ∀ tree ∈ trees, tree.isText = true) :
    Tree.sumAll (Content.weigh (fun _ => 0) 1) trees = 0 := by
  induction trees with
  | nil => rfl
  | cons tree trees ih =>
    have htree := h tree List.mem_cons_self
    rw [Tree.sumAll, ih fun other hother => h other (List.mem_cons_of_mem _ hother)]
    cases tree with
    | element name attrs children => cases htree
    | data kind content => cases kind <;> first | rfl | cases htree

/-- No token of a document of texts was a start tag, a comment, a section or a directive. -/
theorem Tree.adds_eq_false_of_parse {markup : Text} {collapses : Bool}
    (h : ∀ tree ∈ Tree.parse markup collapses, tree.isText = true) :
    ∀ token ∈ Scanner.tokens markup, token.adds = false := by
  intro token htoken
  obtain ⟨before, after, htokens⟩ := List.append_of_mem htoken
  have hall : (Builder.absorbAll { collapses } (Scanner.tokens markup)).others = 0 :=
    (Builder.sumAll_trees _).symm.trans (Tree.sumAll_of_isText h)
  rw [htokens, Builder.absorbAll_append, Builder.absorbAll_cons] at hall
  have hadds := Builder.others_le_absorb (Builder.absorbAll { collapses } before) token
  have hrest := Builder.others_le_absorbAll after
    ((Builder.absorbAll { collapses } before).absorb token)
  refine Bool.eq_false_iff.2 fun htrue => ?_
  rw [if_pos htrue] at hadds
  omega

end MarkupBinding
