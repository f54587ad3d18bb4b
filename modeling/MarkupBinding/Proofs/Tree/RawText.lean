import MarkupBinding.Proofs.Token.Stream
import MarkupBinding.Proofs.Tree.Nested

/-!
# What raw text elements hold

The scanner and the builder each decide for themselves where a script or a style ends: the scanner
searches for the end tag letter by letter, the builder compares names in lower case. Where no letter of
the end tag is one that only the search knows, they agree, and the element holds a text at most. Where
one is, the builder drops the end tag and what comes next goes on inside of the element.

* `Builder.RawHeld.absorb`: what one token keeps.
* `Builder.absorb_endTag_eq_close_iff`: the end tags that close their element.
* `rawHeld_parse`: the two agree on a document whose end tags are plain.
-/

namespace MarkupBinding

open Scanner (Turn isText spells isLookAlike)

/-- Script and style are the elements of raw text. -/
theorem Element.kind_ne_tag_iff (name : Text) :
    Element.Kind.ofName name ≠ .tag ↔ Element.isRawText name = true := by
  have hmem : Element.isRawText name = true ↔
      name.lowercase = "script".toList ∨ name.lowercase = "style".toList := by
    simp [Element.isRawText, Element.rawTextNames]
  rw [hmem]
  unfold Element.Kind.ofName
  simp only
  by_cases hscript : name.lowercase = "script".toList
  · rw [if_pos hscript]
    exact iff_of_true (by decide) (.inl hscript)
  rw [if_neg hscript]
  by_cases hstyle : name.lowercase = "style".toList
  · rw [if_pos hstyle]
    exact iff_of_true (by decide) (.inr hstyle)
  · rw [if_neg hstyle]
    exact iff_of_false (fun h => h rfl) (not_or.2 ⟨hscript, hstyle⟩)

/-- No element of raw text is void. -/
theorem Element.isVoid_of_isRawText {name : Text} (h : Element.isRawText name = true) :
    Element.isVoid name.lowercase = false := by
  have hnone : ∀ lowered ∈ Element.rawTextNames, Element.isVoid lowered = false := by decide
  exact hnone _ (List.contains_iff_mem.1 h)

namespace Tree

/-- One text at most, and nothing else. -/
def OneText (trees : List Tree) : Prop := trees.length ≤ 1 ∧ ∀ tree ∈ trees, tree.isText = true

instance (trees : List Tree) : Decidable (OneText trees) := inferInstanceAs (Decidable (_ ∧ _))

mutual

/-- Every script and every style holds one text at most. -/
def RawHeld : Tree → Prop
  | .data _ _ => True
  | .element name _ children =>
    (Element.Kind.ofName name ≠ .tag → OneText children) ∧ RawHeldAll children

def RawHeldAll : List Tree → Prop
  | [] => True
  | tree :: trees => RawHeld tree ∧ RawHeldAll trees

end

mutual

instance decidableRawHeld : (tree : Tree) → Decidable (RawHeld tree)
  | .data _ _ => .isTrue trivial
  | .element name _ children =>
    have := decidableRawHeldAll children
    inferInstanceAs (Decidable ((Element.Kind.ofName name ≠ .tag → OneText children) ∧
      RawHeldAll children))

instance decidableRawHeldAll : (trees : List Tree) → Decidable (RawHeldAll trees)
  | [] => .isTrue trivial
  | tree :: trees =>
    have := decidableRawHeld tree
    have := decidableRawHeldAll trees
    inferInstanceAs (Decidable (RawHeld tree ∧ RawHeldAll trees))

end

theorem rawHeldAll_iff {trees : List Tree} : RawHeldAll trees ↔ ∀ tree ∈ trees, RawHeld tree := by
  induction trees with
  | nil => simp [RawHeldAll]
  | cons tree trees ih => simp [RawHeldAll, ih]

theorem rawHeldAll_reverse {trees : List Tree} : RawHeldAll trees.reverse ↔ RawHeldAll trees := by
  rw [rawHeldAll_iff, rawHeldAll_iff]
  exact forall_congr' fun _ => by rw [List.mem_reverse]

theorem OneText.reverse {trees : List Tree} (h : OneText trees) : OneText trees.reverse :=
  ⟨by rw [List.length_reverse]; exact h.1, fun tree htree => h.2 tree (List.mem_reverse.1 htree)⟩

theorem OneText.nil : OneText [] := ⟨Nat.zero_le _, List.forall_mem_nil _⟩

theorem rawHeld_empty (name : Text) (attrs : Attributes) : RawHeld (.element name attrs []) :=
  ⟨fun _ => .nil, trivial⟩

end Tree

namespace Builder

/-- The raw text elements that a builder holds have one text at most, and none is open around another
element. -/
structure RawHeld (b : Builder) : Prop where
  roots : Tree.RawHeldAll b.roots
  opened : ∀ frame ∈ b.opened, (Element.isRawText frame.name = true → Tree.OneText frame.children) ∧
    Tree.RawHeldAll frame.children
  outer : ∀ name ∈ (b.opened.map (·.name)).tail, Element.isRawText name = false

theorem insertText_of_siblings {b : Builder} (h : b.siblings = []) (content : Text) :
    b.insertText content = b.withSiblings [.text (b.kept content)] := by
  unfold insertText insert
  rw [h]

theorem opened_withSiblings_cons {b : Builder} {frame : Frame} {outer : List Frame}
    (h : b.opened = frame :: outer) (trees : List Tree) :
    (b.withSiblings trees).opened = { frame with children := trees } :: outer := by
  unfold withSiblings
  rw [h]

/-- No raw text element is open. -/
def NoRaw (b : Builder) : Prop := ∀ name ∈ b.opened.map (·.name), Element.isRawText name = false

/-- Where the builder stands in a stream of tokens. -/
def Awaits (b : Builder) : Turn → Prop
  | .free | .behindText => b.NoRaw
  | .inside name => Element.isRawText name = true ∧
      ∃ frame outer, b.opened = frame :: outer ∧ frame.name = name ∧ frame.children = []
  | .leaving name => Element.isRawText name = true ∧
      ∃ frame outer, b.opened = frame :: outer ∧ frame.name = name

theorem NoRaw.closeMany {b : Builder} (h : b.NoRaw) (n : Nat) : (closeMany n b).NoRaw := by
  intro name hname
  rw [map_name_closeMany] at hname
  exact h name (List.mem_of_mem_drop hname)

theorem NoRaw.withSiblings {b : Builder} (h : b.NoRaw) (trees : List Tree) :
    (b.withSiblings trees).NoRaw := by
  unfold NoRaw
  rw [opened_withSiblings]
  exact h

namespace RawHeld

variable {b : Builder}

theorem empty (collapses : Bool) : RawHeld { collapses } :=
  ⟨trivial, List.forall_mem_nil _, List.forall_mem_nil _⟩

theorem siblings (h : b.RawHeld) : Tree.RawHeldAll b.siblings := by
  obtain ⟨collapses, roots, opened⟩ := b
  cases opened with
  | nil => exact h.roots
  | cons frame opened => exact (h.opened frame List.mem_cons_self).2

/-- The innermost element may hold other nodes if they are one text or if it is no raw text
element. -/
theorem withSiblings (h : b.RawHeld) {trees : List Tree} (htrees : Tree.RawHeldAll trees)
    (hraw : ∀ frame ∈ b.opened.head?, Element.isRawText frame.name = true → Tree.OneText trees) :
    (b.withSiblings trees).RawHeld := by
  obtain ⟨collapses, roots, opened⟩ := b
  cases opened with
  | nil => exact ⟨htrees, h.opened, h.outer⟩
  | cons frame opened =>
    obtain ⟨_, hothers⟩ := List.forall_mem_cons.1 h.opened
    exact ⟨h.roots, List.forall_mem_cons.2 ⟨⟨hraw frame rfl, htrees⟩, hothers⟩, h.outer⟩

theorem insert (h : b.RawHeld) (hnone : ∀ frame ∈ b.opened.head?, Element.isRawText frame.name = false)
    {tree : Tree} (htree : tree.RawHeld) : (b.insert tree).RawHeld := by
  refine h.withSiblings ⟨htree, h.siblings⟩ fun frame hframe hraw => ?_
  rw [hnone frame hframe] at hraw
  cases hraw

/-- The element around the one that is closed is no raw text element. -/
theorem close (h : b.RawHeld) : b.close.RawHeld := by
  obtain ⟨collapses, roots, opened⟩ := b
  cases opened with
  | nil => exact h
  | cons frame opened =>
    obtain ⟨⟨hone, hchildren⟩, hothers⟩ := List.forall_mem_cons.1 h.opened
    have hnames : ∀ other ∈ opened, Element.isRawText other.name = false := fun other hother =>
      h.outer other.name (List.mem_map_of_mem hother)
    have hinner : RawHeld { collapses, roots, opened } :=
      ⟨h.roots, hothers, fun name hname => h.outer name (List.mem_of_mem_tail hname)⟩
    refine hinner.insert (fun outer houter => hnames outer (List.mem_of_mem_head? houter)) ⟨?_, ?_⟩
    · exact fun hkind => (hone ((Element.kind_ne_tag_iff _).1 hkind)).reverse
    · exact Tree.rawHeldAll_reverse.2 hchildren

theorem closeMany (n : Nat) (h : b.RawHeld) : (Builder.closeMany n b).RawHeld :=
  closeMany_induction (fun _ h => h.close) n h

theorem head?_of_noRaw (h : b.NoRaw) :
    ∀ frame ∈ b.opened.head?, Element.isRawText frame.name = false := fun frame hframe =>
  h frame.name (List.mem_map_of_mem (List.mem_of_mem_head? hframe))

/-- Text outside of raw text. -/
theorem insertText (h : b.RawHeld) (hnone : b.NoRaw) (content : Text) :
    (b.insertText content).RawHeld ∧ (b.insertText content).NoRaw := by
  have hsiblings := h.siblings
  unfold Builder.insertText
  split
  · next last before hs =>
    rw [hs] at hsiblings
    refine ⟨h.withSiblings ⟨trivial, hsiblings.2⟩ fun frame hframe hraw => ?_, hnone.withSiblings _⟩
    rw [head?_of_noRaw hnone frame hframe] at hraw
    cases hraw
  · exact ⟨h.insert (head?_of_noRaw hnone) trivial, hnone.withSiblings _⟩

/-- A start tag outside of raw text. -/
theorem startTag (h : b.RawHeld) (hnone : b.NoRaw) (name : Text) (attrs : Attributes) :
    (b.absorb (.startTag name attrs)).RawHeld ∧
      (b.absorb (.startTag name attrs)).Awaits
        (if Element.isRawText name = true then .inside name else .free) := by
  have hclosed : (b.closeImplied name.lowercase).RawHeld := h.closeMany _
  have hnames : (b.closeImplied name.lowercase).NoRaw := hnone.closeMany _
  unfold Builder.absorb accept Builder.startTag
  simp only
  by_cases hname : name = []
  · rw [if_pos hname, hname, if_neg (by decide)]
    exact ⟨h, hnone⟩
  rw [if_neg hname]
  by_cases hvoid : Element.isVoid name.lowercase = true
  · -- A void element is never opened, and none holds raw text.
    have hraw : ¬ Element.isRawText name = true := by
      intro hraw
      rw [Element.isVoid_of_isRawText hraw] at hvoid
      cases hvoid
    rw [if_pos hvoid, if_neg hraw]
    exact ⟨hclosed.insert (head?_of_noRaw hnames) (Tree.rawHeld_empty name attrs),
      hnames.withSiblings _⟩
  · rw [if_neg hvoid]
    refine ⟨⟨hclosed.roots, List.forall_mem_cons.2 ⟨⟨fun _ => .nil, trivial⟩, hclosed.opened⟩,
      hnames⟩, ?_⟩
    by_cases hraw : Element.isRawText name = true
    · rw [if_pos hraw]
      exact ⟨hraw, _, _, rfl, rfl, rfl⟩
    · rw [if_neg hraw]
      exact List.forall_mem_cons.2 ⟨Bool.eq_false_iff.2 hraw, hnames⟩

/-- A token outside of raw text. -/
theorem absorb_free (h : b.RawHeld) (hnone : b.NoRaw) {token : Token} {later : Turn}
    (hnext : Turn.next? .free token = some later) :
    (b.absorb token).RawHeld ∧ (b.absorb token).Awaits later := by
  have hinsert : ∀ {tree : Tree}, tree.RawHeld → (b.insert tree).RawHeld ∧ (b.insert tree).NoRaw :=
    fun htree => ⟨h.insert (head?_of_noRaw hnone) htree, hnone.withSiblings _⟩
  cases token with
  | startTag name attrs =>
    obtain rfl := Option.some.inj hnext
    exact h.startTag hnone name attrs
  | endTag name attrs =>
    obtain rfl := Option.some.inj hnext
    have habsorbed := b.absorbed (.endTag name attrs)
    generalize b.absorb (.endTag name attrs) = next at habsorbed
    cases habsorbed with
    | closed n => exact ⟨h.closeMany n, hnone.closeMany n⟩
    | stray => exact hinsert (Tree.rawHeld_empty name [])
  | data kind content =>
    cases kind with
    | text =>
      obtain rfl := Option.some.inj hnext
      exact h.insertText hnone content
    | _ =>
      obtain rfl := Option.some.inj hnext
      exact hinsert trivial
  | endOfInput => cases hnext

end RawHeld

/-- The end tag that the scanner finds closes the element if none of its letters only looks like one,
and only then. -/
theorem absorb_endTag_eq_close_iff {b : Builder} {frame : Frame} {outer : List Frame}
    (hopened : b.opened = frame :: outer) {closed : Text} (hraw : Element.isRawText frame.name = true)
    (hspells : spells frame.name closed = true) (attrs : Attributes) :
    b.absorb (.endTag closed attrs) = b.close ↔ ∀ c ∈ closed, isLookAlike c = false := by
  rw [← Scanner.lowercase_eq_iff_of_spells hraw hspells]
  show b.endTag closed = b.close ↔ _
  constructor
  · intro heq
    -- Any other end tag leaves as many elements open, or fewer than those around the innermost one.
    have hlength : (b.endTag closed).opened.length = outer.length := by
      have hone := length_opened_closeMany 1 b
      rw [hopened] at hone
      rw [heq]
      exact hone
    have hinsert : ∀ tree, (b.insert tree).opened.length = outer.length + 1 := by
      intro tree
      have hnames := congrArg List.length (opened_withSiblings b (tree :: b.siblings))
      rw [List.length_map, List.length_map, hopened] at hnames
      exact hnames
    have hb : b.opened.length = outer.length + 1 := congrArg List.length hopened
    unfold Builder.endTag at hlength
    simp only at hlength
    split at hlength
    · split at hlength
      · rw [hinsert] at hlength
        omega
      · omega
    · split at hlength
      · next i hfind =>
        obtain ⟨hi, hmatches, -⟩ := List.findIdx?_eq_some_iff_getElem.1 hfind
        rw [length_opened_closeMany] at hlength
        obtain rfl : i = 0 := by omega
        simp only [hopened, List.getElem_cons_zero, decide_eq_true_eq] at hmatches
        exact hmatches.symm
      · split at hlength
        · rw [hinsert] at hlength
          omega
        · omega
  · intro heq
    -- The innermost element is the first that the end tag is compared with.
    have hvoid : Element.isVoid closed.lowercase = false := by
      rw [heq]
      exact Element.isVoid_of_isRawText hraw
    have hfind : b.opened.findIdx? (fun frame => frame.name.lowercase = closed.lowercase) = some 0 := by
      rw [hopened, heq]
      simp [List.findIdx?_cons]
    unfold Builder.endTag
    simp only [hvoid, hfind]
    rfl

namespace RawHeld

variable {b : Builder}

/-- A token inside of raw text: its text, or an end tag without letters that only look like some. -/
theorem absorb_inside (h : b.RawHeld) {turn later : Turn} {name : Text} {token : Token}
    (hturn : turn = .inside name ∨ turn = .leaving name) (hawaits : b.Awaits turn)
    (hnext : Turn.next? turn token = some later)
    (hplain : ∀ closed attrs, token = .endTag closed attrs → ∀ c ∈ closed, isLookAlike c = false) :
    (b.absorb token).RawHeld ∧ (b.absorb token).Awaits later := by
  obtain ⟨hraw, frame, outer, hopened, hframe⟩ : Element.isRawText name = true ∧
      ∃ frame outer, b.opened = frame :: outer ∧ frame.name = name := by
    rcases hturn with rfl | rfl
    · obtain ⟨hraw, frame, outer, hopened, hframe, -⟩ := hawaits
      exact ⟨hraw, frame, outer, hopened, hframe⟩
    · exact hawaits
  cases token with
  | endTag closed attrs =>
    have hspells : spells name closed = true ∧ later = .free := by
      rcases hturn with rfl | rfl
      · exact (Option.ite_none_right_eq_some.1 hnext).imp_right fun h => (Option.some.inj h).symm
      · exact (Option.ite_none_right_eq_some.1 hnext).imp_right fun h => (Option.some.inj h).symm
    subst hframe
    obtain ⟨hspells, rfl⟩ := hspells
    rw [(absorb_endTag_eq_close_iff hopened hraw hspells attrs).2 (hplain closed attrs rfl)]
    refine ⟨h.close, fun other hother => h.outer other ?_⟩
    rwa [map_name_close] at hother
  | data kind content =>
    rcases hturn with rfl | rfl
    · cases kind with
      | text =>
        obtain rfl := Option.some.inj hnext
        obtain ⟨-, frame, outer, hopened, hname, hchildren⟩ := hawaits
        have hsiblings : b.siblings = [] := by
          rw [Builder.siblings, hopened]
          exact hchildren
        show (b.insertText content).RawHeld ∧ (b.insertText content).Awaits (.leaving name)
        rw [insertText_of_siblings hsiblings]
        have hone : (b.withSiblings [.text (b.kept content)]).RawHeld :=
          h.withSiblings ⟨trivial, trivial⟩ fun _ _ _ =>
            ⟨Nat.le_refl _, List.forall_mem_singleton.2 rfl⟩
        exact ⟨hone, hraw, { frame with children := _ }, outer, opened_withSiblings_cons hopened _, hname⟩
      | _ => cases hnext
    · cases kind <;> cases hnext
  | _ => rcases hturn with rfl | rfl <;> cases hnext

/-- A token that the order allows. -/
theorem absorb (h : b.RawHeld) {turn later : Turn} {token : Token} (hawaits : b.Awaits turn)
    (hnext : turn.next? token = some later)
    (hplain : ∀ name closed attrs, turn = .inside name ∨ turn = .leaving name →
      token = .endTag closed attrs → ∀ c ∈ closed, isLookAlike c = false) :
    (b.absorb token).RawHeld ∧ (b.absorb token).Awaits later := by
  cases turn with
  | free => exact h.absorb_free hawaits hnext
  | behindText =>
    refine h.absorb_free hawaits ?_
    cases token with
    | data kind content => cases kind <;> first | exact hnext | cases hnext
    | _ => exact hnext
  | inside name =>
    exact h.absorb_inside (.inl rfl) hawaits hnext fun closed attrs => hplain name closed attrs (.inl rfl)
  | leaving name =>
    exact h.absorb_inside (.inr rfl) hawaits hnext fun closed attrs => hplain name closed attrs (.inr rfl)

end RawHeld

end Builder

/-! ## Documents -/

/-- A place in a stream where an end tag ends the raw text of an element. -/
structure RawEnd where
  before : List Token
  name : Text
  attrs : Attributes
  /-- What stands between the two tags. -/
  texts : List Token
  closed : Text
  closedAttrs : Attributes
  after : List Token

namespace RawEnd

/-- The tokens up to the end tag. -/
def front (place : RawEnd) : List Token :=
  place.before ++ .startTag place.name place.attrs :: place.texts

/-- The place lies in a stream of tokens. -/
structure In (place : RawEnd) (tokens : List Token) : Prop where
  eq : tokens = place.front ++ .endTag place.closed place.closedAttrs :: place.after
  raw : Element.isRawText place.name = true
  texts : ∀ token ∈ place.texts, isText token = true

/-- None of the letters of the end tag only looks like one of the alphabet. -/
def Plain (place : RawEnd) : Prop := ∀ c ∈ place.closed, isLookAlike c = false

/-- In what a scanner gives out, the end tag is the one that the search has found. -/
theorem spells_of_in {place : RawEnd} {tokens : List Token} (h : place.In tokens)
    (haccepts : Turn.free.Accepts tokens) : spells place.name place.closed = true := by
  obtain ⟨heq, hraw, htexts⟩ := h
  rw [heq, front, List.append_assoc, List.cons_append] at haccepts
  have hinside := Turn.accepts_inside hraw haccepts
  obtain ⟨before, name, attrs, texts, closed, closedAttrs, after⟩ := place
  have hends : ∀ {turn : Turn} {tokens : List Token},
      turn = .inside name ∨ turn = .leaving name →
      turn.Accepts (.endTag closed closedAttrs :: tokens) → spells name closed = true := by
    intro turn tokens hturn h
    rcases Turn.accepts_cons h with ⟨hend, -⟩ | ⟨later, hlater, -⟩
    · cases hend
    · rcases hturn with rfl | rfl
      · exact (Option.ite_none_right_eq_some.1 hlater).1
      · exact (Option.ite_none_right_eq_some.1 hlater).1
  simp only at htexts hinside
  cases texts with
  | nil => exact hends (.inl rfl) hinside
  | cons text texts =>
    rcases Turn.accepts_cons hinside with ⟨rfl, hnil⟩ | ⟨later, hlater, hafter⟩
    · cases texts <;> cases hnil
    have htext := htexts text List.mem_cons_self
    have hleaving : later = .leaving name := by
      unfold isText at htext
      split at htext <;> first | exact (Option.some.inj hlater).symm | cases htext
    subst hleaving
    cases texts with
    | nil => exact hends (.inr rfl) hafter
    | cons next texts =>
      -- A second text cannot follow.
      exfalso
      have hnext := htexts next (List.mem_cons_of_mem _ List.mem_cons_self)
      rcases Turn.accepts_cons hafter with ⟨rfl, hnil⟩ | ⟨last, hlast, -⟩
      · cases hnext
      · unfold isText at hnext
        split at hnext <;> first | cases hlast | cases hnext

end RawEnd

/-- The tokens behind which a stream stands inside of raw text. -/
def Scanner.Turn.Behind (front : List Token) : Turn → Prop
  | .free | .behindText => True
  | .inside name => Element.isRawText name = true ∧
      ∃ before attrs, front = before ++ [.startTag name attrs]
  | .leaving name => Element.isRawText name = true ∧
      ∃ before attrs text, isText text = true ∧ front = before ++ [.startTag name attrs, text]

/-- A stream stands inside of raw text behind a start tag, or behind that and a text. -/
theorem Scanner.Turn.Behind.next {turn later : Turn} {front : List Token} {token : Token}
    (h : turn.Behind front) (hnext : turn.next? token = some later) :
    later.Behind (front ++ [token]) := by
  cases token with
  | startTag name attrs =>
    have hlater : later = if Element.isRawText name = true then .inside name else .free := by
      cases turn <;> first | exact (Option.some.inj hnext).symm | cases hnext
    rw [hlater]
    by_cases hraw : Element.isRawText name = true
    · rw [if_pos hraw]
      exact ⟨hraw, front, attrs, rfl⟩
    · rw [if_neg hraw]
      trivial
  | endTag closed attrs =>
    have hlater : later = .free := by
      cases turn <;> first | exact (Option.some.inj hnext).symm |
        exact (Option.some.inj (Option.ite_none_right_eq_some.1 hnext).2).symm
    rw [hlater]
    trivial
  | data kind content =>
    cases kind with
    | text =>
      cases turn with
      | inside name =>
        obtain rfl := Option.some.inj hnext
        obtain ⟨hraw, before, attrs, rfl⟩ := h
        exact ⟨hraw, before, attrs, _, rfl, List.append_assoc _ _ _⟩
      | free =>
        obtain rfl := Option.some.inj hnext
        trivial
      | _ => cases hnext
    | _ => cases turn <;> cases hnext <;> trivial
  | endOfInput => cases hnext

/-- The rest of a stream whose end tags are plain. -/
theorem Builder.RawHeld.absorbAll {tokens : List Token}
    (hplain : ∀ place : RawEnd, place.In tokens → place.Plain) (front : List Token)
    {rest : List Token} (htokens : tokens = front ++ rest) {turn : Turn}
    (haccepts : turn.Accepts rest) (hbehind : turn.Behind front) {b : Builder} (h : b.RawHeld)
    (hawaits : b.Awaits turn) :
    (b.absorbAll rest).RawHeld := by
  -- The tokens before the rest are kept, for an end tag is asked about by its place in the stream.
  induction rest generalizing front turn b with
  | nil => exact h
  | cons token rest ih =>
    rw [absorbAll_cons]
    rcases Turn.accepts_cons haccepts with ⟨rfl, rfl⟩ | ⟨later, hlater, hrest⟩
    · exact h.closeMany _
    have hends : ∀ name closed attrs, turn = .inside name ∨ turn = .leaving name →
        token = .endTag closed attrs → ∀ c ∈ closed, isLookAlike c = false := by
      rintro name closed attrs (rfl | rfl) rfl
      · obtain ⟨hraw, before, startAttrs, rfl⟩ := hbehind
        exact hplain ⟨before, name, startAttrs, [], closed, attrs, rest⟩
          ⟨htokens, hraw, List.forall_mem_nil _⟩
      · obtain ⟨hraw, before, startAttrs, text, htext, rfl⟩ := hbehind
        exact hplain ⟨before, name, startAttrs, [text], closed, attrs, rest⟩
          ⟨htokens, hraw, List.forall_mem_singleton.2 htext⟩
    obtain ⟨hheld, hlaterAwaits⟩ := h.absorb hawaits hlater hends
    refine ih (front ++ [token]) ?_ hrest (hbehind.next hlater) hheld hlaterAwaits
    rw [htokens, List.append_assoc]
    rfl

/-- Behind the start tag and the texts its element is the innermost open one. -/
theorem RawEnd.opened_absorbAll {place : RawEnd} {tokens : List Token} (h : place.In tokens)
    (b : Builder) : ∃ children, (b.absorbAll place.front).opened =
      ⟨place.name, place.attrs, children⟩ ::
        ((b.absorbAll place.before).closeImplied place.name.lowercase).opened := by
  have hname : place.name ≠ [] := by
    intro hnil
    have hraw := h.raw
    rw [hnil] at hraw
    cases hraw
  rw [front, Builder.absorbAll_append, Builder.absorbAll_cons]
  generalize b.absorbAll place.before = b'
  have hopened : (b'.absorb (.startTag place.name place.attrs)).opened =
      ⟨place.name, place.attrs, []⟩ :: (b'.closeImplied place.name.lowercase).opened := by
    unfold Builder.absorb Builder.accept Builder.startTag
    simp only [if_neg hname, Element.isVoid_of_isRawText h.raw]
    rfl
  generalize b'.absorb (.startTag place.name place.attrs) = started at hopened
  have htexts := h.texts
  generalize place.texts = texts at htexts
  generalize ([] : List Tree) = children at hopened
  induction texts generalizing started children with
  | nil => exact ⟨children, hopened⟩
  | cons text texts ih =>
    obtain ⟨htext, htexts⟩ := List.forall_mem_cons.1 htexts
    rw [Builder.absorbAll_cons]
    obtain ⟨trees, hadded⟩ : ∃ trees, started.absorb text = started.withSiblings trees := by
      unfold isText at htext
      split at htext
      · next content =>
        show ∃ trees, started.insertText content = _
        unfold Builder.insertText
        split <;> exact ⟨_, rfl⟩
      · cases htext
    rw [hadded]
    exact ih _ htexts trees (Builder.opened_withSiblings_cons hopened trees)

/-- In a document whose end tags of raw text are plain every script and every style holds a text at
most, and each end tag at which the scanner leaves raw text closes the element of the start tag. -/
theorem Tree.rawHeld_parse (text : Text) (collapses sections : Bool)
    (hplain : ∀ place : RawEnd, place.In (Scanner.tokens text sections) → place.Plain) :
    Tree.RawHeldAll (Tree.parse text collapses sections) ∧
      ∀ place : RawEnd, place.In (Scanner.tokens text sections) →
        ∃ children, (Builder.absorbAll { collapses } place.front).opened =
            ⟨place.name, place.attrs, children⟩ ::
              ((Builder.absorbAll { collapses } place.before).closeImplied place.name.lowercase).opened ∧
          (Builder.absorbAll { collapses } place.front).absorb
              (.endTag place.closed place.closedAttrs) =
            (Builder.absorbAll { collapses } place.front).close := by
  have haccepts := Scanner.accepts_tokens text sections
  refine ⟨?_, fun place hplace => ?_⟩
  · have hbuilt := Builder.RawHeld.absorbAll hplain [] rfl haccepts trivial
      (Builder.RawHeld.empty collapses) (List.forall_mem_nil _)
    exact Tree.rawHeldAll_reverse.2 (hbuilt.closeMany _).roots
  · obtain ⟨children, hopened⟩ := RawEnd.opened_absorbAll hplace { collapses }
    exact ⟨children, hopened, (Builder.absorb_endTag_eq_close_iff hopened hplace.raw
      (RawEnd.spells_of_in hplace haccepts) _).2 (hplain place hplace)⟩

/-- A script whose end tag is in capitals and has an attribute. -/
def loudScript : RawEnd where
  before := []
  name := "script".toList
  attrs := []
  texts := [.data .text "a<b".toList]
  closed := "SCRIPT".toList
  closedAttrs := [("x".toList, [])]
  after := [.data .text "c".toList, .endOfInput]

theorem Tree.rawHeld_parse_loudScript :
    loudScript.In (Scanner.tokens "<script>a<b</SCRIPT x>c".toList) ∧
      Tree.RawHeldAll (Tree.parse "<script>a<b</SCRIPT x>c".toList) ∧
      (Builder.absorbAll {} loudScript.front).absorb (.endTag loudScript.closed loudScript.closedAttrs) =
        (Builder.absorbAll {} loudScript.front).close := by
  have hin : loudScript.In (Scanner.tokens "<script>a<b</SCRIPT x>c".toList) :=
    ⟨by decide +kernel, by decide, by decide⟩
  have hplain : ∀ place : RawEnd,
      place.In (Scanner.tokens "<script>a<b</SCRIPT x>c".toList) → place.Plain := by
    intro place hplace
    have hmem : Token.endTag place.closed place.closedAttrs ∈ loudScript.front ++
        .endTag loudScript.closed loudScript.closedAttrs :: loudScript.after := by
      rw [← hin.eq, hplace.eq]
      exact List.mem_append_right _ List.mem_cons_self
    have hclosed : place.closed = loudScript.closed := by
      simp [loudScript, RawEnd.front] at hmem
      exact hmem.1
    have hnone : loudScript.closed.any isLookAlike = false := by decide
    intro c hc
    rw [hclosed] at hc
    exact Bool.eq_false_iff.2 (List.any_eq_false.1 hnone c hc)
  obtain ⟨hheld, hplaces⟩ := Tree.rawHeld_parse _ false false hplain
  obtain ⟨_, _, hcloses⟩ := hplaces loudScript hin
  exact ⟨hin, hheld, hcloses⟩

/-- Behind an end tag with a long s the script goes on. -/
theorem Tree.not_rawHeld_parse_longS :
    ¬ Tree.RawHeldAll (Tree.parse "<script>a</ſcript><b>c</b></script>".toList) := by
  decide +kernel

end MarkupBinding
