import MarkupBinding.Proofs.Tree.Written

/-!
# Parsing undoes writing

Trees that could have come from a text are read back from their own markup exactly as they were, in
either form of it. The markup is written without escapes, so the conditions say where a piece of it
could be taken for something else, and where the builder would not nest the elements as they stand.

* `ReadableAll`: the conditions on trees.
* `parse_markupAll`: such trees are read back.
-/

namespace MarkupBinding

namespace Tree

mutual

/-- A tree that is read back from its own markup. -/
def Readable : Tree → Prop
  | .data kind content => Scanner.Config.IsContent kind content
  | .element name attrs children =>
    Scanner.IsTagName name ∧ Scanner.AreAttributes attrs ∧ ClosesAsWritten name children ∧
      if Element.isRawText name then HoldsRawText name children
      else ReadableAll children ∧ TextsApart children ∧
        ∀ child ∈ children, Element.startEnds name.lowercase child.loweredName = false

/-- Trees that are read back from their own markup, each by itself. -/
def ReadableAll : List Tree → Prop
  | [] => True
  | tree :: trees => Readable tree ∧ ReadableAll trees

end

mutual

theorem written_of_readable : ∀ {tree : Tree}, Readable tree → Written true tree
  | .data kind content, h => by
    rw [Readable] at h
    rw [Written]
    cases kind with
    | text => exact ⟨h.1, Scanner.isPlain_of_notMem h.2⟩
    | comment => exact h
    | cdata => exact ⟨rfl, h⟩
    | directive => exact h
  | .element name attrs children, h => by
    rw [Readable] at h
    rw [Written]
    obtain ⟨hname, hattrs, hclose, hcontent⟩ := h
    refine ⟨hname, hattrs, hclose, ?_⟩
    split
    · next hraw => rwa [if_pos hraw] at hcontent
    · next hraw =>
      rw [if_neg hraw] at hcontent
      exact ⟨writtenAll_of_readableAll hcontent.1, hcontent.2⟩

theorem writtenAll_of_readableAll : ∀ {trees : List Tree}, ReadableAll trees → WrittenAll true trees
  | [], _ => trivial
  | tree :: trees, h => by
    rw [ReadableAll] at h
    exact ⟨written_of_readable h.1, writtenAll_of_readableAll h.2⟩

end

end Tree

/-- **Parsing undoes writing.** Readable trees without adjacent texts are read back from their
markup, in either form of it. -/
theorem Tree.parse_markupAll {trees : List Tree} (h : Tree.ReadableAll trees)
    (hapart : Tree.TextsApart trees) (xhtml : Bool) :
    Tree.parse (Tree.markupAll xhtml trees) false true = trees :=
  Tree.parse_markupAll_of_written (Tree.writtenAll_of_readableAll h) hapart (fun h => by cases h) xhtml

/-- A page with a node of every kind, a void element, and a script that holds markup. -/
def samplePage : List Tree :=
  [.data .directive "!DOCTYPE html".toList,
    .element "div".toList [("class".toList, "a > b".toList), ("=x".toList, [])]
      [.text "1 > 0 & ".toList, .element "IMG".toList [] [], .data .comment "--".toList],
    .element "Script".toList [] [.text "if (a</p>b)".toList],
    .data .cdata "![CDATA[x]]]".toList]

theorem parse_markupAll_samplePage : Tree.ReadableAll samplePage ∧ Tree.TextsApart samplePage ∧
    Tree.parse (Tree.markupAll true samplePage) false true = samplePage := by
  have himage : Tree.Readable (.element "IMG".toList [] []) := by
    rw [Tree.Readable, if_neg (by decide)]
    exact ⟨by decide, by decide, ⟨fun _ => ⟨rfl, by decide⟩, fun _ => by decide⟩, trivial, .nil,
      by simp⟩
  have hblock : Tree.Readable (.element "div".toList [("class".toList, "a > b".toList),
      ("=x".toList, [])] [.text "1 > 0 & ".toList, .element "IMG".toList [] [],
        .data .comment "--".toList]) := by
    rw [Tree.Readable, if_neg (by decide)]
    refine ⟨by decide, by decide, ⟨fun h => ?_, fun h => ?_⟩, ⟨?_, himage, ?_, trivial⟩, ?_, ?_⟩
    · exact absurd h (by decide)
    · cases h
    · exact ⟨by decide, by decide⟩
    · show ¬ "-->".toList <:+: "--".toList
      decide
    · decide
    · decide
  have hscript : Tree.Readable (.element "Script".toList [] [.text "if (a</p>b)".toList]) := by
    rw [Tree.Readable, if_pos (by decide)]
    refine ⟨by decide, by decide, ⟨fun h => ?_, fun h => ?_⟩, .inr ⟨_, rfl, by decide, by decide⟩⟩
    · exact absurd h (by decide)
    · cases h
  have hpage : Tree.ReadableAll samplePage := by
    refine ⟨?_, hblock, hscript, ?_, trivial⟩
    · exact ⟨.inl rfl, by decide, by decide, by decide⟩
    · exact ⟨"x]".toList, rfl, by decide⟩
  have hapart : Tree.TextsApart samplePage := by decide
  exact ⟨hpage, hapart, Tree.parse_markupAll hpage hapart true⟩

end MarkupBinding
