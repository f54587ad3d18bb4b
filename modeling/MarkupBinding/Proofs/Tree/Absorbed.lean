import MarkupBinding.Tree.Builder

/-!
# What a token does to a builder

A token closes some elements, and then adds or opens one; or it adds character data. Everything that
is proved about a builder that takes in tokens goes back to these few edits.

* `Absorbed`, `absorbed`: the edits that a token can stand for.
* `collapses_absorb`: none of them changes whether blanks are collapsed.
-/

namespace MarkupBinding.Builder

theorem absorbAll_append (b : Builder) (first second : List Token) :
    b.absorbAll (first ++ second) = (b.absorbAll first).absorbAll second :=
  List.foldl_append

theorem absorbAll_cons (b : Builder) (token : Token) (rest : List Token) :
    b.absorbAll (token :: rest) = (b.absorb token).absorbAll rest := rfl

@[simp] theorem siblings_withSiblings (b : Builder) (trees : List Tree) :
    (b.withSiblings trees).siblings = trees := by
  obtain ⟨collapses, roots, opened⟩ := b
  cases opened <;> rfl

@[simp] theorem withSiblings_withSiblings (b : Builder) (first second : List Tree) :
    (b.withSiblings first).withSiblings second = b.withSiblings second := by
  obtain ⟨collapses, roots, opened⟩ := b
  cases opened <;> rfl

@[simp] theorem withSiblings_siblings (b : Builder) : b.withSiblings b.siblings = b := by
  obtain ⟨collapses, roots, opened⟩ := b
  cases opened <;> rfl

@[simp] theorem collapses_withSiblings (b : Builder) (trees : List Tree) :
    (b.withSiblings trees).collapses = b.collapses := by
  obtain ⟨collapses, roots, opened⟩ := b
  cases opened <;> rfl

@[simp] theorem opened_withSiblings (b : Builder) (trees : List Tree) :
    (b.withSiblings trees).opened.map Frame.name = b.opened.map Frame.name := by
  obtain ⟨collapses, roots, opened⟩ := b
  cases opened <;> rfl

/-! ## Edits -/

/-- What a builder can be behind a token. -/
inductive Absorbed (b : Builder) : Token → Builder → Prop
  | refused {attrs : Attributes} : Absorbed b (.startTag [] attrs) b
  | opened (n : Nat) {name : Text} {attrs : Attributes} (hname : name ≠ []) :
      Absorbed b (.startTag name attrs)
        { closeMany n b with opened := { name, attrs } :: (closeMany n b).opened }
  | void (n : Nat) {name : Text} {attrs : Attributes} (hname : name ≠ []) :
      Absorbed b (.startTag name attrs) ((closeMany n b).insert (.element name attrs []))
  | closed (n : Nat) {name : Text} {attrs : Attributes} :
      Absorbed b (.endTag name attrs) (closeMany n b)
  | stray {name : Text} {attrs : Attributes} :
      Absorbed b (.endTag name attrs) (b.insert (.element name [] []))
  | text {content : Text} : Absorbed b (.data .text content) (b.insertText content)
  | data {kind : DataKind} {content : Text} (hkind : kind ≠ .text) :
      Absorbed b (.data kind content) (b.insert (.data kind content))
  | finished : Absorbed b .endOfInput b.closeAll

/-- What a builder is behind a token. -/
theorem absorbed (b : Builder) (token : Token) : b.Absorbed token (b.absorb token) := by
  cases token with
  | startTag name attrs =>
    unfold absorb accept startTag closeImplied
    simp only
    by_cases hname : name = []
    · rw [if_pos hname, hname]
      exact .refused
    · rw [if_neg hname]
      by_cases hvoid : Element.isVoid name.lowercase = true
      · rw [if_pos hvoid]
        exact .void _ hname
      · rw [if_neg hvoid]
        exact .opened _ hname
  | endTag name attrs =>
    show b.Absorbed (.endTag name attrs) (b.endTag name)
    unfold endTag
    simp only
    split
    · split
      · exact .stray
      · exact .closed 0
    · split
      · exact .closed _
      · split
        · exact .stray
        · exact .closed 0
  | data kind content =>
    cases kind with
    | text => exact .text
    | comment => exact .data (by decide)
    | cdata => exact .data (by decide)
    | directive => exact .data (by decide)
  | endOfInput => exact .finished

/-- What closing an element keeps is kept however many are closed. -/
theorem closeMany_induction {P : Builder → Prop} (hclose : ∀ b, P b → P b.close) (n : Nat) :
    ∀ {b : Builder}, P b → P (closeMany n b) := by
  induction n with
  | zero => exact fun h => h
  | succ n ih => exact fun h => ih (hclose _ h)

@[simp] theorem length_opened_closeMany (n : Nat) :
    ∀ b : Builder, (closeMany n b).opened.length = b.opened.length - n := by
  induction n with
  | zero => exact fun _ => rfl
  | succ n ih =>
    intro b
    have hclose : b.close.opened.length = b.opened.length - 1 := by
      obtain ⟨collapses, roots, opened⟩ := b
      cases opened with
      | nil => rfl
      | cons frame opened =>
        have hnames := congrArg List.length
          (opened_withSiblings ⟨collapses, roots, opened⟩
            (frame.tree :: siblings ⟨collapses, roots, opened⟩))
        rw [List.length_map, List.length_map] at hnames
        exact hnames
    rw [closeMany, ih, hclose]
    omega

theorem opened_closeAll (b : Builder) : b.closeAll.opened = [] := by
  refine List.length_eq_zero_iff.1 ?_
  rw [closeAll, length_opened_closeMany]
  omega

/-- No token changes whether blanks are collapsed. -/
theorem collapses_absorb (b : Builder) (token : Token) :
    (b.absorb token).collapses = b.collapses := by
  have hclose : ∀ next : Builder, next.collapses = b.collapses →
      next.close.collapses = b.collapses := by
    rintro ⟨collapses, roots, opened⟩ h
    cases opened with
    | nil => exact h
    | cons frame opened => exact (collapses_withSiblings _ _).trans h
  have hclosed : ∀ n, (closeMany n b).collapses = b.collapses :=
    fun n => closeMany_induction hclose n rfl
  have habsorbed := b.absorbed token
  generalize b.absorb token = next at habsorbed
  cases habsorbed with
  | refused => rfl
  | opened n hname => exact hclosed n
  | void n hname => exact (collapses_withSiblings _ _).trans (hclosed n)
  | closed n => exact hclosed n
  | stray => exact collapses_withSiblings _ _
  | text =>
    unfold insertText
    split <;> exact collapses_withSiblings _ _
  | data hkind => exact collapses_withSiblings _ _
  | finished => exact hclosed _

end MarkupBinding.Builder
