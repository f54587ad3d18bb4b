import MarkupBinding.Proofs.Insert.Expression

/-!
# Reading a binding expression

A literal is escaped character by character, so it can be read back: it goes up to the first mark
that is not escaped, whatever comes behind that mark. An expression goes up to the next plus sign.
The terms of a sum are therefore found again, and with them the parts of the text: between two
expressions a literal that is missing is empty.

* `readLiteral?_quoteLiteral`: a literal is read back, and what follows it.
* `readSum?_sum`: so are the terms of a sum.
* `partsFrom_ofPartsFrom`: the terms determine the parts.
* `expression_decodes`: binding expressions decode uniquely.
-/

namespace MarkupBinding

open Text (singleMark doubleMark)

namespace Term

/-! ## Literals -/

/-- The text before the first mark that is not escaped, and the text behind that mark. -/
def cutAtMark? : Text → Option (Text × Text)
  | [] => none
  | '\\' :: [] => none
  | '\\' :: c :: text => (cutAtMark? text).map fun (body, rest) => ('\\' :: c :: body, rest)
  | c :: text =>
    if c = singleMark then some ([], text)
    else (cutAtMark? text).map fun (body, rest) => (c :: body, rest)

/-- The character that an escaped one stands for. -/
def unescapeChar (c : Char) : Char :=
  if c = 'r' then '\r' else if c = 'n' then '\n' else c

/-- The text that stands escaped in a literal. -/
def unescape : Text → Text
  | '\\' :: c :: text => unescapeChar c :: unescape text
  | c :: text => c :: unescape text
  | [] => []

/-- Reads a literal. -/
def readLiteral? : Text → Option (Text × Text)
  | [] => none
  | c :: text =>
    if c = singleMark then (cutAtMark? text).map fun (body, rest) => (unescape body, rest)
    else none

/-- A character is escaped with a sign behind a backslash that stands for it, or not at all. -/
theorem escapeChar_cases (c : Char) :
    (∃ sign, escapeChar c = ['\\', sign] ∧ unescapeChar sign = c) ∨
      escapeChar c = [c] ∧ c ≠ '\\' ∧ c ≠ singleMark := by
  unfold escapeChar
  split
  · next h => exact .inl ⟨_, rfl, h.symm⟩
  · next hslash =>
    split
    · next h => exact .inl ⟨_, rfl, h.symm⟩
    · next hmark =>
      split
      · next h => exact .inl ⟨_, rfl, h.symm⟩
      · split
        · next h => exact .inl ⟨_, rfl, h.symm⟩
        · exact .inr ⟨rfl, hslash, hmark⟩

theorem cutAtMark?_cons {c : Char} (hslash : c ≠ '\\') (hmark : c ≠ singleMark) (text : Text) :
    cutAtMark? (c :: text) = (cutAtMark? text).map fun (body, rest) => (c :: body, rest) := by
  rw [cutAtMark?, if_neg hmark]
  · exact fun h => absurd h hslash
  · exact fun _ _ h => absurd h hslash

theorem unescape_cons {c : Char} (hslash : c ≠ '\\') (text : Text) :
    unescape (c :: text) = c :: unescape text := by
  rw [unescape]
  exact fun _ _ h => absurd h hslash

/-- An escaped text has no mark of its own that is not escaped. -/
theorem cutAtMark?_escaped (text rest : Text) :
    cutAtMark? (text.flatMap escapeChar ++ singleMark :: rest) =
      some (text.flatMap escapeChar, rest) := by
  induction text with
  | nil => rfl
  | cons c text ih =>
    rw [List.flatMap_cons, List.append_assoc]
    rcases escapeChar_cases c with ⟨sign, heq, _⟩ | ⟨heq, hslash, hmark⟩
    · rw [heq, List.cons_append, List.singleton_append, cutAtMark?, ih]
      rfl
    · rw [heq, List.singleton_append, cutAtMark?_cons hslash hmark, ih]
      rfl

theorem unescape_escaped (text : Text) : unescape (text.flatMap escapeChar) = text := by
  induction text with
  | nil => rfl
  | cons c text ih =>
    rw [List.flatMap_cons]
    rcases escapeChar_cases c with ⟨sign, heq, hsign⟩ | ⟨heq, hslash, _⟩
    · rw [heq, List.cons_append, List.singleton_append, unescape, ih, hsign]
    · rw [heq, List.singleton_append, unescape_cons hslash, ih]

/-- A literal is read back, and what follows it. -/
theorem readLiteral?_quoteLiteral (text rest : Text) :
    readLiteral? (quoteLiteral text ++ rest) = some (text, rest) := by
  have hcut := cutAtMark?_escaped text rest
  unfold quoteLiteral
  rw [List.append_assoc, List.singleton_append, List.cons_append, readLiteral?, if_pos rfl, hcut,
    Option.map_some]
  show some (unescape (text.flatMap escapeChar), rest) = some (text, rest)
  rw [unescape_escaped]

/-- So a literal that stands in front of a text determines what it quotes, and the rest. -/
theorem quoteLiteral_append_inj {text text' rest rest' : Text}
    (h : quoteLiteral text ++ rest = quoteLiteral text' ++ rest') : text = text' ∧ rest = rest' := by
  have hread := readLiteral?_quoteLiteral text rest
  rw [h, readLiteral?_quoteLiteral] at hread
  obtain ⟨rfl, rfl⟩ := Prod.mk.inj (Option.some.inj hread)
  exact ⟨rfl, rfl⟩

/-- A literal stays on one line. -/
theorem notMem_quoteLiteral_of_break {c : Char} (hc : c = '\r' ∨ c = '\n') (text : Text) :
    c ∉ quoteLiteral text := by
  have hbody : c ∉ text.flatMap escapeChar := by
    intro hmem
    obtain ⟨d, _, hd⟩ := List.mem_flatMap.1 hmem
    unfold escapeChar at hd
    rcases hc with rfl | rfl
    all_goals
      repeat' split at hd
      all_goals simp_all [singleMark, eq_comm]
  rcases hc with rfl | rfl
  all_goals simpa [quoteLiteral, singleMark] using hbody

/-! ## Sums -/

theorem length_of_cutAtMark? {text body rest : Text} (h : cutAtMark? text = some (body, rest)) :
    rest.length < text.length := by
  fun_induction cutAtMark? text generalizing body rest with
  | case1 => cases h
  | case2 => cases h
  | case3 c text ih =>
    obtain ⟨⟨body', rest'⟩, hcut, heq⟩ := Option.map_eq_some_iff.1 h
    cases heq
    have hlt := ih hcut
    simp only [List.length_cons]
    omega
  | case4 =>
    cases h
    exact Nat.lt_succ_self _
  | case5 c text _ _ _ ih =>
    obtain ⟨⟨body', rest'⟩, hcut, heq⟩ := Option.map_eq_some_iff.1 h
    cases heq
    exact Nat.lt_succ_of_lt (ih hcut)

/-- Reads a term of a sum, given the root of all expressions. -/
def readTerm? (root text : Text) : Option (Term × Text) :=
  match readLiteral? text with
  | some (content, rest) => some (literal content, rest)
  | none => ((root ++ ['.']).isPrefixOf? text).map fun inside =>
    (path (inside.takeWhile (· ≠ '+')), inside.dropWhile (· ≠ '+'))

theorem length_of_readTerm? {root text rest : Text} {term : Term}
    (h : readTerm? root text = some (term, rest)) : rest.length ≤ text.length := by
  unfold readTerm? at h
  split at h
  · next content rest' hread =>
    cases h
    unfold readLiteral? at hread
    split at hread
    · cases hread
    · split at hread
      · obtain ⟨⟨body, _⟩, hcut, heq⟩ := Option.map_eq_some_iff.1 hread
        cases heq
        exact Nat.le_succ_of_le (Nat.le_of_lt (length_of_cutAtMark? hcut))
      · cases hread
  · obtain ⟨inside, hinside, heq⟩ := Option.map_eq_some_iff.1 h
    cases heq
    have hdrop := (List.dropWhile_suffix (l := inside) (· ≠ '+')).length_le
    rw [Text.isPrefixOf?_eq_some_iff.1 hinside, List.length_append]
    omega

/-- Reads the terms of a sum. -/
def readSum? (root text : Text) : Option (List Term) :=
  match text with
  | [] => some []
  | c :: text =>
    match _h : readTerm? root (c :: text) with
    | none => none
    | some (term, []) => some [term]
    | some (term, sign :: rest) =>
      if sign = '+' then (readSum? root rest).map (term :: ·) else none
termination_by text.length
decreasing_by
  have hle := length_of_readTerm? _h
  exact hle

/-- A text that can stand in a path: it has neither a mark nor a plus sign. -/
def IsPath (text : Text) : Prop := singleMark ∉ text ∧ '+' ∉ text ∧ doubleMark ∉ text

instance : DecidablePred IsPath := fun _ => inferInstanceAs (Decidable (_ ∧ _))

/-- A term that can be read back. -/
def Legible : Term → Prop
  | literal _ => True
  | path expression => '+' ∉ expression

theorem readTerm?_markup {root rest : Text} {term : Term} (hroot : IsPath root) (h : term.Legible)
    (hrest : ∀ c ∈ rest.head?, c = '+') :
    readTerm? root (term.markup root ++ rest) = some (term, rest) := by
  cases term with
  | literal text =>
    unfold readTerm?
    rw [markup, readLiteral?_quoteLiteral]
  | path expression =>
    have hnone : readLiteral? (root ++ '.' :: expression ++ rest) = none := by
      cases root with
      | nil => rfl
      | cons c root =>
        have hc : c ≠ singleMark := fun heq => hroot.1 (heq ▸ List.mem_cons_self)
        exact if_neg hc
    have hinside : (root ++ ['.']).isPrefixOf? (root ++ '.' :: expression ++ rest) =
        some (expression ++ rest) :=
      Text.isPrefixOf?_eq_some_iff.2 (by simp)
    have hall : ∀ c ∈ expression, decide (c ≠ '+') = true := fun c hc =>
      decide_eq_true fun heq => h (heq ▸ hc)
    have htake : rest.takeWhile (· ≠ '+') = [] ∧ rest.dropWhile (· ≠ '+') = rest := by
      cases rest with
      | nil => exact ⟨rfl, rfl⟩
      | cons c rest =>
        obtain rfl := hrest c rfl
        exact ⟨rfl, rfl⟩
    unfold readTerm?
    rw [markup, hnone]
    simp only
    rw [hinside, Option.map_some, List.takeWhile_append_of_pos hall,
      List.dropWhile_append_of_pos hall, htake.1, htake.2, List.append_nil]

theorem sum_cons_cons (root : Text) (first second : Term) (terms : List Term) :
    sum root (first :: second :: terms) = first.markup root ++ '+' :: sum root (second :: terms) := by
  simp [sum, List.intercalate]

theorem markup_ne_nil (root : Text) (term : Term) : term.markup root ≠ [] := by
  cases term <;> simp [markup, quoteLiteral]

/-- A sum goes on behind its first term if a plus sign follows. -/
theorem readSum?_of_readTerm? {root text rest : Text} {term : Term} (hne : text ≠ [])
    (h : readTerm? root text = some (term, rest)) :
    readSum? root text =
      match rest with
      | [] => some [term]
      | sign :: rest => if sign = '+' then (readSum? root rest).map (term :: ·) else none := by
  obtain ⟨c, text, rfl⟩ := List.exists_cons_of_ne_nil hne
  rw [readSum?]
  split
  · next hnone =>
    rw [h] at hnone
    cases hnone
  · next hread =>
    rw [h] at hread
    cases hread
    rfl
  · next hread =>
    rw [h] at hread
    cases hread
    rfl

/-- The terms of a sum are read back. -/
theorem readSum?_sum {root : Text} {terms : List Term} (hroot : IsPath root)
    (h : ∀ term ∈ terms, term.Legible) : readSum? root (sum root terms) = some terms := by
  induction terms with
  | nil => rw [sum, List.map_nil, List.intercalate_nil, readSum?]
  | cons first terms ih =>
    obtain ⟨hfirst, hterms⟩ := List.forall_mem_cons.1 h
    cases terms with
    | nil =>
      have hread := @readTerm?_markup root [] first hroot hfirst fun _ hc => nomatch hc
      rw [List.append_nil] at hread
      rw [sum, List.map_singleton, List.intercalate_singleton,
        readSum?_of_readTerm? (first.markup_ne_nil root) hread]
    | cons second terms =>
      have hread := @readTerm?_markup root ('+' :: sum root (second :: terms)) first hroot hfirst
        fun _ hc => (Option.some.inj hc).symm
      rw [sum_cons_cons, readSum?_of_readTerm? (by simp [markup_ne_nil]) hread]
      simp only [if_true]
      rw [ih hterms, Option.map_some]

/-- The parts of a text from some terms, given the literal that was read last. -/
def partsFrom (before : Text) : List Term → List Text
  | [] => [before]
  | literal text :: terms => partsFrom text terms
  | path expression :: terms => before :: expression :: partsFrom [] terms

/-- The parts of a text are found again from its terms. A literal that was left out is empty. -/
theorem partsFrom_ofPartsFrom (count : Nat) : ∀ {index : Nat} {parts : List Text},
    index % 2 = 0 → parts.length % 2 = 1 → partsFrom [] (ofPartsFrom count index parts) = parts
  | _, [], _, hodd => by cases hodd
  | index, [last], heven, _ => by
    have hnot : ¬ index % 2 = 1 := by omega
    rw [ofPartsFrom, ofPartsFrom, if_neg hnot]
    by_cases hlast : last = []
    · rw [if_neg (not_not_intro hlast), hlast]
      split <;> rfl
    · rw [if_pos hlast]
      rfl
  | index, before :: expression :: parts, heven, hodd => by
    have hnot : ¬ index % 2 = 1 := by omega
    have hnext : (index + 1) % 2 = 1 := by omega
    have hrest : parts.length % 2 = 1 := by
      simp only [List.length_cons] at hodd
      omega
    have ih := @partsFrom_ofPartsFrom count (index + 1 + 1) parts (by omega) hrest
    rw [ofPartsFrom, if_neg hnot, ofPartsFrom, if_pos hnext]
    by_cases hbefore : before = []
    · rw [if_neg (not_not_intro hbefore), hbefore]
      split
      all_goals
        simp only [partsFrom]
        rw [ih]
    · rw [if_pos hbefore]
      simp only [partsFrom]
      rw [ih]

/-! ## Binding expressions -/

/-- Parts that are read back from their expression: literal text and paths in turn. -/
structure LegibleParts (parts : List Text) : Prop where
  odd : parts.length % 2 = 1
  paths : ∀ i (h : i < parts.length), i % 2 = 1 → IsPath parts[i]
  literals : ∀ i (h : i < parts.length), i % 2 = 0 → doubleMark ∉ parts[i]

theorem LegibleParts.doubleMark_notMem {parts : List Text} (h : LegibleParts parts) :
    ∀ part ∈ parts, doubleMark ∉ part := by
  intro part hpart
  obtain ⟨i, hi, rfl⟩ := List.getElem_of_mem hpart
  rcases Nat.mod_two_eq_zero_or_one i with heven | hodd
  · exact h.literals i hi heven
  · exact (h.paths i hi hodd).2.2

/-- The terms for parts that are read back. -/
theorem legible_ofPartsFrom (count : Nat) {index : Nat} {parts : List Text}
    (h : ∀ i (h : i < parts.length), (index + i) % 2 = 1 → IsPath parts[i]) :
    ∀ term ∈ ofPartsFrom count index parts, term.Legible := by
  induction parts generalizing index with
  | nil => exact fun term hterm => nomatch hterm
  | cons part parts ih =>
    have hrest : ∀ term ∈ ofPartsFrom count (index + 1) parts, term.Legible := by
      refine ih fun i hi hodd => ?_
      have hlonger : i + 1 < (part :: parts).length := Nat.succ_lt_succ hi
      exact h (i + 1) hlonger (by rwa [Nat.add_assoc, Nat.add_comm 1 i] at hodd)
    rw [ofPartsFrom]
    split
    · next hodd =>
      have hpart : IsPath part := h 0 (Nat.zero_lt_succ _) hodd
      exact List.forall_mem_cons.2 ⟨hpart.2.1, hrest⟩
    · split
      · exact List.forall_mem_cons.2 ⟨trivial, hrest⟩
      · split
        · exact List.forall_mem_cons.2 ⟨trivial, hrest⟩
        · exact hrest

/-- The parts of a text are read back from its expression. -/
theorem parts_of_readSum? {root : Text} {parts : List Text} (hroot : IsPath root)
    (h : LegibleParts parts) (template : Delimiters) :
    (readSum? root (Synthesis.ofParts template root parts).expression).map (partsFrom []) =
      some parts := by
  have hmarks : doubleMark ∉ sum root (ofParts parts) :=
    notMem_sum (by decide) hroot.2.2 h.doubleMark_notMem
  have hterms : ∀ term ∈ ofParts parts, term.Legible :=
    legible_ofPartsFrom _ fun i hi hodd => h.paths i hi (by rwa [Nat.zero_add] at hodd)
  show (readSum? root (Synthesis.protectMarks _)).map _ = _
  rw [Synthesis.protectMarks_eq_self hmarks, readSum?_sum hroot hterms, Option.map_some, ofParts,
    partsFrom_ofPartsFrom _ rfl h.odd]

/-- **Binding expressions decode uniquely.** The parts of a text are determined by its expression
where paths have neither marks nor plus signs and no double mark had to be rewritten, whatever else
is in the literals. A literal ends at its first mark that is not escaped and stays on one line, so
that it is told from any text behind it. -/
theorem expression_decodes :
    (∀ (root : Text) (template template' : Delimiters) (parts parts' : List Text), IsPath root →
      LegibleParts parts → LegibleParts parts' →
      (Synthesis.ofParts template root parts).expression =
        (Synthesis.ofParts template' root parts').expression → parts = parts') ∧
    ∀ text rest : Text,
      (∃ body, quoteLiteral text = singleMark :: body ++ [singleMark] ∧
        cutAtMark? (body ++ singleMark :: rest) = some (body, rest)) ∧
      '\r' ∉ quoteLiteral text ∧ '\n' ∉ quoteLiteral text ∧
      ∀ text' rest', quoteLiteral text ++ rest = quoteLiteral text' ++ rest' →
        text = text' ∧ rest = rest' := by
  constructor
  · intro root template template' parts parts' hroot hparts hparts' heq
    have hread := parts_of_readSum? hroot hparts template
    rw [heq, parts_of_readSum? hroot hparts' template'] at hread
    exact (Option.some.inj hread).symm
  · intro text rest
    exact ⟨⟨_, rfl, cutAtMark?_escaped text rest⟩, notMem_quoteLiteral_of_break (.inl rfl) text,
      notMem_quoteLiteral_of_break (.inr rfl) text, fun _ _ => quoteLiteral_append_inj⟩

/-- Literals that look like what is written around them. -/
def imitatingParts : List Text := ["'+this.a+'".toList, "a".toList, "".toList, "b".toList,
  "\\'\n\\".toList]

/-- They are told from it. -/
theorem expression_decodes_imitatingParts :
    IsPath "this".toList ∧ LegibleParts imitatingParts ∧
      ∀ parts, LegibleParts parts →
        (Synthesis.ofParts ⟨[], []⟩ "this".toList imitatingParts).expression =
          (Synthesis.ofParts ⟨[], []⟩ "this".toList parts).expression → imitatingParts = parts := by
  have hroot : IsPath "this".toList := by decide
  have hparts : LegibleParts imitatingParts := ⟨rfl, by decide, by decide⟩
  exact ⟨hroot, hparts, fun parts =>
    expression_decodes.1 "this".toList ⟨[], []⟩ ⟨[], []⟩ imitatingParts parts hroot hparts⟩

end Term
end MarkupBinding
