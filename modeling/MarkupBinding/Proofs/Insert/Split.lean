import MarkupBinding.Proofs.Insert.Expression
import MarkupBinding.Proofs.Insert.Pattern
import MarkupBinding.Proofs.Text.Leftmost

/-!
# The parts of a text

A text falls into literal text and binding inserts in turn. What is read as an insert is one that the
regular expression for binding inserts matches there, with the shortest expression that there is, and
with that expression the longest; and where it matches, something is read. So a text is cut at the
first place where the regular expression matches, and again behind each insert, until no part of what
is left is matched.

* `formed_of_read?`: what is read is an insert as it can be written.
* `read?_markup`: an insert that stands at the front of a text is read, or one that comes before it.
* `Decomposes`: what a cut into literal text and binding inserts is.
* `decomposes_split`: the parts of a text are of that kind.
-/

namespace MarkupBinding
namespace BindingInsert

open Text (isBlank)

variable {closing text : Text}

/-! ## What is read is an insert -/

/-- Before the closing delimiter only blanks are passed over. -/
theorem isBlank_of_readClosing? {trail rest : Text}
    (h : readClosing? closing text = some (trail, rest)) : ∀ c ∈ trail, isBlank c = true := by
  have hnil : ∀ {text trail : Text}, (closing.isPrefixOf? text).map (fun rest => (([] : Text), rest)) =
      some (trail, rest) → ∀ c ∈ trail, isBlank c = true := by
    intro text trail hmap
    obtain ⟨_, _, heq⟩ := Option.map_eq_some_iff.1 hmap
    cases heq
    exact List.forall_mem_nil _
  induction text generalizing trail with
  | nil => exact hnil h
  | cons c more ih =>
    unfold readClosing? at h
    split at h
    · next hblank =>
      split at h
      · next hmore =>
        cases h
        exact List.forall_mem_cons.2 ⟨hblank, ih hmore⟩
      · exact hnil h
    · exact hnil h

/-- An expression stays on its line, and blanks stand behind it. -/
theorem line_of_readTail? {tail trail rest : Text}
    (h : readTail? closing text = some (tail, trail, rest)) :
    '\n' ∉ tail ∧ ∀ c ∈ trail, isBlank c = true := by
  induction text generalizing tail with
  | nil =>
    unfold readTail? at h
    split at h
    · next hclosing =>
      cases h
      exact ⟨List.not_mem_nil, isBlank_of_readClosing? hclosing⟩
    · cases h
  | cons c text ih =>
    unfold readTail? at h
    split at h
    · next hclosing =>
      cases h
      exact ⟨List.not_mem_nil, isBlank_of_readClosing? hclosing⟩
    · simp only at h
      split at h
      · cases h
      · next hc =>
        obtain ⟨⟨tail', trail', rest'⟩, htail, heq⟩ := Option.map_eq_some_iff.1 h
        cases heq
        obtain ⟨hline, htrail⟩ := ih htail
        exact ⟨List.not_mem_cons_of_ne_of_not_mem (Ne.symm hc) hline, htrail⟩

/-- What is read is an insert as it can be written. -/
theorem formed_of_read? {d : Delimiters} {rest : Text} {insert : BindingInsert}
    (h : read? d text = some (insert, rest)) : insert.Formed := by
  unfold read? at h
  split at h
  · cases h
  · next inside _ =>
    split at h
    · cases h
    · next first after hdrop =>
      obtain ⟨⟨tail, trail, rest'⟩, htail, heq⟩ := Option.map_eq_some_iff.1 h
      cases heq
      obtain ⟨hline, htrail⟩ := line_of_readTail? htail
      have hsolid : isBlank first = false := by
        have hhead := List.head?_dropWhile_not isBlank inside
        rwa [hdrop] at hhead
      refine ⟨fun c hc => List.mem_takeWhile_imp hc, ⟨first, rfl, hsolid⟩, ?_, htrail⟩
      refine List.not_mem_cons_of_ne_of_not_mem ?_ hline
      rintro rfl
      exact absurd hsolid (by decide)

/-! ## An insert is read -/

/-- A closing delimiter is read, and with all the blanks before it that there are. -/
theorem readClosing?_append {trail : Text} (closing : Text) (htrail : ∀ c ∈ trail, isBlank c = true)
    (rest : Text) :
    ∃ trail' rest', readClosing? closing (trail ++ (closing ++ rest)) = some (trail', rest') ∧
      trail.length ≤ trail'.length := by
  induction trail with
  | nil =>
    have hstarts : closing.isPrefixOf? (closing ++ rest) = some rest :=
      Text.isPrefixOf?_eq_some_iff.2 rfl
    rw [List.nil_append]
    generalize closing ++ rest = text at hstarts
    cases text with
    | nil =>
      unfold readClosing?
      rw [hstarts]
      exact ⟨[], rest, rfl, Nat.le_refl 0⟩
    | cons c more =>
      unfold readClosing?
      rw [hstarts]
      split
      · split
        · exact ⟨_, _, rfl, Nat.zero_le _⟩
        · exact ⟨[], rest, rfl, Nat.le_refl 0⟩
      · exact ⟨[], rest, rfl, Nat.le_refl 0⟩
  | cons c trail ih =>
    obtain ⟨hblank, htrail⟩ := List.forall_mem_cons.1 htrail
    obtain ⟨trail', rest', hread, hle⟩ := ih htrail
    exact ⟨c :: trail', rest', readClosing?_cons hblank hread, Nat.succ_le_succ hle⟩

/-- The rest of an expression is read as far as the first place where a closing delimiter follows. -/
theorem readTail?_append {more trail : Text} (closing : Text) (hline : '\n' ∉ more)
    (htrail : ∀ c ∈ trail, isBlank c = true) (rest : Text) :
    ∃ tail trail' rest',
      readTail? closing (more ++ (trail ++ (closing ++ rest))) = some (tail, trail', rest') ∧
        tail.length ≤ more.length ∧ (tail.length = more.length → trail.length ≤ trail'.length) := by
  induction more with
  | nil =>
    obtain ⟨trail', rest', hread, hle⟩ := readClosing?_append closing htrail rest
    refine ⟨[], trail', rest', ?_, Nat.le_refl 0, fun _ => hle⟩
    unfold readTail?
    rw [List.nil_append, hread]
  | cons c more ih =>
    obtain ⟨hc, hline⟩ := List.ne_and_not_mem_of_not_mem_cons hline
    obtain ⟨tail, trail', rest', hread, hle, hsame⟩ := ih hline
    rw [List.cons_append, readTail?.eq_def]
    cases hclosing : readClosing? closing (c :: (more ++ (trail ++ (closing ++ rest)))) with
    | some found =>
      obtain ⟨trail₀, rest₀⟩ := found
      exact ⟨[], trail₀, rest₀, rfl, Nat.zero_le _, fun heq => absurd heq (by simp)⟩
    | none =>
      refine ⟨c :: tail, trail', rest', ?_, Nat.succ_le_succ hle, fun heq => hsame (Nat.succ.inj heq)⟩
      simp only
      rw [if_neg (Ne.symm hc), hread, Option.map_some]

/-- Where an insert stands at the front of a text, one is read whose expression is no longer; if it is
the same, all of the insert is read. -/
theorem read?_markup {d : Delimiters} {insert : BindingInsert} (h : insert.Formed) (rest : Text) :
    ∃ found rest', read? d (insert.markup d ++ rest) = some (found, rest') ∧
      found.expression.length ≤ insert.expression.length ∧
        (found.expression.length = insert.expression.length →
          insert.markup d <+: found.markup d) := by
  obtain ⟨lead, expression, trail⟩ := insert
  obtain ⟨first, hfirst, hsolid⟩ := h.starts
  obtain ⟨more, rfl⟩ := List.head?_eq_some_iff.1 hfirst
  have hline : '\n' ∉ more := fun hmem => h.line (List.mem_cons_of_mem _ hmem)
  obtain ⟨tail, trail', rest', hread, hle, hsame⟩ :=
    readTail?_append d.closing hline h.trail rest
  have htext : markup d ⟨lead, first :: more, trail⟩ ++ rest =
      d.opening ++ (lead ++ first :: (more ++ (trail ++ (d.closing ++ rest)))) := by
    simp [markup, Delimiters.wrap]
  have htake : (lead ++ first :: (more ++ (trail ++ (d.closing ++ rest)))).takeWhile isBlank = lead := by
    rw [List.takeWhile_append_of_pos h.lead, List.takeWhile_cons_of_neg (by simp [hsolid]),
      List.append_nil]
  have hdrop : (lead ++ first :: (more ++ (trail ++ (d.closing ++ rest)))).dropWhile isBlank =
      first :: (more ++ (trail ++ (d.closing ++ rest))) := by
    rw [List.dropWhile_append_of_pos h.lead, List.dropWhile_cons_of_neg (by simp [hsolid])]
  have hfound : read? d (markup d ⟨lead, first :: more, trail⟩ ++ rest) =
      some (⟨lead, first :: tail, trail'⟩, rest') := by
    unfold read?
    rw [Text.isPrefixOf?_eq_some_iff.2 htext]
    simp only [htake, hdrop]
    rw [hread]
    rfl
  refine ⟨_, rest', hfound, Nat.succ_le_succ hle, fun heq => ?_⟩
  -- Both stand at the front of the text, so the shorter one is the beginning of the longer one.
  have hlonger : trail.length ≤ trail'.length := hsame (Nat.succ.inj heq)
  refine List.prefix_of_prefix_length_le (List.prefix_append _ rest)
    ⟨rest', (eq_append_of_read? hfound).symm⟩ ?_
  simp only [List.length_cons] at heq
  simp only [markup, Delimiters.wrap, List.length_append, List.length_cons]
  omega

/-! ## What the regular expression matches -/

variable {d : Delimiters} {expression matched : Text}

/-- What is read is matched. -/
theorem matches_of_read? {rest : Text} {insert : BindingInsert}
    (h : read? d text = some (insert, rest)) :
    Pattern.Matches (Pattern.ofBinding d) insert.expression (insert.markup d) :=
  Pattern.matches_ofBinding_iff.2 ⟨insert, formed_of_read? h, rfl, rfl⟩

/-- Of all matches at a place the one with the shortest expression is read, and of those with this
expression the longest. -/
theorem read?_of_matches (h : Pattern.Matches (Pattern.ofBinding d) expression matched)
    (hfront : matched <+: text) :
    ∃ found rest, read? d text = some (found, rest) ∧ found.expression.length ≤ expression.length ∧
      (found.expression.length = expression.length → matched <+: found.markup d) := by
  obtain ⟨insert, hformed, rfl, rfl⟩ := Pattern.matches_ofBinding_iff.1 h
  obtain ⟨rest, rfl⟩ := hfront
  exact read?_markup hformed rest

/-- A match is not empty. -/
theorem ne_nil_of_matches (h : Pattern.Matches (Pattern.ofBinding d) expression matched) :
    matched ≠ [] := by
  obtain ⟨insert, hformed, rfl, rfl⟩ := Pattern.matches_ofBinding_iff.1 h
  obtain ⟨first, hfirst, _⟩ := hformed.starts
  intro hnil
  simp only [markup, Delimiters.wrap, List.append_eq_nil_iff] at hnil
  rw [hnil.1.2.1.2] at hfirst
  cases hfirst

/-! ## Cuts -/

/-- Inserts are read as they are written. -/
theorem verbatim_recognizer (d : Delimiters) : (recognizer d).Verbatim (markup d) :=
  fun hread => eq_append_of_read? hread

/-- A text as literal text and binding inserts in turn. -/
structure Decomposes (d : Delimiters) (text : Text) (cut : Text.Interleaved BindingInsert) : Prop where
  /-- With the inserts as they were written, the pieces make up the text. -/
  text_eq : cut.render (markup d) = text
  /-- Each insert is a match, blanks stand around its expression, and the expression neither begins nor
  ends with a blank and stays on its line. -/
  inserts : ∀ insert ∈ cut.hits,
    Pattern.Matches (Pattern.ofBinding d) insert.expression (insert.markup d) ∧
      (∀ c ∈ insert.lead ++ insert.trail, isBlank c = true) ∧ insert.expression.Trimmed ∧
        '\n' ∉ insert.expression
  /-- No match at the same place has a shorter expression, and none with this expression is longer. -/
  shortest : ∀ first before insert last, cut.pieces = first ++ (before, insert) :: last →
    ∀ expression matched, Pattern.Matches (Pattern.ofBinding d) expression matched →
      matched <+: insert.markup d ++ Text.Interleaved.render (markup d) ⟨last, cut.tail⟩ →
        insert.expression.length ≤ expression.length ∧
          (insert.expression.length = expression.length → matched <+: insert.markup d)
  /-- No match begins in the literal text before an insert. -/
  leftmost : ∀ first before insert last, cut.pieces = first ++ (before, insert) :: last →
    ∀ front back, before = front ++ back → back ≠ [] →
      ∀ expression matched, Pattern.Matches (Pattern.ofBinding d) expression matched →
        ¬ matched <+: back ++ (insert.markup d ++
          Text.Interleaved.render (markup d) ⟨last, cut.tail⟩)
  /-- No literal text holds a match. -/
  literals : ∀ literal ∈ cut.pieces.map (·.1) ++ [cut.tail],
    ∀ expression matched, Pattern.Matches (Pattern.ofBinding d) expression matched →
      ¬ matched <:+: literal

/-- The cut of a text is of that kind. -/
theorem decomposes_cut (d : Delimiters) (text : Text) :
    Decomposes d text ((recognizer d).cut text) := by
  have hverbatim : (recognizer d).Verbatim (markup d) := verbatim_recognizer d
  -- Where nothing is read, nothing is matched.
  have hnone : ∀ {part expression matched : Text}, (recognizer d).read part = none →
      Pattern.Matches (Pattern.ofBinding d) expression matched → ¬ matched <+: part := by
    intro part expression matched hread hmatches hfront
    obtain ⟨found, rest, hfound, _⟩ := read?_of_matches hmatches hfront
    cases hread.symm.trans hfound
  have hleftmost : ∀ first before insert last,
      ((recognizer d).cut text).pieces = first ++ (before, insert) :: last →
        ∀ front back, before = front ++ back → back ≠ [] →
          ∀ expression matched, Pattern.Matches (Pattern.ofBinding d) expression matched →
            ¬ matched <+: back ++ (insert.markup d ++
              Text.Interleaved.render (markup d) ⟨last, ((recognizer d).cut text).tail⟩) := by
    intro first before insert last hpieces front back hbefore hback expression matched hmatches
    exact hnone ((Text.Recognizer.read_of_pieces hverbatim hpieces).2 front back hbefore hback) hmatches
  refine ⟨Text.Recognizer.render_cut hverbatim text, ?_, ?_, hleftmost, ?_⟩
  · intro insert hinsert
    obtain ⟨inside, rest, hread⟩ := Text.Recognizer.exists_read_of_mem_hits hinsert
    have hformed := formed_of_read? hread
    exact ⟨matches_of_read? hread, List.forall_mem_append.2 ⟨hformed.lead, hformed.trail⟩,
      ⟨hformed.starts, endsSolid_of_read? hread⟩, hformed.line⟩
  · intro first before insert last hpieces expression matched hmatches hfront
    have hread := (Text.Recognizer.read_of_pieces hverbatim hpieces).1
    obtain ⟨found, rest, hfound, hshortest⟩ := read?_of_matches hmatches hfront
    obtain ⟨rfl, -⟩ := Prod.mk.inj (Option.some.inj (hfound.symm.trans hread))
    exact hshortest
  · intro literal hliteral expression matched hmatches hwithin
    obtain ⟨front, back, rfl⟩ := hwithin
    rcases List.mem_append.1 hliteral with hmem | hmem
    · obtain ⟨⟨before, insert⟩, hpiece, hbefore⟩ := List.mem_map.1 hmem
      obtain ⟨first, last, hpieces⟩ := List.append_of_mem hpiece
      simp only at hbefore
      refine hleftmost first before insert last hpieces front (matched ++ back) ?_ ?_ expression matched
        hmatches ?_
      · rw [hbefore, List.append_assoc]
      · exact fun hnil => ne_nil_of_matches hmatches (List.append_eq_nil_iff.1 hnil).1
      · rw [List.append_assoc]
        exact List.prefix_append _ _
    · have htail := List.mem_singleton.1 hmem
      have hback : matched ++ back <:+ ((recognizer d).cut text).tail := by
        rw [← htail, List.append_assoc]
        exact List.suffix_append _ _
      exact hnone (Text.Recognizer.read_eq_none_of_tail hback) hmatches (List.prefix_append _ _)

/-- **The parts of a text.** Whatever the delimiters are, the parts of a text are the literal text and
the expressions of a cut at its binding inserts, in turn. The text is one part just if no part of it is
matched by the regular expression. -/
theorem decomposes_split (d : Delimiters) (text : Text) :
    ∃ cut : Text.Interleaved BindingInsert,
      Decomposes d text cut ∧ split d text = cut.parts (·.expression) ∧
        (cut.pieces = [] ↔ ∀ expression matched,
          Pattern.Matches (Pattern.ofBinding d) expression matched → ¬ matched <:+: text) := by
  have hcut := decomposes_cut d text
  refine ⟨(recognizer d).cut text, hcut, rfl, ?_, ?_⟩
  · intro hnil expression matched hmatches
    have htail : ((recognizer d).cut text).tail = text := by
      have htext := hcut.text_eq
      unfold Text.Interleaved.render at htext
      rwa [hnil] at htext
    refine htail ▸ hcut.literals _ ?_ expression matched hmatches
    exact List.mem_append_right _ (List.mem_singleton.2 rfl)
  · intro hnone
    by_contra hne
    obtain ⟨⟨before, insert⟩, others, hpieces⟩ := List.exists_cons_of_ne_nil hne
    have hmem : insert ∈ ((recognizer d).cut text).hits := by
      unfold Text.Interleaved.hits
      rw [hpieces]
      exact List.mem_cons_self
    exact hnone _ _ (hcut.inserts insert hmem).1
      (Text.Recognizer.infix_of_mem_hits (verbatim_recognizer d) hmem)

/-- The first character of an expression may be the closing delimiter. -/
example : split ⟨['\x7b'], ['\x7d']⟩ "a\x7b \x7d\x7d".toList = [['a'], ['\x7d'], []] := by
  decide +kernel

end BindingInsert
end MarkupBinding
