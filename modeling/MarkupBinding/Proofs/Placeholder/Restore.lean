import MarkupBinding.Proofs.Entries
import MarkupBinding.Proofs.Placeholder.Token
import MarkupBinding.Proofs.Text.Cut

/-!
# Restoring protected text

Where the first character of the stem occurs nowhere else in a placeholder, it marks every place at
which a placeholder can begin. No placeholder goes across such a mark, so those that were put into a
text are found one by one, and what stands between them is searched as if it stood alone.

* `Marks.stops`: no placeholder goes across a mark.
* `render_protected`: placeholders are swapped back one by one.
* `timesIn_protected`: each stands where it was put and nowhere else.
* `restore_protect`: nothing is lost or mixed up by protection.
-/

namespace MarkupBinding

/-- At how many places of a text another one begins. -/
def Text.timesIn (text within : Text) : Nat := within.tails.countP (text.isPrefixOf ·)

namespace Placeholder

open Text (isDecimal timesIn)

/-- The first character of a stem marks where a placeholder begins. -/
structure Marks (mark : Char) (rest : Text) : Prop where
  once : mark ∉ rest
  notDecimal : isDecimal mark = false
  notLine : mark ≠ '_'

variable {mark : Char} {rest text border : Text}

/-- What is behind a mark does not matter for a beginning without marks. -/
theorem prefix_of_prefix_append (hmark : mark ∉ rest) (h : rest <+: text ++ mark :: border) :
    rest <+: text := by
  obtain ⟨behind, heq⟩ := h
  rcases List.append_eq_append_iff.1 heq with ⟨more, hrest, _⟩ | ⟨more, hrest, hborder⟩
  · exact ⟨more, hrest.symm⟩
  · cases more with
    | nil =>
      rw [List.append_nil] at hrest
      exact ⟨[], by rw [hrest, List.append_nil]⟩
    | cons c more =>
      obtain ⟨rfl, _⟩ := List.cons.inj hborder
      rw [hrest] at hmark
      exact absurd (List.mem_append_right _ List.mem_cons_self) hmark

/-- So the whole stem begins a text only if that text is long enough. -/
theorem stem_prefix_append_iff (hmark : mark ∉ rest) (hne : text ≠ []) :
    mark :: rest <+: text ++ mark :: border ↔ mark :: rest <+: text := by
  refine ⟨fun h => ?_, fun h => h.trans (List.prefix_append _ _)⟩
  cases text with
  | nil => exact absurd rfl hne
  | cons c text =>
    obtain ⟨rfl, htail⟩ := List.cons_prefix_cons.1 h
    exact List.cons_prefix_cons.2 ⟨rfl, prefix_of_prefix_append hmark htail⟩

/-- A run of characters stops at a character that is not of its kind. -/
theorem takeWhile_append_stop {p : Char → Bool} (hmark : p mark = false) (text border : Text) :
    (text ++ mark :: border).takeWhile p = text.takeWhile p := by
  rw [List.takeWhile_append, List.takeWhile_cons_of_neg (by simp [hmark]), List.append_nil]
  split
  · next hlength => exact ((List.takeWhile_prefix p).eq_of_length hlength).symm
  · rfl

theorem dropWhile_append_stop {p : Char → Bool} (hmark : p mark = false) (text border : Text) :
    (text ++ mark :: border).dropWhile p = text.dropWhile p ++ mark :: border := by
  rw [List.dropWhile_append, List.dropWhile_cons_of_neg (by simp [hmark])]
  split
  · next hempty => rw [List.isEmpty_iff.1 hempty, List.nil_append]
  · rfl

/-! ## Places -/

theorem timesIn_cons (t : Text) (c : Char) (text : Text) :
    timesIn t (c :: text) = timesIn t text + if t.isPrefixOf (c :: text) then 1 else 0 :=
  List.countP_cons

theorem timesIn_eq_zero {t text : Text} (h : ¬ t <:+: text) : timesIn t text = 0 := by
  unfold timesIn
  rw [List.countP_eq_zero]
  intro suffix hsuffix hstarts
  exact h ((List.isPrefixOf_iff_prefix.1 hstarts).isInfix.trans
    ((List.mem_tails _ _).1 hsuffix).isInfix)

/-- The places in two parts, if the second part begins with a mark. -/
theorem timesIn_append_mark {inner : Text} (hinner : mark ∉ inner) (text border : Text) :
    timesIn (mark :: inner) (text ++ mark :: border) =
      timesIn (mark :: inner) text + timesIn (mark :: inner) (mark :: border) := by
  induction text with
  | nil => exact (Nat.zero_add _).symm
  | cons c text ih =>
    have hsame : (mark :: inner).isPrefixOf (c :: (text ++ mark :: border)) =
        (mark :: inner).isPrefixOf (c :: text) := by
      rw [Bool.eq_iff_iff, List.isPrefixOf_iff_prefix, List.isPrefixOf_iff_prefix]
      exact stem_prefix_append_iff hinner (List.cons_ne_nil c text)
    rw [List.cons_append, timesIn_cons _ c, ih, hsame, timesIn_cons _ c text]
    omega

/-- Nothing that begins with a mark begins in a text without marks. -/
theorem timesIn_append_of_notMem {inner : Text} (hmark : mark ∉ text) (behind : Text) :
    timesIn (mark :: inner) (text ++ behind) = timesIn (mark :: inner) behind := by
  induction text with
  | nil => rfl
  | cons c text ih =>
    obtain ⟨hne, hmark⟩ := List.ne_and_not_mem_of_not_mem_cons hmark
    have hfalse : (mark :: inner).isPrefixOf (c :: (text ++ behind)) = false := by
      rw [List.isPrefixOf, beq_false_of_ne hne, Bool.false_and]
    rw [List.cons_append, timesIn_cons, ih hmark, hfalse]
    rfl

namespace Marks

variable (h : Marks mark rest)
include h

/-- No placeholder goes across a mark. -/
theorem stops (border : Text) : (recognizer (mark :: rest)).Stops (mark :: border) := by
  intro text hne
  show read? (mark :: rest) (text ++ mark :: border) = (read? (mark :: rest) text).map _
  unfold read?
  by_cases hstem : mark :: rest <+: text
  · obtain ⟨inside, rfl⟩ := hstem
    have hhere : (mark :: rest).isPrefixOf? (mark :: rest ++ inside) = some inside :=
      Text.isPrefixOf?_eq_some_iff.2 rfl
    have hthere : (mark :: rest).isPrefixOf? (mark :: rest ++ inside ++ mark :: border) =
        some (inside ++ mark :: border) :=
      Text.isPrefixOf?_eq_some_iff.2 (List.append_assoc ..)
    rw [hhere, hthere]
    simp only [takeWhile_append_stop h.notDecimal, dropWhile_append_stop h.notDecimal]
    cases inside.dropWhile isDecimal with
    | nil =>
      -- The digits reach to the mark, which is no low line.
      have hline := h.notLine
      simp [hline]
    | cons c behind =>
      by_cases hline : c = '_'
      · subst hline
        simp only [List.cons_append]
        split <;> rfl
      · simp [hline]
  · have hnone : ∀ {t : Text}, ¬ mark :: rest <+: t → (mark :: rest).isPrefixOf? t = none := by
      intro t hnot
      cases heq : (mark :: rest).isPrefixOf? t with
      | none => rfl
      | some behind => exact absurd ⟨behind, (Text.isPrefixOf?_eq_some_iff.1 heq).symm⟩ hnot
    rw [hnone hstem, hnone (mt (stem_prefix_append_iff h.once hne).1 hstem)]
    rfl

/-- A placeholder holds one mark, at its front. -/
theorem token_eq (n : Nat) : ∃ inner, token (mark :: rest) n = mark :: inner ∧ mark ∉ inner := by
  refine ⟨rest ++ Text.ofNat n ++ ['_'], rfl, ?_⟩
  simp only [List.mem_append, List.mem_singleton, not_or]
  refine ⟨⟨h.once, fun hmem => ?_⟩, h.notLine⟩
  have hdecimal := isDecimal_of_mem_ofNat hmem
  rw [h.notDecimal] at hdecimal
  cases hdecimal

/-! ## Swapping back -/

/-- Placeholders that stand between pieces of literal text are swapped back one by one. -/
theorem render_protected {write : Text → Text} {pieces : List (Text × Text × Text)} {tail : Text}
    (hliteral : ∀ piece ∈ pieces,
      ((recognizer (mark :: rest)).cut piece.1).render write = piece.1)
    (htail : ((recognizer (mark :: rest)).cut tail).render write = tail)
    (htokens : ∀ piece ∈ pieces,
      ∃ n, piece.2.1 = token (mark :: rest) n ∧ write piece.2.1 = piece.2.2) :
    ((recognizer (mark :: rest)).cut
        (pieces.flatMap (fun piece => piece.1 ++ piece.2.1) ++ tail)).render write =
      pieces.flatMap (fun piece => piece.1 ++ piece.2.2) ++ tail := by
  induction pieces with
  | nil => exact htail
  | cons piece pieces ih =>
    obtain ⟨before, tok, insert⟩ := piece
    obtain ⟨n, rfl, hwrite⟩ := htokens _ List.mem_cons_self
    obtain ⟨inner, hinner, _⟩ := h.token_eq n
    have ih := ih (fun piece hpiece => hliteral piece (List.mem_cons_of_mem _ hpiece))
      fun piece hpiece => htokens piece (List.mem_cons_of_mem _ hpiece)
    simp only [List.flatMap_cons, List.append_assoc]
    generalize pieces.flatMap (fun piece => piece.1 ++ piece.2.1) ++ tail = behind at ih ⊢
    have hborder : token (mark :: rest) n ++ behind = mark :: (inner ++ behind) := by
      rw [hinner, List.cons_append]
    have hread : (recognizer (mark :: rest)).read (mark :: (inner ++ behind)) =
        some (token (mark :: rest) n, behind) := by
      rw [← hborder]
      exact read?_token _ n behind
    rw [hborder, Text.Recognizer.render_cut_append (h.stops _), hliteral _ List.mem_cons_self,
      Text.Recognizer.cut_of_read hread, ← ih]
    simp only at hwrite
    simp [Text.Interleaved.render, hwrite]

/-! ## Counting -/

/-- Each placeholder stands where it was put and nowhere else, if it is not part of the literal
text. -/
theorem timesIn_protected {m : Nat} {pieces : List (Text × Text × Text)} {tail : Text}
    (hliteral : ∀ piece ∈ pieces, ¬ token (mark :: rest) m <:+: piece.1)
    (htail : ¬ token (mark :: rest) m <:+: tail)
    (htokens : ∀ piece ∈ pieces, ∃ n, piece.2.1 = token (mark :: rest) n) :
    timesIn (token (mark :: rest) m)
        (pieces.flatMap (fun piece => piece.1 ++ piece.2.1) ++ tail) =
      (pieces.map fun piece => piece.2.1).count (token (mark :: rest) m) := by
  obtain ⟨inner, hinner, hmark⟩ := h.token_eq m
  induction pieces with
  | nil => exact timesIn_eq_zero htail
  | cons piece pieces ih =>
    obtain ⟨before, tok, insert⟩ := piece
    obtain ⟨n, rfl⟩ := htokens _ List.mem_cons_self
    obtain ⟨other, hother, hnot⟩ := h.token_eq n
    have ih := ih (fun piece hpiece => hliteral piece (List.mem_cons_of_mem _ hpiece))
      fun piece hpiece => htokens piece (List.mem_cons_of_mem _ hpiece)
    have hbefore := timesIn_eq_zero (hliteral _ List.mem_cons_self)
    simp only [List.flatMap_cons, List.append_assoc, List.map_cons, List.count_cons]
    generalize pieces.flatMap (fun piece => piece.1 ++ piece.2.1) ++ tail = behind at ih ⊢
    have hfront : (token (mark :: rest) m).isPrefixOf (token (mark :: rest) n ++ behind) =
        (token (mark :: rest) n == token (mark :: rest) m) := by
      rw [Bool.eq_iff_iff, List.isPrefixOf_iff_prefix, beq_iff_eq]
      constructor
      · intro hstarts
        rw [eq_of_token_front hstarts]
      · intro heq
        rw [heq]
        exact List.prefix_append _ _
    rw [← ih]
    rw [hother] at hfront ⊢
    rw [hinner] at hfront hbefore ⊢
    rw [List.cons_append, timesIn_append_mark hmark, hbefore, timesIn_cons,
      timesIn_append_of_notMem hnot, ← hfront, List.cons_append, Nat.zero_add]

end Marks
end Placeholder

namespace TemplateInsert

/-- The pieces of a text are the text. -/
theorem render_cut (d : Delimiters) (text : Text) : (cut d text).render id = text := by
  unfold cut
  split
  · have hall : ∀ text : Text, (everywhere text).flatMap (fun piece => piece.1 ++ piece.2) =
        text := by
      intro text
      induction text with
      | nil => rfl
      | cons c text ih =>
        rw [everywhere, List.flatMap_cons, List.flatMap_cons, ih]
        rfl
    show (everywhere text).flatMap (fun piece => piece.1 ++ piece.2) ++ [] = text
    rw [List.append_nil]
    exact hall text
  · exact Text.Recognizer.render_cut (fun hread => eq_append_of_read? hread) text

end TemplateInsert

namespace Protection

open Placeholder
open Text (timesIn)

/-- A text whose template inserts were swapped for placeholders: each piece is literal text, a
placeholder, and the insert that it stands for. -/
structure Swapped (stem : Text) (d : Delimiters) (text : Text) (pieces : List (Text × Text × Text))
    (numbers : List Nat) : Prop where
  cut : pieces.map (fun piece => (piece.1, piece.2.2)) = (TemplateInsert.cut d text).pieces
  tokens : pieces.map (fun piece => piece.2.1) = numbers.map (token stem)
  nodup : numbers.Nodup
  free : ∀ n ∈ numbers, ¬ token stem n <:+: text

/-- What a fresh protection does to a text. -/
theorem exists_swapped (stem : Text) (d : Delimiters) (text : Text) :
    ∃ pieces numbers, Swapped stem d text pieces numbers ∧
      (protect { delimiters := d, stem } text).1 =
        pieces.flatMap (fun piece => piece.1 ++ piece.2.1) ++ (TemplateInsert.cut d text).tail ∧
      (protect { delimiters := d, stem } text).2.inserts = pieces.map (fun piece => piece.2) := by
  obtain ⟨hcut, numbers, htokens, hpairwise, hfree⟩ :=
    assign_spec stem (occurrences stem text) 0 (TemplateInsert.cut d text).pieces
  exact ⟨_, numbers, ⟨hcut, htokens, (List.pairwise_cons.1 hpairwise).2.imp Nat.ne_of_lt,
    fun n hn hwithin => hfree n hn (mem_occurrences_of_within hwithin)⟩, rfl, rfl⟩

namespace Swapped

variable {stem text : Text} {d : Delimiters} {pieces : List (Text × Text × Text)}
  {numbers : List Nat} (h : Swapped stem d text pieces numbers)
include h

/-- The pieces make up the text. -/
theorem text_eq :
    pieces.flatMap (fun piece => piece.1 ++ piece.2.2) ++ (TemplateInsert.cut d text).tail =
      text := by
  have hrender := TemplateInsert.render_cut d text
  unfold Text.Interleaved.render at hrender
  rwa [← h.cut, List.flatMap_map] at hrender

/-- What stands between the placeholders is part of the text. -/
theorem infix_of_mem {piece : Text × Text × Text} (hmem : piece ∈ pieces) : piece.1 <:+: text := by
  obtain ⟨front, behind, heq⟩ := List.append_of_mem hmem
  have htext := h.text_eq
  rw [heq, List.flatMap_append, List.flatMap_cons] at htext
  rw [← htext]
  exact ⟨front.flatMap fun piece => piece.1 ++ piece.2.2, piece.2.2 ++
    (behind.flatMap fun piece => piece.1 ++ piece.2.2) ++ (TemplateInsert.cut d text).tail, by simp⟩

theorem tail_within : (TemplateInsert.cut d text).tail <:+: text := by
  nth_rewrite 2 [← h.text_eq]
  exact (List.suffix_append _ _).isInfix

/-- Each placeholder was made with one of the numbers. -/
theorem exists_token {piece : Text × Text × Text} (hmem : piece ∈ pieces) :
    ∃ n ∈ numbers, piece.2.1 = token stem n := by
  have hmem : piece.2.1 ∈ numbers.map (token stem) := by
    rw [← h.tokens]
    exact List.mem_map_of_mem hmem
  obtain ⟨n, hn, heq⟩ := List.mem_map.1 hmem
  exact ⟨n, hn, heq.symm⟩

theorem names_eq : Entries.names (pieces.map fun piece => piece.2) = numbers.map (token stem) :=
  List.map_map.trans h.tokens

/-- No two inserts have the same placeholder. -/
theorem nodup_names : (Entries.names (pieces.map fun piece => piece.2)).Nodup := by
  rw [h.names_eq]
  exact h.nodup.map (token_injective stem)

/-- Nothing in the text stands for an insert. -/
theorem get?_eq_none {t : Text} (ht : t <:+: text) :
    Entries.get? (pieces.map fun piece => piece.2) t = none := by
  refine Entries.get?_eq_none ?_
  rw [h.names_eq]
  intro hmem
  obtain ⟨n, hn, rfl⟩ := List.mem_map.1 hmem
  exact h.free n hn ht

/-- A part of the text is written as it is. -/
theorem render_of_within {part : Text} (hpart : part <:+: text) :
    ((recognizer stem).cut part).render
      (fun t => (Entries.get? (pieces.map fun piece => piece.2) t).getD t) = part := by
  have hverbatim : (recognizer stem).Verbatim id := fun hread => (eq_append_of_read? hread).1
  refine Text.Recognizer.render_cut_of_hits hverbatim ?_
  intro hit hmem
  have hin : hit <:+: text := (Text.Recognizer.infix_of_mem_hits hverbatim hmem).trans hpart
  rw [h.get?_eq_none hin]
  rfl

end Swapped

/-- What a protection restores, active or not: of an inactive one no placeholder is known. -/
theorem restore_eq (p : Protection) (text : Text) :
    p.restore text = (p.placeholders text).render fun t => (p.inserts.get? t).getD t := by
  unfold restore isActive
  split
  · rfl
  · next hinactive =>
    have hnil : p.inserts = [] := by simpa using hinactive
    have hverbatim : (recognizer p.stem).Verbatim id := fun hread => (eq_append_of_read? hread).1
    rw [hnil]
    exact (Text.Recognizer.render_cut hverbatim text).symm

/-- **Protection.** Where the first character of the stem occurs nowhere else in a placeholder, a
fresh protection gives the text back that it took the template inserts from. Its placeholders are
all different; none of them stands in the text, and each stands once in the protected text. -/
theorem restore_protect {mark : Char} {rest : Text} (hmarks : Marks mark rest) (d : Delimiters)
    (text : Text) :
    let (markup, p) := protect { delimiters := d, stem := mark :: rest } text
    p.restore markup = text ∧ p.inserts.names.Nodup ∧
      ∀ token ∈ p.inserts.names, ¬ token <:+: text ∧ timesIn token markup = 1 := by
  obtain ⟨pieces, numbers, h, hmarkup, hinserts⟩ := exists_swapped (mark :: rest) d text
  have hstem : (protect { delimiters := d, stem := mark :: rest } text).2.stem = mark :: rest := rfl
  generalize protect { delimiters := d, stem := mark :: rest } text = result at hmarkup hinserts hstem
  obtain ⟨markup, p⟩ := result
  simp only at hmarkup hinserts hstem ⊢
  rw [hmarkup, hinserts]
  refine ⟨?_, h.nodup_names, ?_⟩
  · rw [restore_eq, placeholders, hinserts, hstem]
    refine (hmarks.render_protected (fun piece hmem => h.render_of_within (h.infix_of_mem hmem))
      (h.render_of_within h.tail_within) ?_).trans h.text_eq
    intro piece hmem
    obtain ⟨n, _, heq⟩ := h.exists_token hmem
    have hentry : (piece.2.1, piece.2.2) ∈ pieces.map fun piece => piece.2 :=
      List.mem_map_of_mem hmem
    exact ⟨n, heq, by rw [Entries.get?_of_mem h.nodup_names hentry]; rfl⟩
  · intro t ht
    have hmem := ht
    rw [h.names_eq] at hmem
    obtain ⟨n, hn, rfl⟩ := List.mem_map.1 hmem
    refine ⟨h.free n hn, ?_⟩
    rw [hmarks.timesIn_protected
      (fun piece hmem hwithin => h.free n hn (hwithin.trans (h.infix_of_mem hmem)))
      (fun hwithin => h.free n hn (hwithin.trans h.tail_within))
      (fun piece hmem => (h.exists_token hmem).imp fun _ => And.right), h.tokens, ← h.names_eq]
    exact List.count_eq_one_of_mem h.nodup_names ht

/-- Literal text that looks like the first placeholder, and an insert with digits and a low line
behind it. -/
def seams : Text := "htmlbind_1_\x7b\x7ba\x7d\x7d0_".toList

/-- The usual stem has a mark, so the insert is found again in spite of what is around it. -/
theorem restore_protect_seams :
    Marks 'h' "tmlbind_".toList ∧
      let (markup, p) := protect { delimiters := ⟨"\x7b\x7b".toList, "\x7d\x7d".toList⟩ } seams
      p.restore markup = seams ∧ p.inserts.names.Nodup ∧
        ∀ token ∈ p.inserts.names, ¬ token <:+: seams ∧ timesIn token markup = 1 := by
  have hmarks : Marks 'h' "tmlbind_".toList := ⟨by decide, by decide, by decide⟩
  exact ⟨hmarks, restore_protect hmarks ⟨"\x7b\x7b".toList, "\x7d\x7d".toList⟩ seams⟩

end Protection
end MarkupBinding
