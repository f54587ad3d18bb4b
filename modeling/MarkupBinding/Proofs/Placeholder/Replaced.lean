import MarkupBinding.Proofs.Placeholder.Restore

/-!
# Restoring any text

What a protection is asked to restore need not be what it protected: placeholders may have been
repeated, moved, or put next to digits, stems and each other. Still a mark is only at the front of a
placeholder, so two places at which placeholders stand never overlap, and nothing that looks like one
goes over the place where another begins. All of them are found by one search, and swapped back at once.

* `Marks.behind_of_read?`: no placeholder begins inside of what is read.
* `Marks.places_apart`: two placeholders in a text do not overlap.
* `Marks.exists_replaced`: what is left of a text when the known placeholders are swapped back.
* `restore_replaces`: what restoring does to any text.
-/

namespace MarkupBinding

/-- A piece of a cut is a piece of it with more literal text before it. -/
theorem Text.Interleaved.exists_piece_behind {α : Type} {cut : Text.Interleaved α} {literal : Text}
    {first last : List (Text × α)} {hit : α} (h : cut.pieces = first ++ (literal, hit) :: last)
    (text : Text) (write : α → Text) :
    ∃ first' literal', (cut.behind text).pieces = first' ++ (literal', hit) :: last ∧
      render write ⟨first', literal'⟩ = text ++ render write ⟨first, literal⟩ := by
  obtain ⟨pieces, tail⟩ := cut
  obtain rfl : pieces = first ++ (literal, hit) :: last := h
  cases first with
  | nil => exact ⟨[], text ++ literal, rfl, rfl⟩
  | cons piece first =>
    exact ⟨(text ++ piece.1, piece.2) :: first, literal, rfl, by simp [render]⟩

namespace Placeholder

open Text (isDecimal)

/-- Wherever one of the words stands in a text, the cut has it as a piece: the text before it is that of
the pieces before. -/
def Covers (words : List Text) (text : Text) (cut : Text.Interleaved (Text × Text)) : Prop :=
  ∀ before word after, word ∈ words → text = before ++ word ++ after →
    ∃ first literal insert last, cut.pieces = first ++ (literal, word, insert) :: last ∧
      Text.Interleaved.render (·.1) ⟨first, literal⟩ = before

section Covers

variable {words : List Text} {front text : Text} {cut : Text.Interleaved (Text × Text)}

/-- Literal text goes before a cut if no word begins in it. -/
theorem Covers.behind (h : Covers words text cut)
    (hfront : ∀ before word after, word ∈ words → front ++ text = before ++ word ++ after →
      ∃ between, before = front ++ between ∧ text = between ++ word ++ after) :
    Covers words (front ++ text) (cut.behind front) := by
  intro before word after hword hplace
  obtain ⟨between, rfl, hbehind⟩ := hfront before word after hword hplace
  obtain ⟨first, literal, other, last, hpieces, hfirst⟩ := h _ _ _ hword hbehind
  obtain ⟨first', literal', hpieces', hfirst'⟩ :=
    Text.Interleaved.exists_piece_behind hpieces front (·.1)
  exact ⟨first', literal', other, last, hpieces', by rw [hfirst', hfirst]⟩

/-- A word goes before a cut as a piece if no other word begins in it. -/
theorem Covers.found (h : Covers words text cut)
    (hfront : ∀ before word after, word ∈ words → front ++ text = before ++ word ++ after →
      before = [] ∧ front = word ∨
        ∃ between, before = front ++ between ∧ text = between ++ word ++ after) (insert : Text) :
    Covers words (front ++ text) ⟨([], front, insert) :: cut.pieces, cut.tail⟩ := by
  intro before word after hword hplace
  rcases hfront before word after hword hplace with ⟨rfl, rfl⟩ | ⟨between, rfl, hbehind⟩
  · exact ⟨[], [], insert, cut.pieces, rfl, rfl⟩
  · obtain ⟨first, literal, other, last, hpieces, hfirst⟩ := h _ _ _ hword hbehind
    refine ⟨([], front, insert) :: first, literal, other, last, by rw [hpieces]; rfl, ?_⟩
    rw [← hfirst]
    simp [Text.Interleaved.render]

end Covers

variable {mark : Char} {rest text : Text}

/-- A mark that is only at the front of a text does not stand again before that text is over. -/
theorem behind_of_mark {inner more before after : Text} (hinner : mark ∉ inner) (hbefore : before ≠ [])
    (h : mark :: inner ++ more = before ++ mark :: after) :
    ∃ between, before = mark :: inner ++ between ∧ more = between ++ mark :: after := by
  rcases List.append_eq_append_iff.1 h with ⟨between, hbetween, hmore⟩ | ⟨between, hbetween, hmore⟩
  · exact ⟨between, hbetween, hmore⟩
  · cases between with
    | nil => exact ⟨[], by simpa using hbetween.symm, by simpa using hmore.symm⟩
    | cons c between =>
      obtain ⟨rfl, -⟩ := List.cons.inj hmore
      obtain ⟨first, before, rfl⟩ := List.exists_cons_of_ne_nil hbefore
      obtain ⟨-, hinside⟩ := List.cons.inj hbetween
      exact absurd (by simp [hinside]) hinner

namespace Marks

variable (h : Marks mark rest)
include h

/-- What is read as a placeholder has its mark only at the front. -/
theorem eq_cons_of_read? {hit after : Text} (hread : read? (mark :: rest) text = some (hit, after)) :
    ∃ inner, hit = mark :: inner ∧ mark ∉ inner := by
  unfold read? at hread
  split at hread
  · cases hread
  · next inside _ =>
    simp only at hread
    split at hread
    · split at hread
      · cases hread
      · cases hread
        refine ⟨rest ++ inside.takeWhile isDecimal ++ ['_'], rfl, ?_⟩
        simp only [List.mem_append, List.mem_singleton, not_or]
        refine ⟨⟨h.once, fun hmem => ?_⟩, h.notLine⟩
        have hdecimal := List.mem_takeWhile_imp hmem
        rw [h.notDecimal] at hdecimal
        cases hdecimal
    · cases hread

/-- No placeholder begins inside of what is read: it is just that, or stands behind it. -/
theorem behind_of_read? {hit behind before after : Text} {n : Nat}
    (hread : read? (mark :: rest) (before ++ token (mark :: rest) n ++ after) = some (hit, behind)) :
    before = [] ∧ hit = token (mark :: rest) n ∧ behind = after ∨
      ∃ between, before = hit ++ between ∧ behind = between ++ token (mark :: rest) n ++ after := by
  by_cases hbefore : before = []
  · subst hbefore
    rw [List.nil_append, read?_token] at hread
    cases hread
    exact .inl ⟨rfl, rfl, rfl⟩
  · obtain ⟨inner, rfl, hinner⟩ := h.eq_cons_of_read? hread
    obtain ⟨other, hother, _⟩ := h.token_eq n
    have htext := (eq_append_of_read? hread).1
    rw [hother, List.append_assoc, List.cons_append] at htext
    obtain ⟨between, hbetween, hbehind⟩ := behind_of_mark hinner hbefore htext.symm
    refine .inr ⟨between, hbetween, ?_⟩
    rw [hbehind, hother, List.append_assoc, List.cons_append]

/-- Two places at which placeholders stand are the same, or one is over where the other begins. -/
theorem places_apart {m n : Nat} {before after before' after' : Text}
    (hfirst : text = before ++ token (mark :: rest) m ++ after)
    (hsecond : text = before' ++ token (mark :: rest) n ++ after') :
    before = before' ∧ m = n ∨ before ++ token (mark :: rest) m <+: before' ∨
      before' ++ token (mark :: rest) n <+: before := by
  -- The place that is further to the front has some text before the other one begins.
  have hapart : ∀ {m n : Nat} {between after after' : Text},
      token (mark :: rest) m ++ after = between ++ token (mark :: rest) n ++ after' →
        between = [] ∧ m = n ∨ token (mark :: rest) m <+: between := by
    intro m n between after after' heq
    have hread := read?_token (mark :: rest) m after
    rw [heq] at hread
    rcases h.behind_of_read? hread with ⟨hnil, hsame, _⟩ | ⟨more, hmore, _⟩
    · exact .inl ⟨hnil, token_injective _ hsame⟩
    · exact .inr ⟨more, hmore.symm⟩
  have heq := hfirst.symm.trans hsecond
  rw [List.append_assoc, List.append_assoc] at heq
  rcases List.append_eq_append_iff.1 heq with ⟨between, rfl, hbetween⟩ | ⟨between, rfl, hbetween⟩
  · rw [← List.append_assoc] at hbetween
    rcases hapart hbetween with ⟨rfl, rfl⟩ | hfront
    · exact .inl ⟨(List.append_nil _).symm, rfl⟩
    · exact .inr (.inl ((List.prefix_append_right_inj before).2 hfront))
  · rw [← List.append_assoc] at hbetween
    rcases hapart hbetween with ⟨rfl, rfl⟩ | hfront
    · exact .inl ⟨List.append_nil _, rfl⟩
    · exact .inr (.inr ((List.prefix_append_right_inj before').2 hfront))

/-- Where a placeholder is read, another one begins there too and is the same, or stands behind it. -/
theorem placed_behind_hit {hit behind before after : Text} {n : Nat}
    (hread : (recognizer (mark :: rest)).read (hit ++ behind) = some (hit, behind))
    (hplace : hit ++ behind = before ++ token (mark :: rest) n ++ after) :
    before = [] ∧ hit = token (mark :: rest) n ∨
      ∃ between, before = hit ++ between ∧
        behind = between ++ token (mark :: rest) n ++ after := by
  rw [hplace] at hread
  exact (h.behind_of_read? hread).imp_left fun ⟨hnil, hsame, _⟩ => ⟨hnil, hsame⟩

omit h in
/-- Where no placeholder is read, none begins. -/
theorem placed_behind_literal {c : Char} {text before after : Text} {n : Nat}
    (hread : (recognizer (mark :: rest)).read (c :: text) = none)
    (hplace : [c] ++ text = before ++ token (mark :: rest) n ++ after) :
    ∃ between, before = [c] ++ between ∧ text = between ++ token (mark :: rest) n ++ after := by
  cases before with
  | nil =>
    rw [show c :: text = token (mark :: rest) n ++ after from hplace] at hread
    cases hread.symm.trans (read?_token (mark :: rest) n after)
  | cons d before =>
    obtain ⟨rfl, hlater⟩ := List.cons.inj hplace
    exact ⟨before, rfl, hlater⟩

/-- A placeholder that stands in a text is found there. -/
theorem mem_hits_of_within {n : Nat} (hwithin : token (mark :: rest) n <:+: text) :
    token (mark :: rest) n ∈ ((recognizer (mark :: rest)).cut text).hits := by
  obtain ⟨before, after, htext⟩ := hwithin
  induction text using Text.Recognizer.cut_induction (r := recognizer (mark :: rest))
    generalizing before with
  | nil =>
    rw [List.append_assoc, List.append_eq_nil_iff, List.append_eq_nil_iff] at htext
    exact absurd htext.2.1 (token_ne_nil _ n)
  | @found text hit behind hread ih =>
    rw [Text.Recognizer.cut_of_read hread]
    obtain rfl := (eq_append_of_read? hread).1
    rcases h.placed_behind_hit hread htext.symm with ⟨_, hsame⟩ | ⟨between, _, hbehind⟩
    · exact List.mem_cons.2 (.inl hsame.symm)
    · exact List.mem_cons_of_mem _ (ih between hbehind.symm)
  | @literal c text hread ih =>
    rw [Text.Recognizer.cut_cons hread, Text.Interleaved.hits_behind]
    obtain ⟨between, _, hbehind⟩ := placed_behind_literal hread htext.symm
    exact ih between hbehind.symm

/-- Whatever stands in a text, it can be cut so that the pieces are the known placeholders in it, all
of them; when what is read in it is swapped, these are, and the rest stays. -/
theorem exists_replaced {inserts : Entries Text}
    (hnames : ∀ name ∈ inserts.names, ∃ n, name = token (mark :: rest) n) (text : Text) :
    ∃ cut : Text.Interleaved (Text × Text), cut.render (·.1) = text ∧
      ((recognizer (mark :: rest)).cut text).render (fun t => (inserts.get? t).getD t) =
        cut.render (·.2) ∧
      (∀ hit ∈ cut.hits, hit ∈ inserts) ∧ Covers inserts.names text cut := by
  induction text using Text.Recognizer.cut_induction (r := recognizer (mark :: rest)) with
  | nil =>
    refine ⟨⟨[], []⟩, rfl, ?_, List.forall_mem_nil _, ?_⟩
    · rw [Text.Recognizer.cut_nil]
      rfl
    · intro before word after hword htext
      obtain ⟨n, rfl⟩ := hnames word hword
      have hnil := (List.append_eq_nil_iff.1 (List.append_eq_nil_iff.1 htext.symm).1).2
      exact absurd hnil (token_ne_nil _ n)
  | @found text hit behind hread ih =>
    obtain ⟨cut, hrender, hrestore, hhits, hcovers⟩ := ih
    rw [Text.Recognizer.cut_of_read hread]
    obtain rfl := (eq_append_of_read? hread).1
    have hfront : ∀ before word after, word ∈ inserts.names → hit ++ behind = before ++ word ++ after →
        before = [] ∧ hit = word ∨
          ∃ between, before = hit ++ between ∧ behind = between ++ word ++ after := by
      intro before word after hword hplace
      obtain ⟨n, rfl⟩ := hnames word hword
      exact h.placed_behind_hit hread hplace
    cases hknown : inserts.get? hit with
    | some insert =>
      refine ⟨⟨([], hit, insert) :: cut.pieces, cut.tail⟩, ?_, ?_, ?_, hcovers.found hfront insert⟩
      · rw [← hrender]
        simp [Text.Interleaved.render]
      · unfold Text.Interleaved.render at hrestore ⊢
        simp only [List.flatMap_cons, List.append_assoc, hknown, Option.getD_some] at hrestore ⊢
        rw [hrestore]
      · exact List.forall_mem_cons.2 ⟨Entries.mem_of_get? hknown, hhits⟩
    | none =>
      refine ⟨cut.behind hit, ?_, ?_, ?_, hcovers.behind fun before word after hword hplace => ?_⟩
      · rw [Text.Interleaved.render_behind, hrender]
      · rw [Text.Interleaved.render_behind, ← hrestore]
        simp [Text.Interleaved.render, hknown]
      · rwa [Text.Interleaved.hits_behind]
      · refine (hfront before word after hword hplace).resolve_left ?_
        rintro ⟨-, rfl⟩
        rw [← Entries.isSome_get?_iff, hknown] at hword
        cases hword
  | @literal c text hread ih =>
    obtain ⟨cut, hrender, hrestore, hhits, hcovers⟩ := ih
    rw [Text.Recognizer.cut_cons hread]
    have hfront : ∀ before word after, word ∈ inserts.names → [c] ++ text = before ++ word ++ after →
        ∃ between, before = [c] ++ between ∧ text = between ++ word ++ after := by
      intro before word after hword hplace
      obtain ⟨n, rfl⟩ := hnames word hword
      exact placed_behind_literal hread hplace
    refine ⟨cut.behind [c], ?_, ?_, ?_, hcovers.behind hfront⟩
    · rw [Text.Interleaved.render_behind, hrender, List.singleton_append]
    · rw [Text.Interleaved.render_behind, Text.Interleaved.render_behind, hrestore]
    · rwa [Text.Interleaved.hits_behind]

end Marks
end Placeholder

namespace Protection

open Placeholder

/-- Whatever is protected, all placeholders are made from the stem. -/
theorem exists_token_of_mem_names {stem : Text} {d : Delimiters} {html name : Text}
    (h : name ∈ (protect { delimiters := d, stem } html).2.inserts.names) :
    ∃ n, name = token stem n := by
  obtain ⟨pieces, numbers, hswapped, -, hinserts⟩ := exists_swapped stem d html
  rw [hinserts, hswapped.names_eq] at h
  obtain ⟨n, _, heq⟩ := List.mem_map.1 h
  exact ⟨n, heq.symm⟩

/-- A text is known to hold a placeholder just if one stands in it. -/
theorem containsPlaceholder_iff {mark : Char} {rest : Text} (hmarks : Marks mark rest) {p : Protection}
    (hstem : p.stem = mark :: rest)
    (hnames : ∀ name ∈ p.inserts.names, ∃ n, name = token (mark :: rest) n) (text : Text) :
    p.containsPlaceholder text = true ↔ ∃ token ∈ p.inserts.names, token <:+: text := by
  unfold containsPlaceholder placeholders
  rw [hstem, Bool.and_eq_true, List.any_eq_true]
  constructor
  · rintro ⟨-, t, ht, hknown⟩
    have hwithin : id t <:+: text :=
      Text.Recognizer.infix_of_mem_hits (fun hread => (eq_append_of_read? hread).1) ht
    exact ⟨t, Entries.isSome_get?_iff.1 hknown, hwithin⟩
  · rintro ⟨t, ht, hwithin⟩
    obtain ⟨n, rfl⟩ := hnames t ht
    refine ⟨?_, _, hmarks.mem_hits_of_within hwithin, Entries.isSome_get?_iff.2 ht⟩
    unfold isActive
    rw [Bool.not_eq_true', List.isEmpty_eq_false_iff]
    intro hnil
    rw [hnil] at ht
    cases ht

/-- **Restoring any text.** After a fresh protection, whatever text is restored: it can be cut into
literal text and all the placeholders that stand in it, and restoring writes for each of them its
insert and leaves the literal text as it is. No two places at which placeholders stand overlap, and the
text is known to hold a placeholder just if one stands in it. -/
theorem restore_replaces (d : Delimiters) (html text : Text) :
    let p := (protect { delimiters := d } html).2
    (∃ cut : Text.Interleaved (Text × Text),
      cut.render (·.1) = text ∧ p.restore text = cut.render (·.2) ∧
        (∀ hit ∈ cut.hits, hit ∈ p.inserts) ∧ Covers p.inserts.names text cut) ∧
    (∀ token ∈ p.inserts.names, ∀ other ∈ p.inserts.names, ∀ before after before' after',
      text = before ++ token ++ after → text = before' ++ other ++ after' →
        before = before' ∧ token = other ∨ before ++ token <+: before' ∨
          before' ++ other <+: before) ∧
    (p.containsPlaceholder text = true ↔ ∃ token ∈ p.inserts.names, token <:+: text) := by
  intro p
  have hmarks : Marks 'h' "tmlbind_".toList := ⟨by decide, by decide, by decide⟩
  have hstem : p.stem = 'h' :: "tmlbind_".toList := rfl
  have hnames : ∀ name ∈ p.inserts.names, ∃ n, name = token ('h' :: "tmlbind_".toList) n :=
    fun name hname => exists_token_of_mem_names hname
  refine ⟨?_, ?_, containsPlaceholder_iff hmarks hstem hnames text⟩
  · rw [restore_eq, placeholders, hstem]
    exact hmarks.exists_replaced hnames text
  · intro first hfirst second hsecond before after before' after' hplace hplace'
    obtain ⟨m, rfl⟩ := hnames first hfirst
    obtain ⟨n, rfl⟩ := hnames second hsecond
    rcases hmarks.places_apart hplace hplace' with ⟨hsame, rfl⟩ | hapart
    · exact .inl ⟨hsame, rfl⟩
    · exact .inr hapart

/-- A stem before a placeholder, digits behind it, and a placeholder that was never made. -/
example :
    let d : Delimiters := ⟨"\x7b\x7b".toList, "\x7d\x7d".toList⟩
    (protect { delimiters := d } "\x7b\x7ba\x7d\x7d".toList).2.restore
        "htmlbind_htmlbind_1_2_htmlbind_3_".toList =
      "htmlbind_\x7b\x7ba\x7d\x7d2_htmlbind_3_".toList := by
  decide +kernel

end Protection
end MarkupBinding
