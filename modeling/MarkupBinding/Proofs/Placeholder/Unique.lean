import MarkupBinding.Proofs.Placeholder.Covered
import MarkupBinding.Proofs.Tree.Occurrences

/-!
# Placeholders in written documents

A placeholder stands once in the markup that it was put into, and it has no sign of markup. So when
that markup is parsed and written, the placeholder stands there at most once, or twice if it is part of
the name of an element, which is written in both tags. A further one could only come about where the
parser puts two texts together.

* `count_placeholders_le`: what restoring swaps back.
* `timesIn_protect`: where a placeholder was put.
* `minted_in_reprint`: where it stands in the end.
-/

namespace MarkupBinding
namespace Protection

open Placeholder
open Text (timesIn Crosses)

/-- Restoring swaps a placeholder back at most as often as it stands in the text. -/
theorem count_placeholders_le (p : Protection) {token : Text} (htoken : token ≠ []) (text : Text) :
    (p.placeholders text).hits.count token ≤ timesIn token text := by
  unfold placeholders
  induction text using Text.Recognizer.cut_induction (r := recognizer p.stem) with
  | nil =>
    rw [Text.Recognizer.cut_nil]
    exact Nat.zero_le _
  | @found text hit rest hread ih =>
    obtain ⟨htext, _⟩ := eq_append_of_read? hread
    have hparts := Text.timesIn_add_le htoken hit rest
    rw [Text.Recognizer.cut_of_read hread, htext]
    show (hit :: ((recognizer p.stem).cut rest).hits).count token ≤ _
    rw [List.count_cons]
    by_cases heq : hit = token
    · have hself := Text.timesIn_self_pos htoken
      rw [if_pos (beq_iff_eq.2 heq)]
      rw [heq] at hparts ⊢
      omega
    · rw [if_neg (by simpa using heq)]
      omega
  | @literal c text hread ih =>
    rw [Text.Recognizer.cut_cons hread, Text.Interleaved.hits_behind]
    exact Nat.le_trans ih (Text.timesIn_le_of_within htoken (List.suffix_cons c text).isInfix)

variable {d : Delimiters} {html : Text}

/-- A placeholder of the usual stem has no sign of markup. -/
theorem notMem_signs (n : Nat) : Text.Holds (· ∉ token "htmlbind_".toList n) Tree.signs := by
  have hsigns : Tree.signs.all (fun c => c ∉ "htmlbind_".toList ∧ Text.isDecimal c = false) = true := by
    decide
  intro c hc
  obtain ⟨hstem, hdecimal⟩ := of_decide_eq_true (List.all_eq_true.1 hsigns c hc)
  have hline : c ≠ '_' := by
    rintro rfl
    exact hstem (by decide)
  exact notMem_token hstem hdecimal hline n

/-- It stands once in the markup that it was put into. -/
theorem timesIn_protect {t : Text} (ht : t ∈ (protect { delimiters := d } html).2.inserts.names) :
    (∃ n, t = token "htmlbind_".toList n) ∧ timesIn t (protect { delimiters := d } html).1 = 1 := by
  have hmarks : Marks 'h' "tmlbind_".toList := ⟨by decide, by decide, by decide⟩
  obtain ⟨pieces, numbers, h, hmarkup, hinserts⟩ := exists_swapped "htmlbind_".toList d html
  rw [hinserts] at ht
  have hmem := ht
  rw [h.names_eq] at hmem
  obtain ⟨n, hn, rfl⟩ := List.mem_map.1 hmem
  have hcount := hmarks.timesIn_protected
    (fun piece hmem hwithin => h.free n hn (hwithin.trans (h.infix_of_mem hmem)))
    (fun hwithin => h.free n hn (hwithin.trans h.tail_within))
    (fun piece hmem => (h.exists_token hmem).imp fun _ => And.right)
  rw [h.tokens, ← h.names_eq] at hcount
  refine ⟨⟨n, rfl⟩, ?_⟩
  rw [hmarkup]
  exact hcount.trans (List.count_eq_one_of_mem h.nodup_names ht)

/-- **Placeholders stay apart.** A placeholder of a fresh protection that does not lie across a seam,
where the parser puts two texts together, stands at most twice in what is parsed and written of the
protected markup, and at most once if it is in no name of an element. So restoring puts its insert back
that often at most. -/
theorem minted_in_reprint (d : Delimiters) (html : Text) (xhtml sections : Bool) :
    let (markup, p) := protect { delimiters := d } html
    let written := Tree.reprint xhtml sections markup
    ∀ token ∈ p.inserts.names,
      (∀ seam ∈ Tree.seams markup sections, ¬ Crosses token seam.1 seam.2) →
        (p.placeholders written).hits.count token ≤ timesIn token written ∧
          timesIn token written ≤ 2 ∧
            ((∀ name ∈ Tree.elementNamesAll (Tree.parse markup false sections),
              ¬ token <:+: name) → timesIn token written ≤ 1) := by
  have honce : ∀ t ∈ (protect { delimiters := d } html).2.inserts.names, _ ∧ _ :=
    fun t ht => timesIn_protect ht
  generalize protect { delimiters := d } html = result at honce ⊢
  obtain ⟨markup, p⟩ := result
  intro t ht hseams
  obtain ⟨⟨n, rfl⟩, honce⟩ := honce t ht
  simp only at honce
  have hword := token_ne_nil "htmlbind_".toList n
  have hsigns := notMem_signs n
  have hparsed := Tree.times_parse_le hword hsigns hseams
  have hwritten := @Tree.times_reprint_le _ hword hsigns _ xhtml _ hseams
  have hnames := Tree.sumAll_le_sumAll (Content.nameTimes_le (token "htmlbind_".toList n))
    (Tree.parse markup false sections)
  refine ⟨count_placeholders_le p hword _, by omega, ?_⟩
  intro hnone
  rw [Tree.sumAll_nameTimes_eq_zero hnone] at hwritten
  omega

/-- A template insert in the name of an element, and another behind an end tag that is dropped. -/
def insertInName : Text := "<b\x7b\x7bt\x7d\x7d>1</x>\x7b\x7bu\x7d\x7d".toList

/-- The digit before the dropped end tag is not taken for a part of a placeholder, and only the first
insert is in a name. -/
theorem minted_in_reprint_insertInName :
    let (markup, p) := protect { delimiters := doubleBraces } insertInName
    let first := token "htmlbind_".toList 1
    let second := token "htmlbind_".toList 2
    p.inserts.names = [first, second] ∧ Tree.seams markup = [(['1'], second)] ∧
      timesIn first (Tree.reprint false false markup) ≤ 2 ∧
        timesIn second (Tree.reprint false false markup) ≤ 1 := by
  have hminted := minted_in_reprint doubleBraces insertInName false false
  have hfirst := hminted (token "htmlbind_".toList 1) (by decide +kernel) (by decide +kernel)
  have hsecond := hminted (token "htmlbind_".toList 2) (by decide +kernel) (by decide +kernel)
  exact ⟨by decide +kernel, by decide +kernel, hfirst.2.1, hsecond.2.2 (by decide +kernel)⟩

/-- The name of an element is written in its start tag and in its end tag, so a placeholder that is part
of it stands there twice. -/
theorem minted_in_reprint_twice :
    let (markup, p) := protect { delimiters := doubleBraces } "<a\x7b\x7bt\x7d\x7d>".toList
    let first := token "htmlbind_".toList 1
    first ∈ p.inserts.names ∧ timesIn first (Tree.reprint false false markup) = 2 := by
  decide +kernel

end Protection
end MarkupBinding
