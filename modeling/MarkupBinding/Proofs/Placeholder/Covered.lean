import MarkupBinding.Proofs.Placeholder.Restore
import MarkupBinding.Proofs.Text.Mark

/-!
# Markup covered by template inserts

A binder writes template inserts where it found binding inserts. Then the protected inserts of the
document come back, some of them inside of those. The next protection still takes all opening braces
away: an insert that is cut short by another one in it leaves closing braces behind, and no opening
ones.

* `Covered`: every opening brace begins a template insert.
* `Tame`: the cut at template inserts leaves no opening brace.
* `tame_render`: covered markup is tame once its placeholders are swapped for inserts.
* `protect_restore`: so the next protection leaves no opening brace.
-/

namespace MarkupBinding

/-- The usual delimiters of template inserts. -/
def doubleBraces : Delimiters := ⟨['\x7b', '\x7b'], ['\x7d', '\x7d']⟩

/-- A text in which every opening brace begins a template insert without opening braces. The flag says
whether the text begins inside of one. -/
inductive Covered : Bool → Text → Prop
  | nil : Covered false []
  | char {inside : Bool} {c : Char} {text : Text} (hc : c ≠ '\x7b') (h : Covered inside text) :
      Covered inside (c :: text)
  | opening {text : Text} (h : Covered true text) : Covered false ('\x7b' :: '\x7b' :: text)
  | closing {text : Text} (h : Covered false text) : Covered true ('\x7d' :: '\x7d' :: text)

namespace Covered

variable {inside : Bool} {text other : Text}

theorem append (h : Covered inside text) (hother : Covered false other) :
    Covered inside (text ++ other) := by
  induction h with
  | nil => exact hother
  | char hc _ ih => exact .char hc ih
  | opening _ ih => exact .opening ih
  | closing _ ih => exact .closing ih

/-- Text without opening braces may stand before covered text. -/
theorem prepend (h : Covered inside other) (htext : '\x7b' ∉ text) : Covered inside (text ++ other) := by
  induction text with
  | nil => exact h
  | cons c text ih =>
    obtain ⟨hc, htext⟩ := List.ne_and_not_mem_of_not_mem_cons htext
    exact .char (Ne.symm hc) (ih htext)

theorem of_notMem (h : '\x7b' ∉ text) : Covered false text := by
  simpa using nil.prepend h

theorem wrap (h : '\x7b' ∉ text) : Covered false (doubleBraces.wrap text) := by
  have hinside : Covered true (text ++ ['\x7d', '\x7d']) := (closing nil).prepend h
  simpa [doubleBraces, Delimiters.wrap] using opening hinside

/-- Behind a part without braces the text is as covered as before. -/
theorem drop {front : Text} (hfront : ∀ c ∈ front, c ≠ '\x7b' ∧ c ≠ '\x7d')
    (h : Covered inside (front ++ text)) : Covered inside text := by
  induction front with
  | nil => exact h
  | cons c front ih =>
    obtain ⟨⟨hopen, hclose⟩, hfront⟩ := List.forall_mem_cons.1 hfront
    refine ih hfront ?_
    rw [List.cons_append] at h
    generalize front ++ text = behind at h ⊢
    cases h with
    | char _ h => exact h
    | opening => exact absurd rfl hopen
    | closing => exact absurd rfl hclose

end Covered

namespace TemplateInsert

variable {text insert rest : Text}

/-- A text that has no opening brace outside of its template inserts. -/
def Tame (text : Text) : Prop := '\x7b' ∉ ((recognizer doubleBraces).cut text).render fun _ => []

/-- An insert that ends where its delimiters first close, whatever stands behind it. -/
def Closed (insert : Text) : Prop :=
  ∀ rest, (recognizer doubleBraces).read (insert ++ rest) = some (insert, rest)

theorem read?_eq_none {c : Char} (hc : c ≠ '\x7b') (text : Text) :
    (recognizer doubleBraces).read (c :: text) = none := by
  show read? doubleBraces (c :: text) = none
  have hopening : doubleBraces.opening.isPrefixOf? (c :: text) = none := by
    simp [doubleBraces, List.isPrefixOf?, Ne.symm hc]
  unfold read?
  rw [hopening]
  split <;> rfl

theorem read?_opening (text : Text) :
    (recognizer doubleBraces).read ('\x7b' :: '\x7b' :: text) =
      (Text.cut? doubleBraces.closing text).map fun (body, rest) =>
        (doubleBraces.wrap body, rest) := rfl

/-- What is read is an opening delimiter and the text up to the first closing one. -/
theorem exists_body_of_read? (h : (recognizer doubleBraces).read text = some (insert, rest)) :
    ∃ body, text = '\x7b' :: '\x7b' :: (body ++ doubleBraces.closing ++ rest) ∧
      insert = doubleBraces.wrap body ∧
        Text.cut? doubleBraces.closing (body ++ doubleBraces.closing ++ rest) = some (body, rest) := by
  have hread : read? doubleBraces text = some (insert, rest) := h
  unfold read? at hread
  split at hread
  · cases hread
  · split at hread
    · cases hread
    · next inside hopening =>
      obtain ⟨⟨body, rest'⟩, hcut, heq⟩ := Option.map_eq_some_iff.1 hread
      cases heq
      have hinside := Text.eq_append_of_cut? hcut
      refine ⟨body, ?_, rfl, hinside ▸ hcut⟩
      rw [Text.isPrefixOf?_eq_some_iff.1 hopening, hinside]
      rfl

/-- It is read again, whatever stands behind it then. -/
theorem closed_of_read? (h : (recognizer doubleBraces).read text = some (insert, rest)) :
    Closed insert := by
  intro other
  obtain ⟨body, _, rfl, hcut⟩ := exists_body_of_read? h
  have hsplit : doubleBraces.wrap body ++ other =
      '\x7b' :: '\x7b' :: (body ++ doubleBraces.closing ++ other) := by
    simp [doubleBraces, Delimiters.wrap]
  rw [hsplit, read?_opening, Text.cut?_of_cut? hcut other]
  rfl

namespace Tame

theorem nil : Tame [] := by
  unfold Tame
  rw [Text.Recognizer.cut_nil]
  exact List.not_mem_nil

theorem cons_iff {c : Char} (hc : c ≠ '\x7b') : Tame (c :: text) ↔ Tame text := by
  unfold Tame
  rw [Text.Recognizer.cut_cons (read?_eq_none hc text), Text.Interleaved.render_behind]
  simp [Ne.symm hc]

theorem prepend (h : Tame text) {front : Text} (hfront : '\x7b' ∉ front) : Tame (front ++ text) := by
  induction front with
  | nil => exact h
  | cons c front ih =>
    obtain ⟨hc, hfront⟩ := List.ne_and_not_mem_of_not_mem_cons hfront
    exact (cons_iff (Ne.symm hc)).2 (ih hfront)

theorem iff_of_read? (h : (recognizer doubleBraces).read text = some (insert, rest)) :
    Tame text ↔ Tame rest := by
  unfold Tame
  rw [Text.Recognizer.cut_of_read h]
  rfl

/-- A tame text is tame behind its first closing delimiter. -/
theorem of_cut? (h : Tame text) {before after : Text}
    (hcut : Text.cut? doubleBraces.closing text = some (before, after)) : Tame after := by
  induction text using Text.Recognizer.cut_induction (r := recognizer doubleBraces)
    generalizing before with
  | nil => cases hcut
  | @found text insert rest hread _ =>
    -- The delimiter is the one at which the insert ends.
    obtain ⟨body, rfl, _, hbody⟩ := exists_body_of_read? hread
    have hopening : ∀ text, ¬ doubleBraces.closing <+: '\x7b' :: text :=
      fun text hstarts => absurd (List.cons_prefix_cons.1 hstarts).1 (by decide)
    rw [Text.cut?_cons_of_not_front (hopening _), Text.cut?_cons_of_not_front (hopening _),
      hbody] at hcut
    cases hcut
    exact (iff_of_read? hread).1 h
  | @literal c text hread ih =>
    have hc : c ≠ '\x7b' := by
      rintro rfl
      unfold Tame at h
      rw [Text.Recognizer.cut_cons hread, Text.Interleaved.render_behind] at h
      exact h List.mem_cons_self
    have htext := (cons_iff hc).1 h
    by_cases hstarts : doubleBraces.closing <+: c :: text
    · obtain ⟨rest, hrest⟩ := hstarts
      obtain ⟨rfl, rfl⟩ := List.cons.inj hrest
      cases hcut
      exact (cons_iff (by decide)).1 htext
    · rw [Text.cut?_cons_of_not_front hstarts] at hcut
      obtain ⟨⟨before', after'⟩, hcut', heq⟩ := Option.map_eq_some_iff.1 hcut
      cases heq
      exact ih htext hcut'

/-- An opening delimiter takes a part of the text that is tame already. -/
theorem opening (h : Tame text) (hclosing : doubleBraces.closing <:+: text) :
    Tame ('\x7b' :: '\x7b' :: text) := by
  obtain ⟨before, after, hcut⟩ := Text.exists_cut? hclosing
  have hread := read?_opening text
  rw [hcut, Option.map_some] at hread
  exact (iff_of_read? hread).2 (h.of_cut? hcut)

theorem closed_append (h : Tame text) (hinsert : Closed insert) : Tame (insert ++ text) :=
  (iff_of_read? (hinsert text)).2 h

end Tame
end TemplateInsert

namespace Placeholder

/-- A character that is neither in the stem nor in a number is in no placeholder. -/
theorem notMem_of_read? {stem text found rest : Text} {c : Char} (hstem : c ∉ stem)
    (hdecimal : Text.isDecimal c = false) (hline : c ≠ '_')
    (h : read? stem text = some (found, rest)) : c ∉ found := by
  unfold read? at h
  split at h
  · cases h
  · simp only at h
    split at h
    · split at h
      · cases h
      · cases h
        intro hmem
        rcases List.mem_append.1 hmem with hmem | hmem
        · rcases List.mem_append.1 hmem with hmem | hmem
          · exact hstem hmem
          · rw [List.mem_takeWhile_imp hmem] at hdecimal
            cases hdecimal
        · exact hline (List.mem_singleton.1 hmem)
    · cases h

/-- A stem without braces. -/
def Braceless (stem : Text) : Prop := '\x7b' ∉ stem ∧ '\x7d' ∉ stem

variable {stem text : Text} (hstem : Braceless stem)
include hstem

theorem Braceless.of_read? {found rest : Text} (h : read? stem text = some (found, rest)) :
    ∀ c ∈ found, c ≠ '\x7b' ∧ c ≠ '\x7d' := by
  intro c hc
  constructor
  · rintro rfl
    exact notMem_of_read? hstem.1 (by decide) (by decide) h hc
  · rintro rfl
    exact notMem_of_read? hstem.2 (by decide) (by decide) h hc

/-- No placeholder begins with a brace. -/
theorem Braceless.read?_eq_none {c : Char} (hc : c = '\x7b' ∨ c = '\x7d') (text : Text) :
    (recognizer stem).read (c :: text) = none := by
  cases hread : (recognizer stem).read (c :: text) with
  | none => rfl
  | some result =>
    obtain ⟨found, rest⟩ := result
    obtain ⟨htext, hne⟩ := eq_append_of_read? hread
    obtain ⟨first, found, rfl⟩ := List.exists_cons_of_ne_nil hne
    obtain ⟨rfl, _⟩ := List.cons.inj htext
    obtain ⟨hopen, hclose⟩ := hstem.of_read? hread _ List.mem_cons_self
    exact absurd hc (not_or.2 ⟨hopen, hclose⟩)

/-- Covered text is tame when its placeholders are swapped for template inserts, and the insert that
it begins in is still closed. -/
theorem tame_render {write : Text → Text} (hwrite : ∀ t, write t = t ∨ TemplateInsert.Closed (write t))
    {inside : Bool} (h : Covered inside text) :
    TemplateInsert.Tame (((recognizer stem).cut text).render write) ∧
      (inside = true → doubleBraces.closing <:+: ((recognizer stem).cut text).render write) := by
  obtain ⟨n, hn⟩ : ∃ n, text.length = n := ⟨_, rfl⟩
  induction n using Nat.strongRecOn generalizing text inside with
  | _ n ih =>
    have hbehind : ∀ {c : Char} {text : Text}, (recognizer stem).read (c :: text) = none →
        ((recognizer stem).cut (c :: text)).render write =
          c :: ((recognizer stem).cut text).render write := by
      intro c text hread
      rw [Text.Recognizer.cut_cons hread, Text.Interleaved.render_behind]
      rfl
    cases hread : (recognizer stem).read text with
    | some result =>
      obtain ⟨found, rest⟩ := result
      have hbraces := hstem.of_read? hread
      have hlater := ((eq_append_of_read? hread).1 ▸ h).drop hbraces
      obtain ⟨htame, hclosing⟩ := ih _ (hn ▸ (recognizer stem).shorter hread) hlater rfl
      have hrender : ((recognizer stem).cut text).render write =
          write found ++ ((recognizer stem).cut rest).render write := by
        rw [Text.Recognizer.cut_of_read hread]
        simp [Text.Interleaved.render]
      rw [hrender]
      refine ⟨?_, fun hinside => (hclosing hinside).trans (List.suffix_append _ _).isInfix⟩
      rcases hwrite found with heq | hclosed
      · rw [heq]
        exact htame.prepend fun hmem => (hbraces _ hmem).1 rfl
      · exact htame.closed_append hclosed
    | none =>
      cases h with
      | nil =>
        rw [Text.Recognizer.cut_nil]
        exact ⟨.nil, fun hinside => by cases hinside⟩
      | @char _ c text hc h =>
        obtain ⟨htame, hclosing⟩ := ih text.length (hn ▸ Nat.lt_succ_self _) h rfl
        rw [hbehind hread]
        exact ⟨(TemplateInsert.Tame.cons_iff hc).2 htame,
          fun hinside => (hclosing hinside).trans (List.suffix_cons _ _).isInfix⟩
      | @opening text h =>
        obtain ⟨htame, hclosing⟩ := ih text.length (by simp at hn; omega) h rfl
        rw [hbehind hread, hbehind (hstem.read?_eq_none (.inl rfl) text)]
        exact ⟨htame.opening (hclosing rfl), fun hinside => by cases hinside⟩
      | @closing text h =>
        obtain ⟨htame, _⟩ := ih text.length (by simp at hn; omega) h rfl
        rw [hbehind hread, hbehind (hstem.read?_eq_none (.inr rfl) text)]
        have hfront : '\x7b' ∉ (['\x7d', '\x7d'] : Text) := by decide
        refine ⟨htame.prepend hfront, fun _ => ?_⟩
        exact ⟨[], _, rfl⟩

end Placeholder

namespace Protection

open Placeholder

variable {stem text : Text}

theorem notMem_token {c : Char} (hstem : c ∉ stem) (hdecimal : Text.isDecimal c = false)
    (hline : c ≠ '_') (n : Nat) : c ∉ token stem n := by
  have hread := read?_token stem n []
  exact notMem_of_read? hstem hdecimal hline hread

/-- The protected form of a tame text has no opening brace. -/
theorem notMem_protect (hstem : Braceless stem) (h : TemplateInsert.Tame text) :
    '\x7b' ∉ (protect { delimiters := doubleBraces, stem } text).1 := by
  obtain ⟨pieces, numbers, hswapped, hmarkup, _⟩ := exists_swapped stem doubleBraces text
  have hcut : TemplateInsert.cut doubleBraces text =
      (TemplateInsert.recognizer doubleBraces).cut text := rfl
  have htame : '\x7b' ∉ pieces.flatMap (fun piece => piece.1 ++ []) ++
      (TemplateInsert.cut doubleBraces text).tail := by
    rw [TemplateInsert.Tame, ← hcut, Text.Interleaved.render, ← hswapped.cut, List.flatMap_map] at h
    exact h
  rw [hmarkup]
  intro hmem
  refine htame ?_
  rcases List.mem_append.1 hmem with hmem | htail
  · obtain ⟨piece, hpiece, hmem⟩ := List.mem_flatMap.1 hmem
    rcases List.mem_append.1 hmem with hbefore | htoken
    · exact List.mem_append_left _
        (List.mem_flatMap.2 ⟨piece, hpiece, List.mem_append_left _ hbefore⟩)
    · obtain ⟨n, _, heq⟩ := hswapped.exists_token hpiece
      rw [heq] at htoken
      exact absurd htoken (notMem_token hstem.1 (by decide) (by decide) n)
  · exact List.mem_append_right _ htail

/-- A protection takes inserts that end where they first close. -/
theorem closed_of_get? {t insert : Text}
    (h : (protect { delimiters := doubleBraces, stem } text).2.inserts.get? t = some insert) :
    TemplateInsert.Closed insert := by
  obtain ⟨pieces, numbers, hswapped, _, hinserts⟩ := exists_swapped stem doubleBraces text
  rw [hinserts] at h
  obtain ⟨piece, hpiece, heq⟩ := List.mem_map.1 (Entries.mem_of_get? h)
  have hhit : piece.2.2 ∈ ((TemplateInsert.recognizer doubleBraces).cut text).hits := by
    have hmem : (piece.1, piece.2.2) ∈ (TemplateInsert.cut doubleBraces text).pieces := by
      rw [← hswapped.cut]
      exact List.mem_map.2 ⟨piece, hpiece, rfl⟩
    exact List.mem_map.2 ⟨_, hmem, rfl⟩
  obtain ⟨inside, rest, hread⟩ := Text.Recognizer.exists_read_of_mem_hits hhit
  rw [heq] at hread
  exact TemplateInsert.closed_of_read? hread

/-- **Protection once more.** When the inserts of a document have come back to covered markup, the
next protection leaves no opening brace. -/
theorem protect_restore (hstem : Braceless stem) {markup : Text} (h : Covered false markup)
    (html : Text) :
    '\x7b' ∉ (protect { delimiters := doubleBraces, stem }
      ((protect { delimiters := doubleBraces, stem } html).2.restore markup)).1 := by
  refine notMem_protect hstem ?_
  rw [restore_eq]
  refine (tame_render hstem (fun t => ?_) h).1
  cases hinsert : (protect { delimiters := doubleBraces, stem } html).2.inserts.get? t with
  | none => exact .inl rfl
  | some insert => exact .inr (closed_of_get? hinsert)

end Protection
end MarkupBinding
