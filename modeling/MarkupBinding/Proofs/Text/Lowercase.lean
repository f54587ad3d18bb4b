import MarkupBinding.Text.Lowercase

/-!
# Characters that lower case leaves alone

A character that is its own small letter is found again in a text in lower case. So a name that is
known in lower case has none of these characters but those of the lower-case name.

Most letters of the Latin alphabet have no capital but that of the alphabet. A name that is made of
them in lower case is made of them in the lower case of the alphabet alone.

* `lowercase_eq_iff`: the two lower cases are the same for such a name.
-/

namespace MarkupBinding.Text

/-- A character that lower case leaves alone wherever it stands. -/
def IsSmall (c : Char) : Prop := c ≠ 'Σ' ∧ c ≠ 'İ' ∧ smallIn capitalRuns c.toNat = c.toNat

instance (c : Char) : Decidable (IsSmall c) := inferInstanceAs (Decidable (_ ∧ _ ∧ _))

theorem lowercaseBetween_eq {c : Char} (h : IsSmall c) (before after : Text) :
    lowercaseBetween before c after = [c] := by
  rw [lowercaseBetween, if_neg h.1, if_neg h.2.1, h.2.2, Char.ofNat_toNat]

theorem mem_lowercaseAfter {c : Char} (h : IsSmall c) {text : Text} (hc : c ∈ text) :
    ∀ before : Text, c ∈ lowercaseAfter before text := by
  induction text with
  | nil => exact absurd hc List.not_mem_nil
  | cons a text ih =>
    intro before
    rw [lowercaseAfter, List.mem_append]
    rcases List.mem_cons.1 hc with rfl | hc
    · rw [lowercaseBetween_eq h]
      exact .inl List.mem_cons_self
    · exact .inr (ih hc _)

/-- A character that lower case leaves alone is still there in lower case. -/
theorem mem_lowercase {c : Char} (h : IsSmall c) {text : Text} (hc : c ∈ text) :
    c ∈ text.lowercase :=
  mem_lowercaseAfter h hc []

/-- A text of such characters is in lower case. -/
theorem lowercaseAfter_eq_self {text : Text} (h : ∀ c ∈ text, IsSmall c) :
    ∀ before : Text, lowercaseAfter before text = text := by
  induction text with
  | nil => intro _; rfl
  | cons c text ih =>
    intro before
    rw [lowercaseAfter, lowercaseBetween_eq (h c List.mem_cons_self),
      ih (fun a ha => h a (List.mem_cons_of_mem c ha))]
    rfl

theorem lowercase_eq_self {text : Text} (h : ∀ c ∈ text, IsSmall c) : text.lowercase = text :=
  lowercaseAfter_eq_self h []

/-! ## Letters with one capital -/

/-- A small letter whose only capital is that of the Latin alphabet. The Kelvin sign is a second
capital of the letter k. -/
def isLatin (c : Char) : Bool := 97 ≤ c.toNat && c.toNat ≤ 122 && c ≠ 'k'

theorem bounds_of_isLatin {c : Char} (h : isLatin c = true) :
    97 ≤ c.toNat ∧ c.toNat ≤ 122 ∧ c.toNat ≠ 107 := by
  simp only [isLatin, Bool.and_eq_true, decide_eq_true_eq] at h
  refine ⟨h.1.1, h.1.2, fun hk => h.2 ?_⟩
  rw [← Char.ofNat_toNat c, hk]

/-- The small letter of the alphabet, as a code point. -/
theorem toNat_toLower (c : Char) :
    c.toLower.toNat = if 65 ≤ c.toNat ∧ c.toNat ≤ 90 then c.toNat + 32 else c.toNat := by
  delta Char.toLower
  split
  · next hupper =>
    have hlow : 65 ≤ c.toNat := UInt32.le_iff_toNat_le.1 hupper.1
    have hhigh : c.toNat ≤ 90 := UInt32.le_iff_toNat_le.1 hupper.2
    rw [if_pos ⟨hlow, hhigh⟩]
    show (c.val + 32).toNat = c.toNat + 32
    have hval : c.val.toNat ≤ 90 := hhigh
    rw [UInt32.toNat_add, Nat.mod_eq_of_lt]
    · rfl
    · simp
      omega
  · next hupper =>
    rw [if_neg]
    intro h
    exact hupper ⟨UInt32.le_iff_toNat_le.2 h.1, UInt32.le_iff_toNat_le.2 h.2⟩

/-- A code point that has a small letter lies in a run of capitals. -/
theorem smallIn_cases (runs : List CapitalRun) (n : Nat) :
    smallIn runs n = n ∨ ∃ run ∈ runs, smallIn runs n = run.small + (n - run.first) ∧
      run.first ≤ n ∧ n ≤ run.last := by
  induction runs with
  | nil => exact .inl rfl
  | cons run runs ih =>
    rw [smallIn]
    split
    · exact .inl rfl
    · next hfirst =>
      split
      · next hlast =>
        split
        · exact .inr ⟨run, List.mem_cons_self, rfl, Nat.le_of_not_lt hfirst, hlast⟩
        · exact .inl rfl
      · refine ih.imp_right ?_
        rintro ⟨other, hmem, hother⟩
        exact ⟨other, List.mem_cons_of_mem run hmem, hother⟩

/-- Behind the Latin alphabet no capital but the Kelvin sign has a small letter in it. -/
theorem bounds_of_mem_tail : ∀ run ∈ capitalRuns.tail, 122 < run.first ∧
    (122 < run.small ∨ run.small = 107 ∧ run.first = run.last) := by
  have hall : capitalRuns.tail.all (fun run => decide (122 < run.first ∧
      (122 < run.small ∨ run.small = 107 ∧ run.first = run.last))) = true := by decide +kernel
  intro run hrun
  exact of_decide_eq_true (List.all_eq_true.1 hall run hrun)

/-- The two lower cases of a character agree on such a letter. -/
theorem smallIn_eq_iff {letter : Char} (h : isLatin letter = true) (c : Char) :
    smallIn capitalRuns c.toNat = letter.toNat ↔ c.toLower.toNat = letter.toNat := by
  obtain ⟨hlow, hhigh, hk⟩ := bounds_of_isLatin h
  have hsplit : capitalRuns = ⟨65, 90, 1, 97⟩ :: capitalRuns.tail := rfl
  rw [toNat_toLower, hsplit, smallIn]
  simp only [Nat.mod_one, if_true]
  by_cases hbelow : c.toNat < 65
  · rw [if_pos hbelow, if_neg (by omega)]
  by_cases habove : c.toNat ≤ 90
  · rw [if_neg hbelow, if_pos habove, if_pos ⟨by omega, habove⟩]
    omega
  rw [if_neg hbelow, if_neg habove, if_neg (by omega)]
  rcases smallIn_cases capitalRuns.tail c.toNat with hsame | ⟨run, hrun, hsmall, hfirst, hlast⟩
  · rw [hsame]
  · have hbounds := bounds_of_mem_tail run hrun
    rw [hsmall]
    omega

/-- Such a letter as what becomes of a character in lower case. -/
theorem ofNat_smallIn_eq_iff {letter : Char} (h : isLatin letter = true) (c : Char) :
    Char.ofNat (smallIn capitalRuns c.toNat) = letter ↔ c.toLower = letter := by
  have hlow := (bounds_of_isLatin h).1
  rw [← Char.toNat_inj, ← Char.toNat_inj (c := c.toLower), ← smallIn_eq_iff h]
  by_cases hvalid : (smallIn capitalRuns c.toNat).isValidChar
  · rw [Char.ofNat, dif_pos hvalid]
    rfl
  · -- Out of the characters there is no small letter.
    rw [Char.ofNat, dif_neg hvalid]
    refine iff_of_false (fun hzero => ?_) (fun hsmall => hvalid (hsmall ▸ letter.valid))
    rw [← hzero] at hlow
    exact absurd hlow (by decide)

/-- The two characters that are no matter of the table have no letter of the alphabet. -/
theorem exists_not_isLatin {c : Char} (hc : c = 'Σ' ∨ c = 'İ') (before after : Text) :
    (∃ d ∈ lowercaseBetween before c after, isLatin d = false) ∧ isLatin c.toLower = false := by
  rcases hc with rfl | rfl
  · refine ⟨?_, by decide⟩
    rw [lowercaseBetween, if_pos rfl]
    split
    · exact ⟨'ς', List.mem_cons_self, by decide⟩
    · exact ⟨'σ', List.mem_cons_self, by decide⟩
  · exact ⟨⟨Char.ofNat 0x307, List.mem_cons_of_mem _ List.mem_cons_self, by decide⟩, by decide⟩

theorem lowercaseBetween_append_eq_iff {letter : Char} {word : Text}
    (hword : ∀ c ∈ letter :: word, isLatin c = true) (before after : Text) (c : Char) (later : Text) :
    lowercaseBetween before c after ++ later = letter :: word ↔
      c.toLower = letter ∧ later = word := by
  have hletter := hword letter List.mem_cons_self
  by_cases hc : c = 'Σ' ∨ c = 'İ'
  · obtain ⟨⟨d, hd, hlatin⟩, hlower⟩ := exists_not_isLatin hc before after
    refine iff_of_false (fun heq => ?_) (fun heq => ?_)
    · rw [hword d (heq ▸ List.mem_append_left later hd)] at hlatin
      cases hlatin
    · rw [heq.1, hletter] at hlower
      cases hlower
  · obtain ⟨hsigma, hdotted⟩ := not_or.1 hc
    rw [lowercaseBetween, if_neg hsigma, if_neg hdotted, List.singleton_append, List.cons.injEq,
      ofNat_smallIn_eq_iff hletter]

theorem lowercaseAfter_eq_iff {word : Text} (hword : ∀ c ∈ word, isLatin c = true) (text : Text) :
    ∀ before : Text, lowercaseAfter before text = word ↔ text.map Char.toLower = word := by
  induction text generalizing word with
  | nil => exact fun _ => Iff.rfl
  | cons c text ih =>
    intro before
    cases word with
    | nil =>
      refine iff_of_false (fun h => ?_) (List.cons_ne_nil _ _)
      have hnil := (List.append_eq_nil_iff.1 h).1
      unfold lowercaseBetween at hnil
      grind
    | cons letter word =>
      rw [lowercaseAfter, lowercaseBetween_append_eq_iff hword, List.map_cons, List.cons.injEq,
        ih (fun d hd => hword d (List.mem_cons_of_mem letter hd))]

/-- A name in the letters of which there is one capital each: its two lower cases are the same. -/
theorem lowercase_eq_iff {word : Text} (hword : ∀ c ∈ word, isLatin c = true) (text : Text) :
    text.lowercase = word ↔ text.map Char.toLower = word :=
  lowercaseAfter_eq_iff hword text []

end MarkupBinding.Text
