import Mathlib
import MarkupBinding.Placeholder.Protection

/-!
# Placeholders with a number

A placeholder that is made is read back as it was made, whatever stands behind it, so the number can
be told from it. The numbers that a protection gives out go up, and none of them is taken.

* `read?_token`: a placeholder is read back.
* `mem_occurrences_of_within`: every placeholder in a text is among those that are taken.
* `token_firstFree_notMem`: there is a free number among the first ones.
* `assign_spec`: what the inserts of a text are given.
-/

namespace MarkupBinding

namespace Placeholder

open Text (isDecimal)

variable {stem text : Text} {taken : List Text}

/-! ## Numbers -/

theorem ofNat_eq (n : Nat) : Text.ofNat n = Nat.toDigits 10 n := Nat.toList_repr

theorem ofNat_ne_nil (n : Nat) : Text.ofNat n ≠ [] := by
  rw [ofNat_eq]
  exact Nat.toDigits_ne_nil

theorem ofNat_injective : Function.Injective Text.ofNat := by
  intro m n h
  exact Nat.repr_inj.1 (String.toList_injective h)

theorem isDecimal_of_isDigit {c : Char} (h : c.isDigit = true) : isDecimal c = true := by
  obtain ⟨hlow, hhigh⟩ : 48 ≤ c.toNat ∧ c.toNat ≤ 57 := by
    simpa [Char.isDigit, UInt32.le_iff_toNat_le] using h
  unfold isDecimal Text.digitRanges Text.Ranges.contains
  rw [if_neg (by omega), if_pos hhigh]

theorem isDecimal_of_mem_ofNat {n : Nat} {c : Char} (h : c ∈ Text.ofNat n) : isDecimal c = true := by
  rw [ofNat_eq] at h
  exact isDecimal_of_isDigit (Nat.isDigit_of_mem_toDigits (by decide) (by decide) h)

theorem isDecimal_line : isDecimal '_' = false := by decide

/-! ## Reading -/

/-- A placeholder is read back, whatever stands behind it. -/
theorem read?_token (stem : Text) (n : Nat) (rest : Text) :
    read? stem (token stem n ++ rest) = some (token stem n, rest) := by
  have hdigits : ∀ c ∈ Text.ofNat n, isDecimal c = true := fun c hc => isDecimal_of_mem_ofNat hc
  have hstarts : stem.isPrefixOf? (token stem n ++ rest) =
      some (Text.ofNat n ++ '_' :: rest) := by
    rw [Text.isPrefixOf?_eq_some_iff]
    simp [token]
  have htake : (Text.ofNat n ++ '_' :: rest).takeWhile isDecimal = Text.ofNat n := by
    rw [List.takeWhile_append_of_pos hdigits, List.takeWhile_cons_of_neg (by simp [isDecimal_line]),
      List.append_nil]
  have hdrop : (Text.ofNat n ++ '_' :: rest).dropWhile isDecimal = '_' :: rest := by
    rw [List.dropWhile_append_of_pos hdigits, List.dropWhile_cons_of_neg (by simp [isDecimal_line])]
  unfold read?
  rw [hstarts]
  simp only [htake, hdrop]
  rw [if_neg (ofNat_ne_nil n)]
  rfl

/-- The number can be told from a placeholder. -/
theorem token_injective (stem : Text) : Function.Injective (token stem) := by
  intro m n h
  have h := List.append_cancel_right h
  exact ofNat_injective (List.append_cancel_left h)

theorem token_ne_nil (stem : Text) (n : Nat) : token stem n ≠ [] := by
  simp [token]

/-- Of two placeholders neither is the beginning of the other. -/
theorem eq_of_token_front {m n : Nat} {rest : Text}
    (h : token stem m <+: token stem n ++ rest) : m = n := by
  obtain ⟨rest', hrest⟩ := h
  have hread := read?_token stem m rest'
  rw [hrest, read?_token] at hread
  exact (token_injective stem (Prod.mk.inj (Option.some.inj hread)).1).symm

/-! ## Free numbers -/

/-- Every placeholder in a text is among those that are taken. -/
theorem mem_occurrences_of_within {n : Nat} (h : token stem n <:+: text) :
    token stem n ∈ occurrences stem text := by
  obtain ⟨before, after, heq⟩ := h
  induction before generalizing text with
  | nil =>
    have hread := read?_token stem n after
    rw [List.nil_append] at heq
    rw [heq] at hread
    cases text with
    | nil =>
      rw [List.append_eq_nil_iff] at heq
      exact absurd heq.1 (token_ne_nil stem n)
    | cons c text =>
      rw [occurrences, hread]
      exact List.mem_cons_self
  | cons c before ih =>
    rw [← heq, List.cons_append, List.cons_append, occurrences]
    split
    · exact List.mem_cons_of_mem _ (ih rfl)
    · exact ih rfl

/-- A number is free, or it comes after as many taken ones as there are tries. -/
theorem firstFree_spec (stem : Text) (taken : List Text) (tries n : Nat) :
    n ≤ firstFree stem taken tries n ∧
      (token stem (firstFree stem taken tries n) ∉ taken ∨
        firstFree stem taken tries n = n + tries ∧
          ∀ m, n ≤ m → m < n + tries → token stem m ∈ taken) := by
  induction tries generalizing n with
  | zero => exact ⟨Nat.le_refl n, .inr ⟨rfl, by omega⟩⟩
  | succ tries ih =>
    rw [firstFree]
    split
    · next htaken =>
      obtain ⟨hle, hspec⟩ := ih (n + 1)
      refine ⟨by omega, hspec.imp_right ?_⟩
      rintro ⟨heq, hall⟩
      refine ⟨by omega, fun m hlow hhigh => ?_⟩
      rcases Nat.eq_or_lt_of_le hlow with rfl | hlt
      · exact List.contains_iff_mem.1 htaken
      · exact hall m hlt (by omega)
    · next hfree =>
      exact ⟨Nat.le_refl n, .inl fun hmem => hfree (List.contains_iff_mem.2 hmem)⟩

/-- Of one more number than there are taken placeholders, one is free. -/
theorem token_firstFree_notMem (stem : Text) (taken : List Text) (n : Nat) :
    token stem (firstFree stem taken taken.length n) ∉ taken := by
  rcases (firstFree_spec stem taken taken.length n).2 with hfree | ⟨heq, hall⟩
  · exact hfree
  · intro hmem
    -- All placeholders from `n` on would be different members of a list that is too short.
    let tokens := (List.range (taken.length + 1)).map fun i => token stem (n + i)
    have hnodup : tokens.Nodup :=
      List.nodup_range.map fun i j hij => Nat.add_left_cancel (token_injective stem hij)
    have hsub : tokens ⊆ taken := by
      intro t ht
      obtain ⟨i, hi, rfl⟩ := List.mem_map.1 ht
      rw [List.mem_range] at hi
      rcases Nat.lt_or_ge i taken.length with hlt | hge
      · exact hall _ (by omega) (by omega)
      · rwa [show n + i = n + taken.length by omega, ← heq]
    have hlength := (List.subperm_of_subset hnodup hsub).length_le
    rw [List.length_map, List.length_range] at hlength
    omega

end Placeholder

namespace Protection

open Placeholder

/-- Each insert gets a placeholder that is not taken, and the numbers of the placeholders go up. -/
theorem assign_spec (stem : Text) (taken : List Text) (counter : Nat)
    (pieces : List (Text × Text)) :
    (assign stem taken counter pieces).2.map (fun (before, _, insert) => (before, insert)) =
        pieces ∧
      ∃ numbers : List Nat,
        (assign stem taken counter pieces).2.map (fun (_, token, _) => token) =
            numbers.map (token stem) ∧
          (counter :: numbers).Pairwise (· < ·) ∧ ∀ n ∈ numbers, token stem n ∉ taken := by
  induction pieces generalizing counter with
  | nil => exact ⟨rfl, [], rfl, List.pairwise_singleton _ _, fun n hn => absurd hn List.not_mem_nil⟩
  | cons piece pieces ih =>
    obtain ⟨before, insert⟩ := piece
    let n := firstFree stem taken taken.length (counter + 1)
    have hlt : counter < n := (firstFree_spec stem taken taken.length (counter + 1)).1
    obtain ⟨hpieces, numbers, htokens, hpairwise, hfree⟩ := ih n
    refine ⟨?_, n :: numbers, ?_, ?_, ?_⟩
    · rw [assign, List.map_cons, hpieces]
    · rw [assign, List.map_cons, htokens]
      rfl
    · refine List.pairwise_cons.2 ⟨?_, hpairwise⟩
      intro m hm
      rcases List.mem_cons.1 hm with rfl | hm
      · exact hlt
      · exact Nat.lt_trans hlt ((List.pairwise_cons.1 hpairwise).1 m hm)
    · intro m hm
      rcases List.mem_cons.1 hm with rfl | hm
      · exact token_firstFree_notMem stem taken _
      · exact hfree m hm

end Protection
end MarkupBinding
