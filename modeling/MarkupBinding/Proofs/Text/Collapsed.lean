import Mathlib.Data.List.Chain
import Mathlib.Data.List.Infix
import Mathlib.Data.List.SplitBy
import MarkupBinding.Text.Blank

/-!
# Collapsed blanks

A text whose blanks are collapsed has single spaces and no other blanks. So have all its parts, and
collapsing does nothing more to them.

* `isCollapsed_collapse`: what collapsing leaves.
* `IsCollapsed.collapse_eq`: what it leaves alone.
* `collapse_collapse_append`: a text that comes in pieces may be collapsed behind each of them.
* `collapse_eq_flatMap_runs`: each maximal run of blanks becomes one space.
-/

namespace MarkupBinding.Text

/-- No blank but a space, and no two blanks side by side. -/
structure IsCollapsed (text : Text) : Prop where
  spaces : ∀ c ∈ text, isBlank c = true → c = ' '
  single : text.IsChain fun before after => ¬ (isBlank before = true ∧ isBlank after = true)

theorem IsCollapsed.of_within {text part : Text} (h : text.IsCollapsed) (hpart : part <:+: text) :
    part.IsCollapsed :=
  ⟨fun c hc => h.spaces c (hpart.subset hc), h.single.infix hpart⟩

/-- What collapsing leaves; behind a blank it begins with none. -/
theorem isCollapsed_collapseAfter (after : Bool) (text : Text) :
    IsCollapsed (collapseAfter after text) ∧
      (after = true → ∀ c ∈ (collapseAfter after text).head?, isBlank c = false) := by
  have hspace : isBlank ' ' = true := by decide
  induction text generalizing after with
  | nil => exact ⟨⟨List.forall_mem_nil _, .nil⟩, fun _ c hc => by cases hc⟩
  | cons c text ih =>
    unfold collapseAfter
    by_cases hc : isBlank c = true
    · rw [if_pos hc]
      obtain ⟨⟨hspaces, hsingle⟩, hnext⟩ := ih true
      cases after with
      | true => exact ⟨⟨hspaces, hsingle⟩, hnext⟩
      | false =>
        refine ⟨⟨List.forall_mem_cons.2 ⟨fun _ => rfl, hspaces⟩, List.isChain_cons.2 ⟨?_, hsingle⟩⟩,
          fun h => by cases h⟩
        rintro next hmem ⟨_, hblank⟩
        rw [hnext rfl next hmem] at hblank
        cases hblank
    · rw [if_neg hc]
      obtain ⟨⟨hspaces, hsingle⟩, _⟩ := ih false
      refine ⟨⟨List.forall_mem_cons.2 ⟨fun h => absurd h hc, hspaces⟩,
        List.isChain_cons.2 ⟨?_, hsingle⟩⟩, ?_⟩
      · rintro next _ ⟨hblank, _⟩
        exact hc hblank
      · rintro _ _ ⟨⟩
        exact Bool.eq_false_iff.2 hc

theorem isCollapsed_collapse (text : Text) : IsCollapsed text.collapse :=
  (isCollapsed_collapseAfter false text).1

/-- Collapsing does nothing to single spaces. -/
theorem IsCollapsed.collapse_eq {text : Text} (h : text.IsCollapsed) : text.collapse = text := by
  have hafter : ∀ {text : Text} (after : Bool), text.IsCollapsed →
      (after = true → ∀ c ∈ text.head?, isBlank c = false) → collapseAfter after text = text := by
    intro text
    induction text with
    | nil => exact fun _ _ _ => rfl
    | cons c text ih =>
      intro after h hnext
      obtain ⟨hc, hspaces⟩ := List.forall_mem_cons.1 h.spaces
      obtain ⟨hsingle, htail⟩ := List.isChain_cons.1 h.single
      unfold collapseAfter
      by_cases hblank : isBlank c = true
      · have hnot : after = false := by
          refine Bool.eq_false_iff.2 fun hafter => ?_
          rw [hnext hafter c rfl] at hblank
          cases hblank
        rw [if_pos hblank, hnot, if_neg Bool.false_ne_true, hc hblank, ih true ⟨hspaces, htail⟩]
        intro _ next hmem
        exact Bool.eq_false_iff.2 fun hnextblank => hsingle next hmem ⟨hblank, hnextblank⟩
      · rw [if_neg hblank, ih false ⟨hspaces, htail⟩ fun h => by cases h]
  exact hafter false h fun h => by cases h

/-! ## Pieces of a text -/

/-- Whether a blank stands right before what follows a text; `after` says it for the text itself. -/
def endsBlank (after : Bool) (text : Text) : Bool := text.foldl (fun _ c => isBlank c) after

/-- What follows a text is collapsed by what stands at its end. -/
theorem collapseAfter_append (after : Bool) (first second : Text) :
    collapseAfter after (first ++ second) =
      collapseAfter after first ++ collapseAfter (endsBlank after first) second := by
  induction first generalizing after with
  | nil => rfl
  | cons c first ih =>
    rw [List.cons_append, collapseAfter, collapseAfter, ih true, ih false,
      show endsBlank after (c :: first) = endsBlank (isBlank c) first from rfl]
    cases isBlank c <;> cases after <;> rfl

/-- A text ends in a blank just if it does once it is collapsed. -/
theorem endsBlank_collapseAfter (after : Bool) (text : Text) :
    endsBlank after (collapseAfter after text) = endsBlank after text := by
  induction text generalizing after with
  | nil => rfl
  | cons c text ih =>
    have hspace : isBlank ' ' = true := by decide
    rw [collapseAfter]
    cases hc : isBlank c <;> cases after <;> simp [endsBlank, hc, hspace] <;> exact ih _

/-- Text that is collapsed, continued and collapsed once more might as well be collapsed once. -/
theorem collapse_collapse_append (first second : Text) :
    (first.collapse ++ second).collapse = (first ++ second).collapse := by
  have hfirst : first.collapse.collapse = first.collapse := (isCollapsed_collapse first).collapse_eq
  calc (first.collapse ++ second).collapse
      = first.collapse.collapse ++ collapseAfter (endsBlank false first.collapse) second :=
        collapseAfter_append false first.collapse second
    _ = first.collapse ++ collapseAfter (endsBlank false first) second := by
        rw [hfirst, collapse, endsBlank_collapseAfter]
    _ = (first ++ second).collapse := (collapseAfter_append false first second).symm

/-! ## Runs -/

/-- The maximal runs of a text: each of them is blank or has no blanks, and they take turns. -/
def runs (text : Text) : List Text := text.splitBy fun before after => isBlank before == isBlank after

/-- The characters of a run are all blank or all not. -/
theorem isBlank_eq_of_isChain {c : Char} {run : Text}
    (h : (c :: run).IsChain fun before after => (isBlank before == isBlank after) = true) :
    ∀ d ∈ c :: run, isBlank d = isBlank c := by
  induction run generalizing c with
  | nil => simp
  | cons d run ih =>
    obtain ⟨hcd, hrest⟩ := List.isChain_cons_cons.1 h
    refine List.forall_mem_cons.2 ⟨rfl, fun e he => ?_⟩
    rw [ih hrest e he, beq_iff_eq.1 hcd]

/-- Behind a blank a run of blanks vanishes, and elsewhere it is one space. -/
theorem collapseAfter_blanks {run : Text} (h : ∀ c ∈ run, isBlank c = true) (after : Bool)
    (hne : run ≠ []) : collapseAfter after run = if after then [] else [' '] := by
  have hvanish : ∀ run : Text, (∀ c ∈ run, isBlank c = true) → collapseAfter true run = [] := by
    intro run hrun
    induction run with
    | nil => rfl
    | cons c run ih =>
      obtain ⟨hc, hrun⟩ := List.forall_mem_cons.1 hrun
      rw [collapseAfter, if_pos hc, if_pos rfl, ih hrun]
  cases run with
  | nil => exact absurd rfl hne
  | cons c run =>
    obtain ⟨hc, hrun⟩ := List.forall_mem_cons.1 h
    rw [collapseAfter, if_pos hc, hvanish run hrun]

/-- A run without blanks stays. -/
theorem collapseAfter_letters {run : Text} (h : ∀ c ∈ run, isBlank c = false) (after : Bool) :
    collapseAfter after run = run := by
  induction run generalizing after with
  | nil => rfl
  | cons c run ih =>
    obtain ⟨hc, hrun⟩ := List.forall_mem_cons.1 h
    rw [collapseAfter, hc, if_neg Bool.false_ne_true, ih hrun]

/-- The characters of a run are all blank or all not, as the first one is. -/
structure IsRun (run : Text) (blank : Bool) : Prop where
  ne_nil : run ≠ []
  isBlank_eq : ∀ c ∈ run, isBlank c = blank

theorem exists_isRun {run : Text} (hne : run ≠ [])
    (h : run.IsChain fun before after => (isBlank before == isBlank after) = true) :
    ∃ blank, run.IsRun blank := by
  cases run with
  | nil => exact absurd rfl hne
  | cons c run => exact ⟨isBlank c, hne, isBlank_eq_of_isChain h⟩

/-- What becomes of a run that does not follow a blank, unless it is a run of other characters. -/
theorem IsRun.collapseAfter_eq {run : Text} {blank after : Bool} (h : run.IsRun blank)
    (hafter : after = true → blank = false) :
    collapseAfter after run = if run.all isBlank then [' '] else run := by
  obtain ⟨hne, hrun⟩ := h
  cases blank with
  | true =>
    have hall : run.all isBlank = true := List.all_eq_true.2 hrun
    have hnot : after = false := Bool.eq_false_iff.2 fun h => Bool.noConfusion (hafter h)
    rw [if_pos hall, collapseAfter_blanks hrun after hne, hnot, if_neg Bool.false_ne_true]
  | false =>
    obtain ⟨c, hc⟩ := List.exists_mem_of_ne_nil run hne
    have hall : run.all isBlank ≠ true := fun h => by
      have hblank := List.all_eq_true.1 h c hc
      rw [hrun c hc] at hblank
      cases hblank
    rw [if_neg hall, collapseAfter_letters hrun]

theorem IsRun.endsBlank_eq {run : Text} {blank : Bool} (h : run.IsRun blank) (after : Bool) :
    endsBlank after run = blank := by
  obtain ⟨front, last, rfl⟩ := (List.eq_nil_or_concat run).resolve_left h.ne_nil
  rw [List.concat_eq_append, endsBlank, List.foldl_append]
  exact h.isBlank_eq last (by simp)

/-- Runs that take turns are collapsed one by one. -/
theorem collapseAfter_flatten {runs : List Text} (after : Bool)
    (hruns : ∀ run ∈ runs, ∃ blank, run.IsRun blank)
    (hturns : runs.IsChain fun before next =>
      ∃ hbefore hnext, (isBlank (before.getLast hbefore) == isBlank (next.head hnext)) = false)
    (hafter : after = true → ∀ run ∈ runs.head?, run.IsRun false) :
    collapseAfter after runs.flatten =
      runs.flatMap fun run => if run.all isBlank then [' '] else run := by
  induction runs generalizing after with
  | nil => rfl
  | cons run runs ih =>
    obtain ⟨⟨blank, hrun⟩, hlater⟩ := List.forall_mem_cons.1 hruns
    obtain ⟨hnext, hturns⟩ := List.isChain_cons.1 hturns
    have hblank : after = true → blank = false := by
      intro hafter'
      have hfalse := hafter hafter' run rfl
      obtain ⟨c, hc⟩ := List.exists_mem_of_ne_nil run hrun.ne_nil
      rw [← hrun.isBlank_eq c hc, hfalse.isBlank_eq c hc]
    rw [List.flatten_cons, List.flatMap_cons, collapseAfter_append, hrun.collapseAfter_eq hblank,
      hrun.endsBlank_eq, ih blank hlater hturns]
    -- A run behind blanks begins with another character.
    rintro rfl next hmem
    obtain ⟨other, hother⟩ := hlater next (List.mem_of_head? hmem)
    obtain ⟨hlast, hhead, hdiffer⟩ := hnext next hmem
    rw [hrun.isBlank_eq _ (List.getLast_mem hlast), hother.isBlank_eq _ (List.head_mem hhead)] at hdiffer
    cases other with
    | true => cases hdiffer
    | false => exact hother

/-- Each maximal run of blanks becomes one space, and all else stays. -/
theorem collapse_eq_flatMap_runs (text : Text) :
    text.collapse = text.runs.flatMap fun run => if run.all isBlank then [' '] else run := by
  have hflatten : text.runs.flatten = text := List.flatten_splitBy _ text
  have hruns : ∀ run ∈ text.runs, ∃ blank, run.IsRun blank := fun run hrun =>
    exists_isRun (List.ne_nil_of_mem_splitBy hrun) (List.isChain_of_mem_splitBy hrun)
  have hturns := List.isChain_getLast_head_splitBy
    (fun before after => isBlank before == isBlank after) text
  rw [← collapseAfter_flatten false hruns hturns fun h => Bool.noConfusion h, hflatten, collapse]

end MarkupBinding.Text
