import Mathlib.Logic.Relation
import MarkupBinding.Proofs.Isolation.Visit

/-!
# The isolation walk as a run of steps

Each step of the isolation walk is one of the moves that a visit or the end of a list makes, and the
forest follows the outline behind it again. What every move keeps is therefore kept by a walk of any
length.

* `exists_moved`: a walk that is not at the end of the root list moves.
* `walkOn_moves`: a walk cut off after some steps has made moves only.
-/

namespace MarkupBinding.Isolation

open Outline

variable {options : Options} {protection : Protection} {a b : Stage}

/-- A forest follows the outline that the walk stands in. -/
def Stage.Follows (a : Stage) : Prop := a.1.forest.Follows a.2.whole

/-- The walk behind some moves. -/
abbrev Moves (options : Options) (protection : Protection) : Stage → Stage → Prop :=
  Relation.ReflTransGen (Moved options protection)

/-- The walk of the isolation pass from where it stands. -/
def walkOn (options : Options) (protection : Protection) (n : Nat) (a : Stage) :
    Editing Log × Ending Empty :=
  Forest.walkFrom (visitor options protection) n a.2.trail.cursors a.1

theorem Moved.follows (hmoved : Moved options protection a b) (h : a.Follows) : b.Follows := by
  cases hmoved with
  | @left s outer owner later done =>
    rw [Stage.Follows, Focus.whole_leave]
    exact h
  | @entered s t outline todo isolated =>
    rw [Stage.Follows, Focus.whole_enter]
    exact h
  | split text first mixed labels bare gone follows trees => exact follows
  | wrapped text inside labels bare gone follows element => exact follows

theorem Moves.follows (hmoves : Moves options protection a b) (h : a.Follows) : b.Follows := by
  induction hmoves with
  | refl => exact h
  | tail _ hmoved ih => exact hmoved.follows ih

/-- A walk that is not at the end of the root list moves. -/
theorem exists_moved (h : a.Follows) :
    (∃ done, a.2 = ⟨.top done, []⟩) ∨ ∃ b, Moved options protection a b ∧
      ∀ n, walkOn options protection (n + 1) a = walkOn options protection n b := by
  obtain ⟨s, t, todo⟩ := a
  cases todo with
  | nil =>
    cases t with
    | top done => exact .inl ⟨done, rfl⟩
    | inside outer owner later done =>
      exact .inr ⟨_, .left, fun n => Forest.walkFrom_leave h.nests n⟩
  | cons outline todo =>
    refine .inr ?_
    obtain ⟨s', x, hvisit, hmoved⟩ := @visitor_spec options protection _ _ _ _ h
    refine ⟨(s', x), hmoved, fun n => ?_⟩
    have h' := hmoved.follows h
    cases hmoved with
    | entered isolated => exact Forest.walkFrom_kept h.nests hvisit h.nests n
    | @split _ _ _ id _ new content found text first mixed labels bare gone follows trees =>
      refine Forest.walkFrom_replaced h.nests hvisit h'.nests ?_ n
      rw [ids_append]
      intro hmem
      rcases List.mem_append.1 hmem with hmem | hmem
      · exact gone (mem_namesAll_of_mem_ids hmem)
      · exact Forest.Follows.name_not_mem h hmem
    | wrapped text inside labels bare gone follows element =>
      refine Forest.walkFrom_replaced h.nests hvisit h'.nests ?_ n
      intro hmem
      rcases List.mem_cons.1 hmem with hmem | hmem
      · exact gone hmem
      · exact Forest.Follows.name_not_mem h hmem

/-- A walk that is cut off after some steps has made moves only; if it came to an end, it did so at
the end of the root list. -/
theorem walkOn_moves (n : Nat) : ∀ {a : Stage}, a.Follows →
    ∃ b, Moves options protection a b ∧ (walkOn options protection n a).1 = b.1 ∧
      ((walkOn options protection n a).2 = .finished → ∃ done, b.2 = ⟨.top done, []⟩) := by
  induction n with
  | zero => exact fun {a} _ => ⟨a, .refl, rfl, fun hend => by cases hend⟩
  | succ n ih =>
    intro a h
    rcases @exists_moved options protection a h with ⟨done, hdone⟩ | ⟨b, hmoved, hwalk⟩
    · refine ⟨a, .refl, ?_, fun _ => ⟨done, hdone⟩⟩
      obtain ⟨s, x⟩ := a
      subst hdone
      show (Forest.walkFrom _ (n + 1) (Trail.top done).cursors s).1 = s
      rw [Forest.walkFrom_end h.nests]
      cases n <;> rfl
    · obtain ⟨c, hmoves, hstate, hend⟩ := ih (hmoved.follows h)
      rw [hwalk]
      exact ⟨c, hmoves.head hmoved, hstate, hend⟩

end MarkupBinding.Isolation
