import MarkupBinding.Proofs.Forest.Trail

/-!
# The steps of a walk

A walk over a forest that nests as an outline says moves along a trail. It leaves a list when nothing is
left to be done in it, goes into a node that it keeps, and looks at the same position again when the
node was replaced.

* `walkFrom_leave`, `walkFrom_end`: the end of a list.
* `walkFrom_kept`: a node that stays where it is.
* `walkFrom_replaced`: a node that does not.
* `walkFrom_stopped`: a node at which the visitor gives up.
* `walkFrom_keeps`: what every visit keeps.
* `walkFrom_along`: a walk that replaces nothing comes to all nodes in document order.
-/

namespace MarkupBinding

open Outline

/-- A trail and what is still to be done in its list. -/
structure Focus where
  trail : Trail
  todo : List Outline

namespace Focus

/-- The whole outline. -/
def whole (x : Focus) : List Outline := x.trail.fill x.todo

/-- The visit of a node at the end of a trail. -/
def visit (t : Trail) (outline : Outline) : Visit := ⟨outline.name, t.place, t.done.length⟩

/-- Where a walk goes from a node that it keeps: to its children, or behind it if it has none. -/
def enter (t : Trail) (outline : Outline) (todo : List Outline) : Focus :=
  match outline.children with
  | [] => ⟨t.keep outline, todo⟩
  | child :: children => ⟨.inside t outline.name todo [], child :: children⟩

theorem whole_enter (t : Trail) (outline : Outline) (todo : List Outline) :
    (enter t outline todo).whole = t.fill (outline :: todo) := by
  obtain ⟨id, children⟩ := outline
  cases children with
  | nil => exact t.fill_keep (.node id []) todo
  | cons child children => rfl

theorem whole_leave (outer : Trail) (owner : NodeId) (later done : List Outline) :
    whole ⟨outer.keep (.node owner done), later⟩ = whole ⟨.inside outer owner later done, []⟩ := by
  rw [whole, whole, outer.fill_keep, Trail.fill, List.append_nil]

theorem visited_enter (t : Trail) (outline : Outline) (todo : List Outline) :
    (enter t outline todo).trail.visited = t.visited ++ [outline.name] := by
  obtain ⟨id, children⟩ := outline
  cases children with
  | nil => exact t.visited_keep (.node id [])
  | cons child children => rfl

end Focus

namespace Forest

variable {ε σ : Type} {visitor : Visitor ε σ} {s s' : Editing σ} {t : Trail} {outline : Outline}
  {todo : List Outline}

/-- The position of a walk holds the first node that is still to be done. -/
theorem Nests.getElem?_list {f : Forest} (h : f.Nests (t.fill todo)) :
    (f.list t.place)[t.done.length]? = todo.head?.map name := by
  have hlength : (ids t.done).length = t.done.length := List.length_map name
  rw [h.list_eq, ← hlength, List.getElem?_append_right (Nat.le_refl _), Nat.sub_self]
  cases todo <;> rfl

/-- The children of a node are those of the outline. -/
theorem Nests.children_eq {f : Forest} (h : f.Nests (t.fill (outline :: todo))) :
    f.children outline.name = ids outline.children := by
  obtain ⟨id, children⟩ := outline
  have hrow : ⟨.childrenOf id, ids children⟩ ∈ documentRows (t.fill (.node id children :: todo)) := by
    refine (t.perm_documentRows _).symm.subset (List.mem_cons_of_mem _ ?_)
    rw [rowsAll, rows]
    exact List.mem_cons_self
  exact h.list _ hrow

theorem Follows.children_eq {f : Forest} (h : f.Follows (t.fill (outline :: todo))) :
    f.children outline.name = ids outline.children :=
  h.nests.children_eq

/-- At the end of a list a walk goes on behind the node that the list belongs to. -/
theorem walkFrom_leave {outer : Trail} {owner : NodeId} {later done : List Outline}
    (h : s.forest.Nests ((Trail.inside outer owner later done).fill [])) (n : Nat) :
    walkFrom visitor (n + 1) (Trail.inside outer owner later done).cursors s =
      walkFrom visitor n (outer.keep (.node owner done)).cursors s := by
  have hnone := h.getElem?_list
  rw [outer.cursors_keep, Trail.cursors, Trail.cursors_eq, walkFrom]
  simp only [Nat.add_zero]
  rw [hnone]
  rfl

/-- At the end of the root list nothing is left. -/
theorem walkFrom_end {done : List Outline} (h : s.forest.Nests ((Trail.top done).fill []))
    (n : Nat) : walkFrom visitor (n + 1) (Trail.top done).cursors s = walkFrom visitor n [] s := by
  have hnone := h.getElem?_list
  rw [Trail.cursors, Trail.cursors_eq, walkFrom]
  simp only [Nat.add_zero]
  rw [hnone]
  rfl

theorem walkFrom_stopped (h : s.forest.Nests (t.fill (outline :: todo))) {error : ε}
    (hvisit : visitor (Focus.visit t outline) s = (s', some error)) (n : Nat) :
    walkFrom visitor (n + 1) t.cursors s = (s', .stopped error) := by
  have hnode := h.getElem?_list
  rw [Trail.cursors, Trail.cursors_eq, walkFrom]
  simp only [Nat.add_zero]
  rw [hnode]
  simp only [List.head?_cons, Option.map_some]
  rw [show Visit.mk outline.name t.place t.done.length = Focus.visit t outline from rfl, hvisit]

theorem walkFrom_visit (h : s.forest.Nests (t.fill (outline :: todo)))
    (hvisit : visitor (Focus.visit t outline) s = (s', none)) (n : Nat) :
    walkFrom visitor (n + 1) t.cursors s =
      walkFrom visitor n (s'.forest.onward (Focus.visit t outline) t.cursors.tail) s' := by
  have hnode := h.getElem?_list
  have hcursors := t.cursors_eq 0
  rw [Nat.add_zero] at hcursors
  rw [Trail.cursors, hcursors, walkFrom]
  simp only
  rw [hnode]
  simp only [List.head?_cons, Option.map_some]
  rw [show Visit.mk outline.name t.place t.done.length = Focus.visit t outline from rfl, hvisit]
  rfl

/-- A node that stays where it is is entered. -/
theorem walkFrom_kept (h : s.forest.Nests (t.fill (outline :: todo)))
    (hvisit : visitor (Focus.visit t outline) s = (s', none))
    (h' : s'.forest.Nests (t.fill (outline :: todo))) (n : Nat) :
    walkFrom visitor (n + 1) t.cursors s =
      walkFrom visitor n (Focus.enter t outline todo).trail.cursors s' := by
  have hnode : (s'.forest.list t.place)[t.done.length]? = some outline.name := h'.getElem?_list
  have hchildren := h'.children_eq
  have hbehind := t.cursors_eq 1
  rw [walkFrom_visit h hvisit, onward]
  unfold Focus.visit
  simp only
  rw [if_pos hnode, hchildren]
  obtain ⟨id, children⟩ := outline
  cases children with
  | nil =>
    show walkFrom visitor n (if ([] : List NodeId) = [] then _ else _) s' =
      walkFrom visitor n (t.keep (.node id [])).cursors s'
    rw [if_pos rfl, t.cursors_keep, hbehind]
  | cons child children =>
    have hne : ids (Outline.node id (child :: children)).children ≠ [] := List.cons_ne_nil _ _
    rw [if_neg hne, ← hbehind]
    rfl

/-- A node that was replaced leaves the walk where it is. -/
theorem walkFrom_replaced (h : s.forest.Nests (t.fill (outline :: todo)))
    (hvisit : visitor (Focus.visit t outline) s = (s', none)) {todo' : List Outline}
    (h' : s'.forest.Nests (t.fill todo')) (hgone : outline.name ∉ ids todo') (n : Nat) :
    walkFrom visitor (n + 1) t.cursors s = walkFrom visitor n t.cursors s' := by
  have hnode : (s'.forest.list t.place)[t.done.length]? ≠ some outline.name := by
    rw [h'.getElem?_list]
    intro heq
    obtain ⟨first, hfirst, hname⟩ := Option.map_eq_some_iff.1 heq
    exact hgone (List.mem_map.2 ⟨first, List.mem_of_head? hfirst, hname⟩)
  have hcursors := t.cursors_eq 0
  rw [Nat.add_zero] at hcursors
  rw [walkFrom_visit h hvisit, onward]
  unfold Focus.visit
  simp only
  rw [if_neg hnode, ← hcursors]
  rfl

/-! ## Walks of any visitor -/

/-- What every visit keeps is kept by a walk, however it ends. -/
theorem walkFrom_keeps {P : Editing σ → Prop} (hvisit : ∀ visit s, P s → P (visitor visit s).1)
    (n : Nat) (stack : List Cursor) {s : Editing σ} (h : P s) :
    P (walkFrom visitor n stack s).1 := by
  induction n generalizing stack s with
  | zero => exact h
  | succ n ih =>
    cases stack with
    | nil => exact h
    | cons cursor stack =>
      rw [walkFrom]
      split
      · exact ih stack h
      · next node hnode =>
        have hnext := hvisit ⟨node, cursor.place, cursor.index⟩ s h
        simp only
        split
        · next heq =>
          rw [heq] at hnext
          exact hnext
        · next heq =>
          rw [heq] at hnext
          exact ih _ hnext

/-! ## Walks that replace nothing -/

/-- The steps of a walk behind the list at the end of a trail, if it replaces nothing. -/
def laterSteps : Trail → Nat
  | .top _ => 0
  | .inside outer _ later _ => 2 * (namesAll later).length + 1 + laterSteps outer

/-- The steps of a walk that replaces nothing: it comes to every node once, and to the end of every
list. -/
def stepsLeft (x : Focus) : Nat := 2 * (namesAll x.todo).length + 1 + laterSteps x.trail

theorem laterSteps_keep (t : Trail) (outline : Outline) :
    laterSteps (t.keep outline) = laterSteps t := by
  cases t <;> rfl

theorem stepsLeft_enter_lt (t : Trail) (outline : Outline) (todo : List Outline) :
    stepsLeft (Focus.enter t outline todo) < stepsLeft ⟨t, outline :: todo⟩ := by
  obtain ⟨id, children⟩ := outline
  unfold stepsLeft
  simp only [namesAll, names, List.length_append, List.length_cons]
  cases children with
  | nil =>
    show 2 * (namesAll todo).length + 1 + laterSteps (t.keep _) < _
    rw [laterSteps_keep]
    omega
  | cons child children =>
    show 2 * (namesAll (child :: children)).length + 1 +
      (2 * (namesAll todo).length + 1 + laterSteps t) < _
    omega

/-- **Walks in document order.** A visitor that leaves the outline as it is visits every node once,
in document order, unless it gives up at one. What holds of the nodes visited so far, if each visit
carries it on, holds of all nodes at the end. -/
theorem walkFrom_along {P : List NodeId → Editing σ → Prop} {Q : Editing σ → Prop}
    {outlines : List Outline} (hfollows : ∀ {done s}, P done s → s.forest.Follows outlines)
    (hvisit : ∀ {s : Editing σ} {t : Trail} {outline : Outline} {todo : List Outline},
      t.fill (outline :: todo) = outlines → P t.visited s →
        (∃ s', visitor (Focus.visit t outline) s = (s', none) ∧
          P (t.visited ++ [outline.name]) s') ∨
        ∃ s' error, visitor (Focus.visit t outline) s = (s', some error) ∧ Q s') (bound : Nat) :
    ∀ {s : Editing σ} {x : Focus}, P x.trail.visited s → x.whole = outlines → stepsLeft x ≤ bound →
      (∃ s', P (namesAll outlines) s' ∧
        ∀ n > bound, walkFrom visitor n x.trail.cursors s = (s', .finished)) ∨
      ∃ s' error, Q s' ∧ ∀ n > bound, walkFrom visitor n x.trail.cursors s = (s', .stopped error) := by
  -- The induction is on the steps that are left.
  induction bound with
  | zero =>
    intro s x _ _ hleft
    unfold stepsLeft at hleft
    omega
  | succ bound ih =>
    intro s x hs hwhole hleft
    have hf := hfollows hs
    rw [← hwhole] at hf
    -- Once the walk has taken a step, the rest is the walk from where it stands then.
    have hstep : ∀ {s' : Editing σ} {y : Focus},
        (∀ m, walkFrom visitor (m + 1) x.trail.cursors s = walkFrom visitor m y.trail.cursors s') →
          P y.trail.visited s' → y.whole = outlines → stepsLeft y ≤ bound →
            (∃ s', P (namesAll outlines) s' ∧
              ∀ n > bound + 1, walkFrom visitor n x.trail.cursors s = (s', .finished)) ∨
            ∃ s' error, Q s' ∧
              ∀ n > bound + 1, walkFrom visitor n x.trail.cursors s = (s', .stopped error) := by
      intro s' y hwalk hkept hsame hlower
      have hlater : ∀ {result}, (∀ n > bound, walkFrom visitor n y.trail.cursors s' = result) →
          ∀ n > bound + 1, walkFrom visitor n x.trail.cursors s = result := by
        intro result hend n hn
        obtain ⟨m, rfl⟩ : ∃ m, n = m + 1 := ⟨n - 1, by omega⟩
        rw [hwalk]
        exact hend m (by omega)
      rcases ih hkept hsame hlower with ⟨last, hlast, hend⟩ | ⟨last, error, hlast, hend⟩
      · exact .inl ⟨last, hlast, hlater hend⟩
      · exact .inr ⟨last, error, hlast, hlater hend⟩
    obtain ⟨t, todo⟩ := x
    cases todo with
    | nil =>
      cases t with
      | top done =>
        refine .inl ⟨s, ?_, ?_⟩
        · rw [← hwhole, Focus.whole, Trail.fill, List.append_nil]
          exact hs
        · intro n hn
          obtain ⟨m, rfl⟩ : ∃ m, n = m + 2 := ⟨n - 2, by omega⟩
          rw [walkFrom_end hf.nests]
          rfl
      | inside outer owner later done =>
        refine hstep (y := ⟨outer.keep (.node owner done), later⟩) (walkFrom_leave hf.nests) ?_ ?_ ?_
        · rw [Trail.visited_keep]
          exact hs
        · rw [Focus.whole, outer.fill_keep, ← hwhole, Focus.whole, Trail.fill, List.append_nil]
        · unfold stepsLeft at hleft ⊢
          simp only [laterSteps, laterSteps_keep] at hleft ⊢
          omega
    | cons outline todo =>
      rcases hvisit hwhole hs with ⟨s', hnext, hkept⟩ | ⟨s', error, hnext, hstopped⟩
      · have hg := hfollows hkept
        rw [← hwhole] at hg
        have hlower : stepsLeft (Focus.enter t outline todo) ≤ bound :=
          Nat.le_of_lt_succ (Nat.lt_of_lt_of_le (stepsLeft_enter_lt t outline todo) hleft)
        refine hstep (walkFrom_kept hf.nests hnext hg.nests) ?_ ((Focus.whole_enter t outline todo).trans hwhole)
          hlower
        rw [Focus.visited_enter]
        exact hkept
      · refine .inr ⟨s', error, hstopped, ?_⟩
        intro n hn
        obtain ⟨m, rfl⟩ : ∃ m, n = m + 1 := ⟨n - 1, by omega⟩
        exact walkFrom_stopped hf.nests hnext m

end Forest
end MarkupBinding
