import Mathlib.Logic.Hydra
import MarkupBinding.Proofs.Forest.Walk

/-!
# Walks as rewriting

A visitor that leaves the lists alone or replaces the visited node by others rewrites the forest. What a
walk does then is said by a recursion that has no stack: visit the first node; if it was replaced, go on
with the replacement and the rest at the same position, otherwise rewrite what is below it and then the
rest.

The walk ends if every new node is lower than the node it replaces, in some well-founded order: a visit
takes the rank of the visited node out of the ranks that are still to be done, and puts finitely many
lower ones in.

* `RewritesTo`: the recursion.
* `Rewrites`: what such a visitor does at one node.
* `exists_run`: walk and recursion side by side, from any position.
* `walk_rewrites`: a whole walk visits what the recursion visits, and leaves the forest that it leaves.
* `rewrites_replacing`: a visitor that plants trees in the place of nodes is one of these.
-/

namespace MarkupBinding

open Outline

namespace Trail

/-- The trail behind some more nodes. -/
def keepAll (t : Trail) (outlines : List Outline) : Trail := outlines.foldl (fun t x => t.keep x) t

theorem place_keep (t : Trail) (outline : Outline) : (t.keep outline).place = t.place := by
  cases t <;> rfl

theorem length_done_keep (t : Trail) (outline : Outline) :
    (t.keep outline).done.length = t.done.length + 1 := by
  cases t <;> simp [keep, done]

theorem keepAll_top (done outlines : List Outline) :
    (top done).keepAll outlines = top (done ++ outlines) := by
  induction outlines generalizing done with
  | nil => rw [List.append_nil]; rfl
  | cons outline outlines ih =>
    rw [List.append_cons]
    exact ih _

theorem keepAll_inside (outer : Trail) (owner : NodeId) (later done outlines : List Outline) :
    (inside outer owner later done).keepAll outlines = inside outer owner later (done ++ outlines) := by
  induction outlines generalizing done with
  | nil => rw [List.append_nil]; rfl
  | cons outline outlines ih =>
    rw [List.append_cons]
    exact ih _

theorem fill_keepAll (t : Trail) (outlines : List Outline) :
    (t.keepAll outlines).fill [] = t.fill outlines := by
  cases t with
  | top done => rw [keepAll_top, fill, List.append_nil, fill]
  | inside outer owner later done => rw [keepAll_inside, fill, List.append_nil, fill]

theorem mem_otherNames_keep {t : Trail} {id : NodeId} (h : id ∈ t.otherNames) (outline : Outline) :
    id ∈ (t.keep outline).otherNames := by
  cases t with
  | top done =>
    rw [keep, otherNames, namesAll_append]
    exact List.mem_append_left _ h
  | inside outer owner later done =>
    rw [keep, otherNames, namesAll_append]
    simp only [otherNames, List.mem_cons, List.mem_append] at h ⊢
    tauto

theorem mem_otherNames_inside {outer : Trail} {owner id : NodeId} {later : List Outline}
    (h : id ∈ namesAll later ++ outer.otherNames) : id ∈ (inside outer owner later []).otherNames := by
  rw [otherNames, namesAll, List.nil_append]
  exact List.mem_cons_of_mem owner h

end Trail

/-! ## The record of a walk -/

/-- The same forest, with a record of visits beside the notes. -/
def Editing.recording {σ : Type} (s : Editing σ) (visits : List Visit) : Editing (σ × List Visit) :=
  ⟨s.forest, s.notes, visits⟩

/-- The same forest without the record. -/
def Editing.unrecorded {σ : Type} (s : Editing (σ × List Visit)) : Editing σ :=
  ⟨s.forest, s.notes.1⟩

namespace Forest

variable {ε σ : Type} {visitor : Visitor ε σ}

/-- A visitor that does the same and writes down each visit. -/
def recorded (visitor : Visitor ε σ) : Visitor ε (σ × List Visit) := fun visit s =>
  let (s', error) := visitor visit s.unrecorded
  (s'.recording (s.notes.2 ++ [visit]), error)

theorem recorded_recording (visit : Visit) (s : Editing σ) (visits : List Visit) :
    recorded visitor visit (s.recording visits) =
      ((visitor visit s).1.recording (visits ++ [visit]), (visitor visit s).2) := rfl

/-- The record changes nothing. -/
theorem walkFrom_recorded (n : Nat) (stack : List Cursor) (s : Editing (σ × List Visit)) :
    walkFrom visitor n stack s.unrecorded =
      ((walkFrom (recorded visitor) n stack s).1.unrecorded,
        (walkFrom (recorded visitor) n stack s).2) := by
  induction n generalizing stack s with
  | zero => rfl
  | succ n ih =>
    cases stack with
    | nil => rfl
    | cons cursor stack =>
      rw [walkFrom, walkFrom, show s.unrecorded.forest = s.forest from rfl]
      cases (s.forest.list cursor.place)[cursor.index]? with
      | none => exact ih stack s
      | some node =>
        simp only [recorded]
        obtain ⟨s', error⟩ := visitor ⟨node, cursor.place, cursor.index⟩ s.unrecorded
        cases error with
        | some error => rfl
        | none => exact ih _ (s'.recording _)

/-! ## The recursion -/

/-- How a rewriting ends: the nodes that it came to, the outline that it leaves, and the error at which
the visitor gave up, if it did. -/
structure Rewritten (ε σ : Type) where
  visits : List Visit
  outlines : List Outline
  state : Editing σ
  error : Option ε

/-- How a walk ends that does the same. -/
def Rewritten.ending (r : Rewritten ε σ) : Ending ε :=
  match r.error with
  | some error => .stopped error
  | none => .finished

/-- The recursion: what becomes of the nodes at a place from a position on. What `new` says is planted in
the place of a visited node; a node for which it says nothing is kept. -/
inductive RewritesTo (visitor : Visitor ε σ) (new : Visit → Editing σ → Option (List Outline)) :
    Place → Nat → List Outline → Editing σ → Rewritten ε σ → Prop
  | done {place : Place} {index : Nat} {s : Editing σ} :
      RewritesTo visitor new place index [] s ⟨[], [], s, none⟩
  /-- The visitor gives up. -/
  | stopped {place : Place} {index : Nat} {outline : Outline} {todo : List Outline}
      {s s' : Editing σ} {error : ε}
      (visit : visitor ⟨outline.name, place, index⟩ s = (s', some error)) :
      RewritesTo visitor new place index (outline :: todo) s
        ⟨[⟨outline.name, place, index⟩],
          (new ⟨outline.name, place, index⟩ s).getD [outline] ++ todo, s', some error⟩
  /-- A node is replaced. The new nodes and the rest come next, at the same position. -/
  | replaced {place : Place} {index : Nat} {outline : Outline} {todo fresh : List Outline}
      {s s' : Editing σ} {later : Rewritten ε σ}
      (visit : visitor ⟨outline.name, place, index⟩ s = (s', none))
      (planted : new ⟨outline.name, place, index⟩ s = some fresh)
      (rest : RewritesTo visitor new place index (fresh ++ todo) s' later) :
      RewritesTo visitor new place index (outline :: todo) s
        { later with visits := ⟨outline.name, place, index⟩ :: later.visits }
  /-- A node is kept, and the visitor gives up below it. -/
  | stoppedBelow {place : Place} {index : Nat} {outline : Outline} {todo : List Outline}
      {s s' : Editing σ} {below : Rewritten ε σ} {error : ε}
      (visit : visitor ⟨outline.name, place, index⟩ s = (s', none))
      (kept : new ⟨outline.name, place, index⟩ s = none)
      (children : RewritesTo visitor new (.childrenOf outline.name) 0 outline.children s' below)
      (stops : below.error = some error) :
      RewritesTo visitor new place index (outline :: todo) s
        { below with
          visits := ⟨outline.name, place, index⟩ :: below.visits
          outlines := .node outline.name below.outlines :: todo }
  /-- A node is kept. What is below it comes next, and then the rest at the next position. -/
  | kept {place : Place} {index : Nat} {outline : Outline} {todo : List Outline}
      {s s' : Editing σ} {below later : Rewritten ε σ}
      (visit : visitor ⟨outline.name, place, index⟩ s = (s', none))
      (kept : new ⟨outline.name, place, index⟩ s = none)
      (children : RewritesTo visitor new (.childrenOf outline.name) 0 outline.children s' below)
      (goesOn : below.error = none)
      (rest : RewritesTo visitor new place (index + 1) todo below.state later) :
      RewritesTo visitor new place index (outline :: todo) s
        { later with
          visits := ⟨outline.name, place, index⟩ :: (below.visits ++ later.visits)
          outlines := .node outline.name below.outlines :: later.outlines }

/-- How a walk goes on behind some nodes of a list that were rewritten: with the rest of the list, unless
the visitor gave up. -/
def Rewritten.goOn (r : Rewritten ε σ) (visitor : Visitor ε σ) (steps : Nat) (t : Trail)
    (visits : List Visit) : Editing (σ × List Visit) × Ending ε :=
  match r.error with
  | some error => (r.state.recording (visits ++ r.visits), .stopped error)
  | none =>
    walkFrom (recorded visitor) steps (t.keepAll r.outlines).cursors
      (r.state.recording (visits ++ r.visits))

/-! ## Visitors that rewrite -/

section

variable {α : Type} (lower : α → α → Prop) (rank : Editing σ → NodeId → α)

/-- What a rewriting visit does to a forest: it leaves the lists alone, or plants new nodes in the place
of the visited one. Each of them, on whatever level, is lower than the visited node was. -/
structure Replaces (s s' : Editing σ) (t : Trail) (outline : Outline) (todo : List Outline)
    (new : Option (List Outline)) : Prop where
  nests : s'.forest.Nests (t.fill (new.getD [outline] ++ todo))
  gone : ∀ {fresh}, new = some fresh → outline.name ∉ ids fresh
  lower : ∀ {fresh}, new = some fresh →
    ∀ id ∈ namesAll fresh, lower (rank s' id) (rank s outline.name)
  /-- The ranks of the other nodes stay. -/
  ranks : ∀ id ∈ namesAll (t.fill (outline :: todo)), id ≠ outline.name → rank s' id = rank s id

/-- A visitor that rewrites: in every valid state it replaces the visited node by what `new` says, if
that is anything, and leaves the lists alone otherwise. -/
structure Rewrites (visitor : Visitor ε σ) (new : Visit → Editing σ → Option (List Outline))
    (valid : Editing σ → Prop) : Prop where
  wellFounded : WellFounded lower
  keeps : ∀ {s t outline todo}, valid s → s.forest.Nests (t.fill (outline :: todo)) →
    valid (visitor (Focus.visit t outline) s).1
  replaces : ∀ {s t outline todo}, valid s → s.forest.Nests (t.fill (outline :: todo)) →
    Replaces lower rank s (visitor (Focus.visit t outline) s).1 t outline todo
      (new (Focus.visit t outline) s)

end

variable {α : Type} {new : Visit → Editing σ → Option (List Outline)}
  {valid : Editing σ → Prop} {lower : α → α → Prop} {rank : Editing σ → NodeId → α}
  {s s' : Editing σ} {t : Trail} {outline : Outline} {todo : List Outline} {r : Rewritten ε σ}

/-- The nodes that are not visited have the ranks that they had. -/
theorem Replaces.rank_eq {fresh : Option (List Outline)}
    (h : Replaces lower rank s s' t outline todo fresh)
    (hnests : s.forest.Nests (t.fill (outline :: todo))) {id : NodeId}
    (hid : id ∈ namesAll outline.children ++ (namesAll todo ++ t.otherNames)) :
    rank s' id = rank s id := by
  have hmem := (t.perm_namesAll_cons outline todo).symm.subset (List.mem_cons_of_mem _ hid)
  refine h.ranks id hmem ?_
  rintro rfl
  exact hnests.name_notMem hid

/-! ## A walk beside the recursion -/

/-- The recursion has an outcome, and a walk that starts at the end of the trail with the same nodes
does the same. -/
structure Run (visitor : Visitor ε σ) (new : Visit → Editing σ → Option (List Outline))
    (valid : Editing σ → Prop) (rank : Editing σ → NodeId → α) (t : Trail) (todo : List Outline)
    (s : Editing σ) (r : Rewritten ε σ) : Prop where
  rewrites : RewritesTo visitor new t.place t.done.length todo s r
  valid : valid r.state
  nests : r.state.forest.Nests (t.fill r.outlines)
  ranks : r.error = none → ∀ id ∈ t.otherNames, rank r.state id = rank s id
  walks : ∃ n, ∀ k visits,
    walkFrom (recorded visitor) (k + n) t.cursors (s.recording visits) = r.goOn visitor k t visits

theorem Run.nests_end (h : Run visitor new valid rank t todo s r) (visits : List Visit) :
    (r.state.recording visits).forest.Nests ((t.keepAll r.outlines).fill []) := by
  rw [Trail.fill_keepAll]
  exact h.nests

theorem run_nil (hvalid : valid s) (hnests : s.forest.Nests (t.fill [])) :
    Run visitor new valid rank t [] s ⟨[], [], s, none⟩ := by
  refine ⟨.done, hvalid, hnests, fun _ _ _ => rfl, 0, fun k visits => ?_⟩
  rw [Rewritten.goOn, List.append_nil]
  rfl

section

variable (hnests : s.forest.Nests (t.fill (outline :: todo)))

include hnests

/-- The visitor gives up. -/
theorem run_stopped (hvalid : valid s') {error : ε}
    (hvisit : visitor (Focus.visit t outline) s = (s', some error))
    (h : Replaces lower rank s s' t outline todo (new (Focus.visit t outline) s)) :
    Run visitor new valid rank t (outline :: todo) s
      ⟨[Focus.visit t outline], (new (Focus.visit t outline) s).getD [outline] ++ todo, s',
        some error⟩ := by
  refine ⟨.stopped hvisit, hvalid, h.nests, fun hnone => (nomatch hnone), 1, fun k visits => ?_⟩
  have hat : (s.recording visits).forest.Nests (t.fill (outline :: todo)) := hnests
  refine walkFrom_stopped hat ?_ k
  rw [recorded_recording, hvisit]

/-- A node is replaced. -/
theorem run_replaced (hvisit : visitor (Focus.visit t outline) s = (s', none))
    {fresh : List Outline} (hnew : new (Focus.visit t outline) s = some fresh)
    (h : Replaces lower rank s s' t outline todo (some fresh))
    (hlater : Run visitor new valid rank t (fresh ++ todo) s' r) :
    Run visitor new valid rank t (outline :: todo) s
      { r with visits := Focus.visit t outline :: r.visits } := by
  obtain ⟨n, hwalk⟩ := hlater.walks
  refine ⟨.replaced hvisit hnew hlater.rewrites, hlater.valid, hlater.nests,
    fun hend id hid => ?_, n + 1, fun k visits => ?_⟩
  · rw [hlater.ranks hend id hid]
    exact h.rank_eq hnests (List.mem_append_right _ (List.mem_append_right _ hid))
  · have hat : (s.recording visits).forest.Nests (t.fill (outline :: todo)) := hnests
    have hgone : outline.name ∉ ids (fresh ++ todo) := by
      rw [ids_append, List.mem_append, not_or]
      refine ⟨h.gone rfl, fun hmem => hnests.name_notMem ?_⟩
      exact List.mem_append_right _ (List.mem_append_left _ (mem_namesAll_of_mem_ids hmem))
    have hnext : recorded visitor (Focus.visit t outline) (s.recording visits) =
        (s'.recording (visits ++ [Focus.visit t outline]), none) := by
      rw [recorded_recording, hvisit]
    have hstep := walkFrom_replaced hat hnext h.nests hgone (k + n)
    rw [← Nat.add_assoc, hstep, hwalk, Rewritten.goOn, Rewritten.goOn, ← List.append_cons]

/-- A node is kept. A walk goes through what is below it, if there is anything, and comes back. -/
theorem walkFrom_through (hvisit : visitor (Focus.visit t outline) s = (s', none))
    (h : s'.forest.Nests (t.fill (outline :: todo)))
    (hbelow : Run visitor new valid rank (.inside t outline.name todo []) outline.children s' r) :
    ∃ n, ∀ k visits, walkFrom (recorded visitor) (k + n) t.cursors (s.recording visits) =
      Rewritten.goOn ⟨Focus.visit t outline :: r.visits, [.node outline.name r.outlines], r.state,
        r.error⟩ visitor k t visits := by
  have hnext : ∀ visits, recorded visitor (Focus.visit t outline) (s.recording visits) =
      (s'.recording (visits ++ [Focus.visit t outline]), none) := by
    intro visits
    rw [recorded_recording, hvisit]
  have henter : ∀ m visits, walkFrom (recorded visitor) (m + 1) t.cursors (s.recording visits) =
      walkFrom (recorded visitor) m (Focus.enter t outline todo).trail.cursors
        (s'.recording (visits ++ [Focus.visit t outline])) := by
    intro m visits
    have hat : (s.recording visits).forest.Nests (t.fill (outline :: todo)) := hnests
    exact walkFrom_kept hat (hnext visits) h m
  obtain ⟨id, _ | ⟨child, children⟩⟩ := outline
  · have hrewrites : RewritesTo visitor new (.childrenOf id) 0 [] s' r := hbelow.rewrites
    cases hrewrites
    exact ⟨1, henter⟩
  · obtain ⟨n, hwalk⟩ := hbelow.walks
    refine ⟨n + 2, fun k visits => ?_⟩
    have hwalk := hwalk (k + 1) (visits ++ [Focus.visit t (.node id (child :: children))])
    rw [show k + (n + 2) = k + 1 + n + 1 by omega, henter]
    refine hwalk.trans ?_
    rw [Rewritten.goOn, Rewritten.goOn, ← List.append_cons]
    cases herror : r.error with
    | some error => rfl
    | none =>
      -- At the end of the children the walk goes back up.
      have hend := hbelow.nests_end
      rw [Trail.keepAll_inside] at hend ⊢
      exact walkFrom_leave (hend _) k

/-- The visitor gives up below a node. -/
theorem run_below (hvisit : visitor (Focus.visit t outline) s = (s', none))
    (hnew : new (Focus.visit t outline) s = none)
    (h : s'.forest.Nests (t.fill (outline :: todo)))
    (hbelow : Run visitor new valid rank (.inside t outline.name todo []) outline.children s' r)
    {error : ε} (herror : r.error = some error) :
    Run visitor new valid rank t (outline :: todo) s
      { r with
        visits := Focus.visit t outline :: r.visits
        outlines := .node outline.name r.outlines :: todo } := by
  obtain ⟨n, hwalk⟩ := walkFrom_through hnests hvisit h hbelow
  refine ⟨.stoppedBelow hvisit hnew hbelow.rewrites herror, hbelow.valid, hbelow.nests,
    fun hnone => ?_, n, fun k visits => ?_⟩
  · rw [herror] at hnone
    cases hnone
  · rw [hwalk, Rewritten.goOn, Rewritten.goOn, herror]

/-- A node is kept, and what is below it is rewritten. -/
theorem run_kept {later : Rewritten ε σ} (hvisit : visitor (Focus.visit t outline) s = (s', none))
    (hnew : new (Focus.visit t outline) s = none)
    (h : Replaces lower rank s s' t outline todo none)
    (hbelow : Run visitor new valid rank (.inside t outline.name todo []) outline.children s' r)
    (herror : r.error = none)
    (hlater : Run visitor new valid rank (t.keep (.node outline.name r.outlines)) todo r.state later) :
    Run visitor new valid rank t (outline :: todo) s
      { later with
        visits := Focus.visit t outline :: (r.visits ++ later.visits)
        outlines := .node outline.name r.outlines :: later.outlines } := by
  obtain ⟨n, hbefore⟩ := walkFrom_through hnests hvisit h.nests hbelow
  obtain ⟨m, hbehind⟩ := hlater.walks
  have hrest := hlater.rewrites
  rw [Trail.place_keep, Trail.length_done_keep] at hrest
  refine ⟨.kept hvisit hnew hbelow.rewrites herror hrest, hlater.valid, ?_, fun hend id hid => ?_,
    m + n, fun k visits => ?_⟩
  · have hnests := hlater.nests
    rw [Trail.fill_keep] at hnests
    exact hnests
  · have hinside : id ∈ (Trail.inside t outline.name todo []).otherNames :=
      Trail.mem_otherNames_inside (List.mem_append_right _ hid)
    rw [hlater.ranks hend id (Trail.mem_otherNames_keep hid _), hbelow.ranks herror id hinside]
    exact h.rank_eq hnests (List.mem_append_right _ (List.mem_append_right _ hid))
  · rw [← Nat.add_assoc, hbefore, Rewritten.goOn, herror]
    simp only
    refine (hbehind k _).trans ?_
    rw [Rewritten.goOn, Rewritten.goOn, List.append_assoc]
    rfl

end

/-! ### Every run ends -/

/-- The ranks of some nodes. -/
def ranks (rank : NodeId → α) (names : List NodeId) : Multiset α := Multiset.ofList (names.map rank)

/-- A rank is taken out and lower ones are put in; others may go with it. -/
theorem transGen_cutExpand {a : α} {fresh : Multiset α} (h : ∀ b ∈ fresh, lower b a)
    (gone rest : Multiset α) :
    Relation.TransGen (Relation.CutExpand lower) (fresh + rest) (a ::ₘ (gone + rest)) := by
  have hgone : Relation.ReflTransGen (Relation.CutExpand lower) (a ::ₘ rest)
      (a ::ₘ (gone + rest)) := by
    induction gone using Multiset.induction with
    | empty => rw [Multiset.zero_add]
    | cons b gone ih =>
      refine ih.tail ⟨0, b, nofun, ?_⟩
      rw [Multiset.add_zero, Multiset.add_comm _ {b}, Multiset.singleton_add, Multiset.cons_add,
        Multiset.cons_swap]
  have hcut : Relation.CutExpand lower (fresh + rest) (a ::ₘ rest) := by
    rw [← Multiset.singleton_add]
    exact (Relation.cutExpand_add_right rest).2 (Relation.cutExpand_singleton h)
  exact (Relation.TransGen.single hcut).trans_left hgone

theorem transGen_cutExpand_zero (a : α) (gone rest : Multiset α) :
    Relation.TransGen (Relation.CutExpand lower) rest (a ::ₘ (gone + rest)) := by
  have hzero : ∀ b ∈ (0 : Multiset α), lower b a := fun b hb => absurd hb (Multiset.notMem_zero b)
  have hcut := transGen_cutExpand hzero gone rest
  rwa [Multiset.zero_add] at hcut

theorem ranks_append (rank : NodeId → α) (xs ys : List NodeId) :
    ranks rank (xs ++ ys) = ranks rank xs + ranks rank ys := by
  rw [ranks, List.map_append]
  rfl

theorem ranks_congr {rank rank' : NodeId → α} {names : List NodeId}
    (h : ∀ id ∈ names, rank' id = rank id) : ranks rank' names = ranks rank names := by
  rw [ranks, ranks, List.map_congr_left h]

theorem ranks_cons (rank : NodeId → α) (outline : Outline) (todo : List Outline) :
    ranks rank (namesAll (outline :: todo)) =
      rank outline.name ::ₘ (ranks rank (namesAll outline.children) + ranks rank (namesAll todo)) := by
  rw [namesAll, names_eq, ← ranks_append]
  rfl

/-- From every position the recursion has an outcome, and a walk ends. -/
theorem exists_run (h : Rewrites lower rank visitor new valid) (bound : Multiset α) :
    ∀ {s : Editing σ} {t : Trail} {todo : List Outline}, ranks (rank s) (namesAll todo) = bound →
      valid s → s.forest.Nests (t.fill todo) → ∃ r, Run visitor new valid rank t todo s r := by
  -- The induction is on the ranks of the nodes that are still to be done in the list and below it.
  induction bound using h.wellFounded.cutExpand.transGen.induction with
  | _ bound ih =>
    intro s t todo hbound hvalid hnests
    cases todo with
    | nil => exact ⟨_, run_nil hvalid hnests⟩
    | cons outline todo =>
      have hstep := h.replaces hvalid hnests
      have hvalid' := h.keeps hvalid hnests
      obtain ⟨⟨s', error⟩, hvisit⟩ : ∃ result, visitor (Focus.visit t outline) s = result := ⟨_, rfl⟩
      rw [hvisit] at hstep hvalid'
      rw [ranks_cons] at hbound
      have hchildren : ranks (rank s') (namesAll outline.children) =
          ranks (rank s) (namesAll outline.children) :=
        ranks_congr fun id hid => hstep.rank_eq hnests (List.mem_append_left _ hid)
      have htodo : ranks (rank s') (namesAll todo) = ranks (rank s) (namesAll todo) :=
        ranks_congr fun id hid =>
          hstep.rank_eq hnests (List.mem_append_right _ (List.mem_append_left _ hid))
      cases error with
      | some error => exact ⟨_, run_stopped hnests hvalid' hvisit hstep⟩
      | none =>
        cases hnew : new (Focus.visit t outline) s with
        | some fresh =>
          -- The rank of the node is taken out with those below it, and lower ones are put in.
          rw [hnew] at hstep
          obtain ⟨r, hlater⟩ : ∃ r, Run visitor new valid rank t (fresh ++ todo) s' r := by
            refine ih _ ?_ rfl hvalid' hstep.nests
            rw [namesAll_append, ranks_append, htodo, ← hbound]
            refine transGen_cutExpand ?_ _ _
            intro b hb
            obtain ⟨id, hid, rfl⟩ := List.mem_map.1 (Multiset.mem_coe.1 hb)
            exact hstep.lower rfl id hid
          exact ⟨_, run_replaced hnests hvisit hnew hstep hlater⟩
        | none =>
          -- What is below the node and what comes behind it are parts of what was to be done.
          rw [hnew] at hstep
          have hinside : s'.forest.Nests
              ((Trail.inside t outline.name todo []).fill outline.children) := by
            have hnests := hstep.nests
            obtain ⟨id, children⟩ := outline
            exact hnests
          obtain ⟨below, hbelow⟩ : ∃ r, Run visitor new valid rank (.inside t outline.name todo [])
              outline.children s' r := by
            refine ih _ ?_ rfl hvalid' hinside
            rw [hchildren, ← hbound, Multiset.add_comm (ranks (rank s) _)]
            exact transGen_cutExpand_zero _ _ _
          cases herror : below.error with
          | some error => exact ⟨_, run_below hnests hvisit hnew hstep.nests hbelow herror⟩
          | none =>
            have hbehind : below.state.forest.Nests
                ((t.keep (.node outline.name below.outlines)).fill todo) := by
              rw [Trail.fill_keep]
              exact hbelow.nests
            have hkept : ranks (rank below.state) (namesAll todo) = ranks (rank s') (namesAll todo) := by
              refine ranks_congr fun id hid => hbelow.ranks herror id ?_
              exact Trail.mem_otherNames_inside (List.mem_append_left _ hid)
            obtain ⟨later, hlater⟩ : ∃ r, Run visitor new valid rank
                (t.keep (.node outline.name below.outlines)) todo below.state r := by
              refine ih _ ?_ rfl hbelow.valid hbehind
              rw [hkept, htodo, ← hbound]
              exact transGen_cutExpand_zero _ _ _
            exact ⟨_, run_kept hnests hvisit hnew hstep hbelow herror hlater⟩

/-! ## Whole walks -/

/-- The recursion has one outcome. -/
theorem RewritesTo.unique {place : Place} {index : Nat} {r' : Rewritten ε σ}
    (h : RewritesTo visitor new place index todo s r)
    (h' : RewritesTo visitor new place index todo s r') : r' = r := by
  induction h generalizing r' with
  | done =>
    cases h'
    rfl
  | stopped hvisit =>
    cases h' with
    | stopped hvisit' =>
      cases hvisit.symm.trans hvisit'
      rfl
    | replaced hvisit' | stoppedBelow hvisit' | kept hvisit' => cases hvisit.symm.trans hvisit'
  | replaced hvisit hnew _ ih =>
    cases h' with
    | stopped hvisit' => cases hvisit.symm.trans hvisit'
    | replaced hvisit' hnew' hrest' =>
      cases hvisit.symm.trans hvisit'
      cases hnew.symm.trans hnew'
      rw [ih hrest']
    | stoppedBelow _ hnew' | kept _ hnew' => cases hnew.symm.trans hnew'
  | stoppedBelow hvisit hnew _ hstops ih =>
    cases h' with
    | stopped hvisit' => cases hvisit.symm.trans hvisit'
    | replaced _ hnew' => cases hnew.symm.trans hnew'
    | stoppedBelow hvisit' _ hchildren' =>
      cases hvisit.symm.trans hvisit'
      rw [ih hchildren']
    | kept hvisit' _ hchildren' hgoesOn' =>
      cases hvisit.symm.trans hvisit'
      rw [ih hchildren', hstops] at hgoesOn'
      cases hgoesOn'
  | kept hvisit hnew _ hgoesOn _ ih ih' =>
    cases h' with
    | stopped hvisit' => cases hvisit.symm.trans hvisit'
    | replaced _ hnew' => cases hnew.symm.trans hnew'
    | stoppedBelow hvisit' _ hchildren' hstops' =>
      cases hvisit.symm.trans hvisit'
      rw [ih hchildren', hgoesOn] at hstops'
      cases hstops'
    | kept hvisit' _ hchildren' _ hrest' =>
      cases hvisit.symm.trans hvisit'
      cases ih hchildren'
      rw [ih' hrest']

/-- A recursion in which nothing is replaced and the visitor never gives up comes to all nodes in
document order. -/
theorem rewritesTo_of_none (hnew : ∀ visit s, new visit s = none)
    (hvisit : ∀ visit s, (visitor visit s).2 = none) :
    ∀ (outlines : List Outline) (place : Place) (index : Nat) (s : Editing σ),
      ∃ visits s', RewritesTo visitor new place index outlines s ⟨visits, outlines, s', none⟩ ∧
        visits.map Visit.node = namesAll outlines
  | [], place, index, s => ⟨[], s, .done, rfl⟩
  | .node id children :: todo, place, index, s => by
    obtain ⟨⟨s', error⟩, hnext⟩ : ∃ result, visitor ⟨id, place, index⟩ s = result := ⟨_, rfl⟩
    have herror := hvisit ⟨id, place, index⟩ s
    rw [hnext] at herror
    obtain rfl : error = none := herror
    obtain ⟨below, last, hbelow, hchildren⟩ :=
      rewritesTo_of_none hnew hvisit children (.childrenOf id) 0 s'
    obtain ⟨later, last', hlater, htodo⟩ :=
      rewritesTo_of_none hnew hvisit todo place (index + 1) last
    have hkept := @RewritesTo.kept _ _ visitor new place index (.node id children) todo s s' _ _ hnext
      (hnew _ _) hbelow rfl hlater
    refine ⟨⟨id, place, index⟩ :: (below ++ later), last', hkept, ?_⟩
    rw [namesAll, names, List.map_cons, List.map_append, hchildren, htodo]
    rfl

/-- **Walks are rewriting.** If a visitor leaves the lists alone or replaces the visited node by lower
ones, the recursion has an outcome, and the walk ends. The walk comes to the same nodes at the same positions in
the same order, ends in the same way, and leaves the same forest, which nests as the recursion says. A
visitor that replaces nothing and never gives up comes to every node once, in document order. -/
theorem walk_rewrites (h : Rewrites lower rank visitor new valid) {outlines : List Outline}
    (hvalid : valid s) (hnests : s.forest.Nests outlines) :
    ∃ r, RewritesTo visitor new .roots 0 outlines s r ∧
      (∀ r', RewritesTo visitor new .roots 0 outlines s r' → r' = r) ∧
      r.state.forest.Nests r.outlines ∧
      (∃ bound, ∀ steps ≥ bound,
        walk visitor steps s = (r.state, r.ending) ∧
        walk (recorded visitor) steps (s.recording []) = (r.state.recording r.visits, r.ending)) ∧
      ((∀ visit s, new visit s = none) → (∀ visit s, (visitor visit s).2 = none) →
        r.ending = .finished ∧ r.outlines = outlines ∧
          r.visits.map Visit.node = namesAll outlines ∧ (r.visits.map Visit.node).Nodup) := by
  obtain ⟨r, hrun⟩ := exists_run h _ (t := .top []) rfl hvalid hnests
  obtain ⟨n, hwalk⟩ := hrun.walks
  have hrecorded : ∀ steps ≥ n + 2, walk (recorded visitor) steps (s.recording []) =
      (r.state.recording r.visits, r.ending) := by
    intro steps hsteps
    obtain ⟨k, rfl⟩ : ∃ k, steps = k + 2 + n := ⟨steps - (n + 2), by omega⟩
    refine (hwalk (k + 2) []).trans ?_
    rw [Rewritten.goOn, Rewritten.ending, List.nil_append]
    cases r.error with
    | some error => rfl
    | none =>
      have hend := hrun.nests_end r.visits
      rw [Trail.keepAll_top] at hend ⊢
      exact walkFrom_end hend (k + 1)
  refine ⟨r, hrun.rewrites, fun r' => hrun.rewrites.unique, hrun.nests,
    ⟨n + 2, fun steps hsteps => ⟨?_, hrecorded steps hsteps⟩⟩, ?_⟩
  · have hplain := @walkFrom_recorded ε σ visitor steps [⟨.roots, 0⟩] (s.recording [])
    have hend := hrecorded steps hsteps
    unfold walk at hend ⊢
    rw [hend] at hplain
    exact hplain
  · intro hnew hvisit
    obtain ⟨visits, s', hrewrites, hvisits⟩ := rewritesTo_of_none hnew hvisit outlines .roots 0 s
    obtain rfl := hrewrites.unique hrun.rewrites
    refine ⟨rfl, rfl, hvisits, ?_⟩
    rw [hvisits]
    exact hnests.nodup

/-! ## Planted trees -/

/-- A visitor that plants trees in the place of the nodes for which there are any. -/
def planting (swap : Content → Option (List Tree)) : Visitor PlaceError Unit := fun visit s =>
  match (s.forest.label? visit.node).bind swap with
  | none => (s, none)
  | some trees =>
    let (ids, f) := s.forest.graft trees
    match f.replace visit.place visit.index ids with
    | .ok f => ({ s with forest := f }, none)
    | .error error => (s, some error)

/-- The outline of the trees that it plants. -/
def planted (swap : Content → Option (List Tree)) (visit : Visit) (s : Editing Unit) :
    Option (List Outline) :=
  ((s.forest.label? visit.node).bind swap).map (Tree.outlineAll s.forest.nodes.size)

/-- The weight of a node. -/
def weightOf (weight : Content → Nat) (s : Editing Unit) (id : NodeId) : Nat :=
  (s.forest.label? id).elim 0 weight

section

variable {swap : Content → Option (List Tree)} {s : Editing Unit}
  (h : s.forest.Nests (t.fill (outline :: todo)))

include h

theorem planting_spec {trees : List Tree}
    (htrees : (s.forest.label? outline.name).bind swap = some trees) :
    ∃ g, planting swap (Focus.visit t outline) s = ({ s with forest := g }, none) ∧
      g.Nests (t.fill (Tree.outlineAll s.forest.nodes.size trees ++ todo)) ∧
      ∀ id, g.label? id = (s.forest.graft trees).2.label? id := by
  obtain ⟨hids, hextends, _⟩ := graft_spec s.forest trees
  have hgrafted := h.extend hextends
  obtain ⟨g, hreplace, hsize, hlist, helsewhere⟩ :=
    replace_lists hgrafted.getElem?_list (s.forest.graft trees).1
  have hlength : (ids t.done).length = t.done.length := List.length_map name
  refine ⟨g, ?_, hgrafted.replaced (fresh_graft h.inTable trees) hsize ?_ helsewhere,
    label?_replace hreplace⟩
  · have hname : (Focus.visit t outline).node = outline.name := rfl
    have hat : (s.forest.graft trees).2.replace (Focus.visit t outline).place
        (Focus.visit t outline).index (s.forest.graft trees).1 = .ok g := hreplace
    unfold planting
    rw [hname, htrees]
    simp only
    rw [hat]
  · rw [hlist, hgrafted.list_eq, hids, ids_append, ← hlength, List.take_left, List.drop_append]
    simp [ids]

/-- Planting trees in the place of a node is rewriting, if the trees have nodes of less weight only. -/
theorem replaces_planting {weight : Content → Nat}
    (hswap : ∀ label trees, swap label = some trees →
      Tree.LabelledAll (fun content => weight content < weight label) trees) :
    Replaces (· < ·) (weightOf weight) s (planting swap (Focus.visit t outline) s).1 t outline todo
      (planted swap (Focus.visit t outline) s) := by
  have hplanted : planted swap (Focus.visit t outline) s =
    ((s.forest.label? outline.name).bind swap).map (Tree.outlineAll s.forest.nodes.size) := rfl
  rw [hplanted]
  cases htrees : (s.forest.label? outline.name).bind swap with
  | none =>
    have hkept : planting swap (Focus.visit t outline) s = (s, none) := by
      have hname : (Focus.visit t outline).node = outline.name := rfl
      unfold planting
      rw [hname, htrees]
    rw [hkept]
    exact ⟨h, nofun, nofun, fun _ _ _ => rfl⟩
  | some trees =>
    obtain ⟨g, hvisit, hnests, hlabels⟩ := planting_spec h htrees
    have hfresh := fresh_graft h.inTable trees
    rw [hvisit]
    refine ⟨hnests, ?_, ?_, ?_⟩
    · rintro _ ⟨⟩ hmem
      exact hfresh.disjoint _ (mem_namesAll_of_mem_ids hmem) (t.name_mem outline todo)
    · rintro _ ⟨⟩ id hid
      obtain ⟨label, hlabel, hof⟩ := Option.bind_eq_some_iff.1 htrees
      obtain ⟨_, _, _, _, _, _, hnames⟩ := graft_spec s.forest trees
      -- The node is new, so it is one of the trees.
      have hnone : s.forest.label? id = none := label?_eq_none (hnames id hid).1
      obtain ⟨other, hother⟩ := exists_label? (hnames id hid).2
      have hless := (label?_of_graft (hswap label trees hof) hother).resolve_left
        (by rw [hnone]; nofun)
      unfold weightOf
      rw [hlabels, hother, hlabel]
      exact hless
    · intro id hid _
      unfold weightOf
      rw [hlabels, (graft_spec s.forest trees).2.1.label (h.inTable id hid)]

end

/-- A visitor that plants lighter trees rewrites. -/
theorem rewrites_planting {swap : Content → Option (List Tree)} {weight : Content → Nat}
    (hswap : ∀ label trees, swap label = some trees →
      Tree.LabelledAll (fun content => weight content < weight label) trees) :
    Rewrites (· < ·) (weightOf weight) (planting swap) (planted swap) fun _ => True :=
  ⟨Nat.lt_wfRel.wf, fun _ _ => trivial, fun _ h => replaces_planting h hswap⟩

/-- An x becomes a y and an italic z, and comments are taken out. -/
def respelled : Content → Option (List Tree)
  | .data .text ['x'] => some [.data .text ['y'], .element ['i'] [] [.data .text ['z']]]
  | .data .comment _ => some []
  | _ => none

/-- What has to be respelled is heavier than what has not. -/
def respelledWeight (content : Content) : Nat := if (respelled content).isSome then 1 else 0

/-- A paragraph with an x and a comment, and something behind it. -/
def spelling : List Tree :=
  [.element ['p'] [] [.data .text ['x'], .data .comment ['a']], .element ['h', 'r'] [] []]

theorem respelled_lighter (label : Content) (trees : List Tree) (h : respelled label = some trees) :
    Tree.LabelledAll (fun content => respelledWeight content < respelledWeight label) trees := by
  have hlabel : respelledWeight label = 1 := by rw [respelledWeight, h]; rfl
  rw [hlabel]
  unfold respelled at h
  split at h
  · cases h
    simp only [Tree.LabelledAll, Tree.Labelled]
    decide
  · cases h
    trivial
  · cases h

theorem walk_rewrites_spelling :
    let s : Editing Unit := ⟨ofTrees spelling, ()⟩
    ∃ r, RewritesTo (planting respelled) (planted respelled) .roots 0 (Tree.outlineAll 0 spelling) s
        r ∧ r.state.forest.Nests r.outlines ∧
      ∃ bound, ∀ steps ≥ bound, walk (recorded (planting respelled)) steps (s.recording []) =
        (r.state.recording r.visits, r.ending) := by
  intro s
  obtain ⟨r, hr, _, hnests, ⟨bound, hwalk⟩, _⟩ := walk_rewrites (rewrites_planting respelled_lighter)
    (s := s) trivial (follows_ofTrees spelling).nests
  exact ⟨r, hr, hnests, bound, fun steps hsteps => (hwalk steps hsteps).2⟩

example :
    let after := walk (recorded (planting respelled)) 20 ⟨ofTrees spelling, (), []⟩
    after.2 = .finished ∧ after.1.notes.2.map (fun visit => (visit.node, visit.index)) =
      [(0, 0), (1, 0), (4, 0), (5, 1), (6, 0), (2, 2), (3, 1)] ∧
    after.1.forest.children 0 = [4, 5] := by
  decide +kernel

end Forest
end MarkupBinding
