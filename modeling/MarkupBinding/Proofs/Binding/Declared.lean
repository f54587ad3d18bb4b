import MarkupBinding.Proofs.Binding.Anchored
import MarkupBinding.Proofs.Entries
import MarkupBinding.Proofs.Insert.Expression

/-!
# What an element has declared

The declarations of an element come one by one, and each time the value of the binding attribute is
trimmed before the next one is added. A declaration neither begins nor ends with a blank, so only the
value that was there at first is ever changed by that, and the attribute ends up with all
declarations in a row behind it.

* `set_withDeclarations`: one more declaration.
* `puts_bindAttributes`: what binding its attributes makes of an element.
-/

namespace MarkupBinding

open Text (Trimmed)

/-- A declaration has solid ends if its expression ends so. -/
theorem Handler.trimmed_declaration {expression : Text} (handler : Handler)
    (h : expression.EndsSolid) : (handler.declaration expression).Trimmed := by
  refine ⟨?_, (h.cons ':').append handler.markup⟩
  cases handler with
  | attr name => exact ⟨'a', rfl, rfl⟩
  | value => exact ⟨'v', rfl, rfl⟩
  | _ => exact ⟨'t', rfl, rfl⟩

namespace Handler

/-- The characters that the handlers have of their own. -/
def signs : Text := [attr [], value, onlyText, firstText, nextText, previousText].flatMap markup

theorem notMem_markup {handler : Handler} {c : Char} (hc : c ∉ signs)
    (h : ∀ name, handler = .attr name → c ∉ name) : c ∉ handler.markup := by
  have hplain : ∀ plain ∈ [attr [], value, onlyText, firstText, nextText, previousText],
      c ∉ plain.markup := fun plain hplain hmem => hc (List.mem_flatMap.2 ⟨plain, hplain, hmem⟩)
  cases handler with
  | attr name =>
    intro hmem
    rcases List.mem_append.1 hmem with hmem | hmem
    · rcases List.mem_append.1 hmem with hmem | hmem
      · exact hplain (attr []) List.mem_cons_self (List.mem_append_left _ (List.mem_append_left _ hmem))
      · exact h name rfl hmem
    · exact hplain (attr []) List.mem_cons_self (List.mem_append_right _ hmem)
  | _ => exact hplain _ (by simp)

theorem eq_of_ofAttribute {key name : Text} (h : ofAttribute key = .attr name) : key = name := by
  unfold ofAttribute at h
  split at h
  · cases h
  · cases h
    rfl

theorem ofLinks_ne_attr (links : Links) (name : Text) : ofLinks links ≠ .attr name := by
  unfold ofLinks
  repeat' split
  all_goals nofun

end Handler

/-! ## One node of a forest -/

namespace Forest

/-- Two forests that differ in what one node is. -/
def Puts (f g : Forest) (id : NodeId) (content : Content) : Prop :=
  ∀ other, g.content? other = if other = id then some content else f.content? other

variable {f g : Forest} {id : NodeId} {content : Content}

theorem Puts.self (h : f.Puts g id content) : g.content? id = some content := by
  rw [h, if_pos rfl]

theorem Puts.refl (h : f.content? id = some content) : f.Puts f id content := by
  intro other
  split
  · next heq => rw [heq, h]
  · rfl

theorem Puts.trans {k : Forest} {content' : Content} (h : f.Puts g id content)
    (h' : g.Puts k id content') : f.Puts k id content' := by
  intro other
  rw [h' other]
  split
  · rfl
  · next hne => rw [h other, if_neg hne]

theorem content?_modify (f : Forest) (id : NodeId) (change : Node → Node) (other : NodeId) :
    (f.modify id change).content? other =
      if other = id then (f.nodes[id]?.map fun node => (change node).content)
      else f.content? other := by
  unfold content?
  rw [getElem?_modify]
  by_cases h : id = other
  · subst h
    rw [if_pos rfl, if_pos rfl, Option.map_map]
    rfl
  · rw [if_neg h, if_neg (Ne.symm h)]

theorem puts_setAttribute {tag : Text} {attrs : Attributes} {children : List NodeId}
    (h : f.content? id = some (.element tag attrs children)) (name value : Text) :
    f.Puts (f.setAttribute id name value) id (.element tag (attrs.set name value) children) := by
  intro other
  unfold setAttribute
  rw [content?_modify]
  obtain ⟨node, hnode, hcontent⟩ := Option.map_eq_some_iff.1 h
  rw [hnode, Option.map_some, hcontent]

theorem puts_setData {kind : DataKind} {old : Text}
    (h : f.content? id = some (.data kind old)) (new : Text) :
    f.Puts (f.setData id new) id (.data kind new) := by
  intro other
  unfold setData
  rw [content?_modify]
  obtain ⟨node, hnode, hcontent⟩ := Option.map_eq_some_iff.1 h
  rw [hnode, Option.map_some, hcontent]

end Forest

namespace Binder

variable {b : Binder}

/-! ## The binding attribute -/

/-- The value of the binding attribute with more declarations behind what was there at first. -/
def joined (old : Option Text) (declarations : List Text) : Text :=
  let old := Text.trim (old.getD [])
  [','].intercalate (if old = [] then declarations else old :: declarations)

/-- The attributes of an element that has some declarations more. -/
def withDeclarations (b : Binder) (attrs : Attributes) (declarations : List Text) : Attributes :=
  if declarations = [] then attrs
  else attrs.set b.target (joined (attrs.get? b.target) declarations)

theorem withDeclarations_nil (b : Binder) (attrs : Attributes) :
    b.withDeclarations attrs [] = attrs := if_pos rfl

theorem trimmed_joined {old : Option Text} {declarations : List Text} (hne : declarations ≠ [])
    (h : ∀ declaration ∈ declarations, Trimmed declaration) :
    (joined old declarations).Trimmed := by
  unfold joined
  simp only
  refine Text.trimmed_intercalate ?_ ?_
  · split
    · exact hne
    · exact List.cons_ne_nil _ _
  · split
    · exact h
    · next hold =>
      intro text htext
      rcases List.mem_cons.1 htext with rfl | htext
      · exact (Text.trim_eq_nil_or_trimmed _).resolve_left hold
      · exact h text htext

/-- No other characters come into the value. -/
theorem notMem_joined {c : Char} (hc : c ≠ ',') {old : Option Text} (hold : ∀ value ∈ old, c ∉ value)
    {declarations : List Text} (h : ∀ declaration ∈ declarations, c ∉ declaration) :
    c ∉ joined old declarations := by
  have htrim : c ∉ Text.trim (old.getD []) := by
    intro hmem
    have hmem := Text.trim_subset _ hmem
    cases old with
    | none => cases hmem
    | some value => exact hold value rfl hmem
  have hcomma : c ∉ [','] := by simpa using hc
  unfold joined
  simp only
  refine Text.notMem_intercalate hcomma ?_
  split
  · exact h
  · exact List.forall_mem_cons.2 ⟨htrim, h⟩

/-- All declarations are in the value. -/
theorem mem_joined {c : Char} {old : Option Text} {declarations : List Text} {declaration : Text}
    (hdeclaration : declaration ∈ declarations) (h : c ∈ declaration) : c ∈ joined old declarations := by
  unfold joined
  simp only
  refine Text.mem_intercalate ?_ h
  split
  · exact hdeclaration
  · exact List.mem_cons_of_mem _ hdeclaration

theorem extend_eq_joined (old : Option Text) (declaration : Text) :
    extend old declaration = joined old [declaration] := by
  unfold extend joined
  simp only
  split <;> simp

/-- The values before are left as they are. -/
theorem extend_joined {old : Option Text} {declarations : List Text} (hne : declarations ≠ [])
    (h : ∀ declaration ∈ declarations, Trimmed declaration) (declaration : Text) :
    extend (some (joined old declarations)) declaration =
      joined old (declarations ++ [declaration]) := by
  have htrimmed : (joined old declarations).Trimmed := trimmed_joined hne h
  unfold extend
  simp only [Option.getD_some]
  rw [htrimmed.trim_eq, if_neg htrimmed.ne_nil]
  unfold joined
  simp only
  split
  · rw [Text.intercalate_concat hne]
    simp
  · rw [← List.cons_append, Text.intercalate_concat (List.cons_ne_nil _ _)]
    simp

/-- One more declaration. -/
theorem set_withDeclarations {attrs : Attributes} {declarations : List Text}
    (h : ∀ declaration ∈ declarations, Trimmed declaration) (declaration : Text) :
    (b.withDeclarations attrs declarations).set b.target
        (extend ((b.withDeclarations attrs declarations).get? b.target) declaration) =
      b.withDeclarations attrs (declarations ++ [declaration]) := by
  have hlonger : declarations ++ [declaration] ≠ [] := by simp
  unfold withDeclarations
  rw [if_neg hlonger]
  split
  · next hnil => rw [hnil, extend_eq_joined, List.nil_append]
  · next hne => rw [Entries.get?_set_self, extend_joined hne h, Entries.set_set]

/-- The declarations do not touch other attributes. -/
theorem get?_withDeclarations_of_ne {attrs : Attributes} {name : Text} (h : name ≠ b.target)
    (declarations : List Text) :
    (b.withDeclarations attrs declarations).get? name = attrs.get? name := by
  unfold withDeclarations
  split
  · rfl
  · exact Entries.get?_set_of_ne _ _ h

theorem joined_mem_withDeclarations {attrs : Attributes} {declarations : List Text}
    (hne : declarations ≠ []) :
    (b.target, joined (attrs.get? b.target) declarations) ∈ b.withDeclarations attrs declarations := by
  unfold withDeclarations
  rw [if_neg hne]
  exact Entries.mem_of_get? (Entries.get?_set_self ..)

/-- Another attribute can be set before the declarations are made or after. -/
theorem withDeclarations_set {attrs : Attributes} {name : Text} (h : name ≠ b.target)
    (hmem : name ∈ attrs.names) (declarations : List Text) (value : Text) :
    (b.withDeclarations attrs declarations).set name value =
      b.withDeclarations (attrs.set name value) declarations := by
  unfold withDeclarations
  split
  · rfl
  · rw [Entries.set_comm h hmem, Entries.get?_set_of_ne _ _ (Ne.symm h)]

/-! ## What is written -/

/-- A text with template inserts in place of its binding inserts. -/
def boundText (b : Binder) (text : Text) : Text :=
  match b.synthesis? text with
  | none => text
  | some synthesis => synthesis.content

/-- The attributes of an element with template inserts in place of binding inserts. -/
def boundAttributes (b : Binder) (attrs : Attributes) : Attributes :=
  attrs.map fun (name, value) => (name, if b.skipped.contains name then value else b.boundText value)

/-- What a text declares at its anchor, or an attribute at its element. -/
def declaration? (b : Binder) (handler : Handler) (text : Text) : Option Text :=
  (b.synthesis? text).map fun synthesis => handler.declaration synthesis.expression

/-- What the attributes of an element declare, in order. -/
def ownDeclarations (b : Binder) (attrs : Attributes) : List Text :=
  attrs.filterMap fun (name, value) =>
    if b.skipped.contains name then none else b.declaration? (.ofAttribute name) value

theorem trimmed_declaration? {handler : Handler} {text declaration : Text}
    (h : b.declaration? handler text = some declaration) : declaration.Trimmed := by
  obtain ⟨synthesis, hsynthesis, rfl⟩ := Option.map_eq_some_iff.1 h
  refine handler.trimmed_declaration ?_
  unfold synthesis? at hsynthesis
  simp only at hsynthesis
  split at hsynthesis
  · cases hsynthesis
  · next hparts =>
    cases hsynthesis
    refine Synthesis.endsSolid_expression ?_
    have hsome : (BindingInsert.split b.binding text).length ≠ 0 := by
      simp [BindingInsert.split, Text.Interleaved.parts]
    omega

/-- A declaration of an element comes from an attribute that is searched. -/
theorem mem_ownDeclarations_iff {attrs : Attributes} {declaration : Text} :
    declaration ∈ b.ownDeclarations attrs ↔ ∃ key value, (key, value) ∈ attrs ∧ key ∉ b.skipped ∧
      b.declaration? (.ofAttribute key) value = some declaration := by
  unfold ownDeclarations
  rw [List.mem_filterMap]
  constructor
  · rintro ⟨⟨key, value⟩, hmem, heq⟩
    simp only at heq
    split at heq
    · cases heq
    · next hskip => exact ⟨key, value, hmem, fun h => hskip (List.contains_iff_mem.2 h), heq⟩
  · rintro ⟨key, value, hmem, hskip, heq⟩
    exact ⟨(key, value), hmem, (if_neg fun h => hskip (List.contains_iff_mem.1 h)).trans heq⟩

theorem trimmed_of_mem_ownDeclarations {attrs : Attributes} {declaration : Text}
    (h : declaration ∈ b.ownDeclarations attrs) : declaration.Trimmed := by
  obtain ⟨_, _, _, _, heq⟩ := mem_ownDeclarations_iff.1 h
  exact trimmed_declaration? heq

theorem names_boundAttributes (attrs : Attributes) :
    Entries.names (b.boundAttributes attrs) = attrs.names := by
  unfold Entries.names boundAttributes
  rw [List.map_map]
  rfl

/-! ## Visiting an element -/

variable {s : Editing Log} {id : NodeId} {tag : Text} {attrs : Attributes} {children : List NodeId}

theorem puts_declare (h : s.forest.content? id = some (.element tag attrs children))
    (declaration : Text) :
    s.forest.Puts (b.declare id declaration s).forest id
      (.element tag (attrs.set b.target (extend (attrs.get? b.target) declaration)) children) := by
  unfold declare
  rw [h]
  exact Forest.puts_setAttribute h _ _

/-- Binding one attribute, when those before it are bound and those behind it are not. -/
theorem puts_bindAttribute (htarget : b.target ∈ b.skipped) {done todo : Attributes}
    {name value : Text} {declarations : List Text}
    (hdistinct : (done ++ (name, value) :: todo).names.Nodup)
    (hdeclarations : ∀ declaration ∈ declarations, Trimmed declaration)
    (h : s.forest.content? id = some (.element tag
      (b.withDeclarations (b.boundAttributes done ++ (name, value) :: todo) declarations) children)) :
    s.forest.Puts (b.bindAttribute id s name).1.forest id (.element tag
      (b.withDeclarations (b.boundAttributes (done ++ [(name, value)]) ++ todo)
        (declarations ++ b.ownDeclarations [(name, value)])) children) := by
  have hdone : (b.boundAttributes done).names = done.names := names_boundAttributes done
  have hsplit : b.boundAttributes (done ++ [(name, value)]) ++ todo = b.boundAttributes done ++
      (name, if b.skipped.contains name then value else b.boundText value) :: todo := by
    simp [boundAttributes]
  have hown : b.ownDeclarations [(name, value)] =
      (if b.skipped.contains name then none
        else b.declaration? (.ofAttribute name) value).toList := by
    unfold ownDeclarations
    split <;> cases hdeclaration : b.declaration? (.ofAttribute name) value <;> simp_all
  rw [hsplit, hown]
  unfold bindAttribute
  by_cases hskip : b.skipped.contains name = true
  · rw [if_pos hskip, if_pos hskip, if_pos hskip, Option.toList_none, List.append_nil]
    exact .refl h
  · have hne : name ≠ b.target := by
      rintro rfl
      exact hskip (List.contains_iff_mem.2 htarget)
    rw [if_neg hskip, if_neg hskip, if_neg hskip]
    have hnames : (b.boundAttributes done ++ (name, value) :: todo).names.Nodup := by
      rw [Entries.names_append, hdone, ← Entries.names_append]
      exact hdistinct
    have hvalue : attributeValue? s.forest id name = some value := by
      unfold attributeValue?
      rw [h]
      exact (get?_withDeclarations_of_ne hne _).trans
        (Entries.get?_of_mem hnames (List.mem_append_right _ List.mem_cons_self))
    rw [hvalue, Option.bind_some]
    unfold boundText declaration?
    cases b.synthesis? value with
    | none =>
      rw [Option.map_none, Option.toList_none, List.append_nil]
      exact .refl h
    | some synthesis =>
      have hdeclared := puts_declare (b := b) h
        ((Handler.ofAttribute name).declaration synthesis.expression)
      rw [set_withDeclarations hdeclarations] at hdeclared
      have hset := hdeclared.trans (Forest.puts_setAttribute hdeclared.self name synthesis.content)
      have hmem : name ∈ (b.boundAttributes done ++ (name, value) :: todo).names :=
        List.mem_map_of_mem (List.mem_append_right _ List.mem_cons_self)
      have hfresh : name ∉ (b.boundAttributes done).names := by
        rw [hdone]
        exact Entries.notMem_names_of_nodup hdistinct
      rw [withDeclarations_set hne hmem, Entries.set_append_cons hfresh] at hset
      exact hset

/-- Binding the attributes that are left, one after another. -/
theorem puts_foldl_bindAttribute (htarget : b.target ∈ b.skipped) {done todo : Attributes}
    {declarations : List Text} (hdistinct : (done ++ todo).names.Nodup)
    (hdeclarations : ∀ declaration ∈ declarations, Trimmed declaration)
    (h : s.forest.content? id = some (.element tag
      (b.withDeclarations (b.boundAttributes done ++ todo) declarations) children)) :
    s.forest.Puts (todo.names.foldl (fun s name => (b.bindAttribute id s name).1) s).forest id
      (.element tag (b.withDeclarations (b.boundAttributes (done ++ todo))
        (declarations ++ b.ownDeclarations todo)) children) := by
  induction todo generalizing s done declarations with
  | nil =>
    rw [List.append_nil] at h ⊢
    exact .refl (h.trans (by simp [ownDeclarations]))
  | cons entry todo ih =>
    obtain ⟨name, value⟩ := entry
    have hfirst := puts_bindAttribute htarget hdistinct hdeclarations h
    have hsplit : done ++ (name, value) :: todo = (done ++ [(name, value)]) ++ todo := by simp
    have hown : b.ownDeclarations ((name, value) :: todo) =
        b.ownDeclarations [(name, value)] ++ b.ownDeclarations todo := by
      rw [← List.singleton_append]
      exact List.filterMap_append
    rw [hsplit] at hdistinct
    have hlater := ih hdistinct (fun declaration hmem => by
      rcases List.mem_append.1 hmem with hmem | hmem
      · exact hdeclarations declaration hmem
      · exact trimmed_of_mem_ownDeclarations hmem) hfirst.self
    rw [hsplit, hown, ← List.append_assoc]
    exact hfirst.trans hlater

/-- Binding its attributes rewrites them in place and adds their declarations, in order. -/
theorem puts_bindAttributes (htarget : b.target ∈ b.skipped) {declarations : List Text}
    (hdistinct : attrs.names.Nodup)
    (hdeclarations : ∀ declaration ∈ declarations, Trimmed declaration)
    (h : s.forest.content? id = some (.element tag (b.withDeclarations attrs declarations) children)) :
    s.forest.Puts (b.bindAttributes id s).1.forest id (.element tag
      (b.withDeclarations (b.boundAttributes attrs) (declarations ++ b.ownDeclarations attrs))
      children) := by
  have hnames : (Entries.names (([] : Attributes) ++ attrs)).Nodup := hdistinct
  have hbound := puts_foldl_bindAttribute htarget hnames hdeclarations h
  rw [bindAttributes_fst, attributeNames, h]
  simp only
  unfold withDeclarations
  split
  · next hnil => simpa [withDeclarations, hnil] using hbound
  · rw [Entries.names_set]
    split
    · exact hbound
    · -- The binding attribute is new. It is among the names then, but it is skipped.
      rw [List.foldl_append, List.foldl_cons, List.foldl_nil]
      generalize attrs.names.foldl (fun s name => (b.bindAttribute id s name).1) s = bound at hbound ⊢
      unfold bindAttribute
      rw [if_pos (List.contains_iff_mem.2 htarget)]
      exact hbound

end Binder
end MarkupBinding
