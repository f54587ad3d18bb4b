import Mathlib.Data.List.Perm.Basic
import MarkupBinding.Options.Basic

/-!
# Options are merged and then checked

Two lists of named values count as one. Its names are looked at first, and then only the last value of
each option. So it does not matter in which order different options were given, and the outcome is that
of the checks, made one after the other. What options hold passes the checks as it is.

* `Field.Accepts`: the values that an option may have, and what the options hold then.
* `Decides`: the outcome of all checks.
* `ofValues_decides`: what is made of seven values.
* `resolve_merges`: what is made of two lists of named values.
-/

namespace MarkupBinding.Options

/-! ## Names -/

namespace Field

/-- Whether a name is one of the two spellings of an option's name. -/
def Spelled (field : Field) (name : Text) : Prop :=
  name = field.name.toList ∨ name = field.camelName.toList

instance (field : Field) (name : Text) : Decidable (field.Spelled name) :=
  inferInstanceAs (Decidable (_ ∨ _))

theorem ofName?_eq_some_iff {field : Field} {name : Text} :
    ofName? name = some field ↔ field.Spelled name := by
  constructor
  · intro h
    have hname := List.find?_some h
    simp only [Bool.or_eq_true, decide_eq_true_eq] at hname
    exact hname.imp Eq.symm Eq.symm
  · rintro (rfl | rfl) <;> cases field <;> decide

/-- No name is a spelling of two options. -/
theorem Spelled.unique {field other : Field} {name : Text} (h : field.Spelled name)
    (hother : other.Spelled name) : field = other :=
  Option.some_inj.1 ((ofName?_eq_some_iff.2 h).symm.trans (ofName?_eq_some_iff.2 hother))

end Field

/-- Whether some option has a name. -/
def IsKnown (name : Text) : Prop := ∃ field : Field, field.Spelled name

theorem ofName?_eq_none_iff {name : Text} : Field.ofName? name = none ↔ ¬ IsKnown name := by
  rw [Option.eq_none_iff_forall_ne_some]
  simp only [ne_eq, Field.ofName?_eq_some_iff, IsKnown, not_exists]

/-- The values given for an option under either spelling, in order. -/
def valuesOf (pairs : Entries Value) (field : Field) : List Value :=
  pairs.filterMap fun (name, value) => if field.Spelled name then some value else none

/-- The last value given for an option, or the default where none or null was given last. -/
def merged (pairs : Entries Value) (field : Field) : Value :=
  match (valuesOf pairs field).getLast? with
  | none | some .null => value {} field
  | some value => value

theorem named_cons (name : Text) (value : Value) (pairs : Entries Value) :
    named ((name, value) :: pairs) =
      match Field.ofName? name with
      | some field => (named pairs).map ((field, value) :: ·)
      | none => .error (.unknown name) := by
  rw [named, List.mapM_cons]
  simp only
  cases Field.ofName? name with
  | none => rfl
  | some field =>
    show (named pairs >>= fun given => pure ((field, value) :: given)) = _
    cases named pairs <;> rfl

/-- Where all names are known, the values of each option are found in their order. -/
theorem exists_named (pairs : Entries Value) (h : ∀ pair ∈ pairs, IsKnown pair.1) :
    ∃ given, named pairs = .ok given ∧
      ∀ field, last? given field = (valuesOf pairs field).getLast? := by
  have hvalues : ∃ given, named pairs = .ok given ∧ ∀ field,
      given.filterMap (fun pair => if field == pair.1 then some pair.2 else none) =
        valuesOf pairs field := by
    induction pairs with
    | nil => exact ⟨[], rfl, fun _ => rfl⟩
    | cons pair pairs ih =>
      obtain ⟨name, value⟩ := pair
      obtain ⟨⟨field, hfield⟩, hknown⟩ := List.forall_mem_cons.1 h
      obtain ⟨given, hnamed, hvalues⟩ := ih hknown
      refine ⟨(field, value) :: given, ?_, fun other => ?_⟩
      · rw [named_cons, Field.ofName?_eq_some_iff.2 hfield, hnamed]
        rfl
      · have hsame : (other == field) = true ↔ other.Spelled name :=
          beq_iff_eq.trans ⟨fun heq => heq ▸ hfield, fun hother => hother.unique hfield⟩
        simp only [valuesOf, List.filterMap_cons, hsame] at hvalues ⊢
        split <;> simp only [hvalues]
  obtain ⟨given, hnamed, hvalues⟩ := hvalues
  refine ⟨given, hnamed, fun field => ?_⟩
  rw [← hvalues, List.getLast?_filterMap, last?, List.lookup_eq_findSome?]

/-- The first unknown name is refused. -/
theorem named_of_unknown {before after : Entries Value} {name : Text} {value : Value}
    (hbefore : ∀ pair ∈ before, IsKnown pair.1) (hname : ¬ IsKnown name) :
    named (before ++ (name, value) :: after) = .error (.unknown name) := by
  induction before with
  | nil => rw [List.nil_append, named_cons, ofName?_eq_none_iff.2 hname]
  | cons pair before ih =>
    obtain ⟨⟨field, hfield⟩, hbefore⟩ := List.forall_mem_cons.1 hbefore
    rw [List.cons_append, named_cons, Field.ofName?_eq_some_iff.2 hfield, ih hbefore]
    rfl

/-- Two lists count as one. -/
theorem resolve_eq (base : Options) (options overrides : Entries Value) :
    resolve base options overrides =
      named (options ++ overrides) >>= fun given => ofValues (base.chosen given) := by
  unfold resolve named
  rw [List.mapM_append]
  simp only [bind_assoc, pure_bind]

theorem resolve_of_known (options overrides : Entries Value)
    (h : ∀ pair ∈ options ++ overrides, IsKnown pair.1) :
    resolve {} options overrides = ofValues (merged (options ++ overrides)) := by
  obtain ⟨given, hnamed, hlast⟩ := exists_named _ h
  have hchosen : chosen {} given = merged (options ++ overrides) := by
    funext field
    cases hvalues : (valuesOf (options ++ overrides) field).getLast? with
    | none => simp only [chosen, merged, hlast, hvalues]
    | some value => cases value <;> simp only [chosen, merged, hlast, hvalues]
  rw [resolve_eq, hnamed, ← hchosen]
  rfl

/-! ## Checks -/

namespace Field

/-- The values that an option may have, and the value that the options hold then. -/
inductive Accepts : Field → Value → Value → Prop
  | target {text : Text} (h : text ≠ []) : Accepts .target (.text text) (.text text)
  | root {text : Text} (h : text ≠ []) : Accepts .root (.text text) (.text text)
  | list (items : List Value) : Accepts .skipped (.list items) (.list items)
  | keys (entries : Entries Value) :
    Accepts .skipped (.object entries) (.list (entries.names.map .text))
  | pair {field : Field} (hfield : field = .template ∨ field = .binding) {opening closing : Text}
      (hopening : opening ≠ []) (hclosing : closing ≠ []) :
    Accepts field (.list [.text opening, .text closing]) (.list [.text opening, .text closing])
  | pairKeys {field : Field} (hfield : field = .template ∨ field = .binding)
      {opening closing : Text} (hopening : opening ≠ []) (hclosing : closing ≠ [])
      (first second : Value) :
    Accepts field (.object [(opening, first), (closing, second)])
      (.list [.text opening, .text closing])
  | truth {field : Field} (hfield : field = .xhtml ∨ field = .collapses) (value : Value) :
    Accepts field value (.bool value.isTrue)

/-- What the options hold is accepted as it is. -/
theorem Accepts.again {field : Field} {value normal : Value} (h : field.Accepts value normal) :
    field.Accepts normal normal := by
  cases h with
  | target h => exact .target h
  | root h => exact .root h
  | list items => exact .list items
  | keys entries => exact .list _
  | pair hfield hopening hclosing => exact .pair hfield hopening hclosing
  | pairKeys hfield hopening hclosing first second => exact .pair hfield hopening hclosing
  | truth hfield value => exact .truth hfield (.bool value.isTrue)

/-- The check of an option's value. -/
def check (field : Field) (value : Value) : Except Error Value :=
  let pair (delimiters : Delimiters) : Value :=
    .list [.text delimiters.opening, .text delimiters.closing]
  match field with
  | target => (checkText .emptyTarget value).map .text
  | skipped => (checkNames value).map .list
  | template => (checkPair .template value).map pair
  | binding => (checkPair .binding value).map pair
  | root => (checkText .emptyRoot value).map .text
  | xhtml | collapses => .ok (.bool value.isTrue)

theorem Accepts.check_eq {field : Field} {value normal : Value} (h : field.Accepts value normal) :
    field.check value = .ok normal := by
  cases h with
  | target h | root h => simp [check, checkText, h, Except.map]
  | list items => rfl
  | keys entries => simp [check, checkNames, Entries.names, Except.map]
  | pair hfield hopening hclosing =>
    rcases hfield with rfl | rfl <;> simp [check, checkPair, hopening, hclosing, Except.map]
  | pairKeys hfield hopening hclosing first second =>
    rcases hfield with rfl | rfl <;> simp [check, checkPair, hopening, hclosing, Except.map]
  | truth hfield value => rcases hfield with rfl | rfl <;> rfl

theorem eq_text_of_checkText {error : Error} {value : Value} {text : Text}
    (h : checkText error value = .ok text) : value = .text text ∧ text ≠ [] := by
  unfold checkText at h
  split at h
  · split at h
    · cases h
    · next hnil =>
      cases h
      exact ⟨rfl, hnil⟩
  · cases h

theorem accepts_of_checkPair {field : Field} (hfield : field = .template ∨ field = .binding)
    {value : Value} {delimiters : Delimiters} (h : checkPair field value = .ok delimiters) :
    field.Accepts value (.list [.text delimiters.opening, .text delimiters.closing]) := by
  unfold checkPair at h
  simp only at h
  split at h
  · split at h
    · split at h
      · cases h
      · next hnil =>
        cases h
        exact .pair hfield (not_or.1 hnil).1 (not_or.1 hnil).2
    · cases h
  · split at h
    · cases h
    · next hnil =>
      cases h
      exact .pairKeys hfield (not_or.1 hnil).1 (not_or.1 hnil).2 _ _
  all_goals cases h

/-- A check lets a value pass just if the option may have it. -/
theorem check_eq_ok_iff {field : Field} {value normal : Value} :
    field.check value = .ok normal ↔ field.Accepts value normal := by
  refine ⟨fun h => ?_, Accepts.check_eq⟩
  have hmap : ∀ {α : Type} {outcome : Except Error α} {make : α → Value},
      outcome.map make = .ok normal → ∃ made, outcome = .ok made ∧ make made = normal := by
    intro α outcome make hmap
    cases outcome with
    | error error => cases hmap
    | ok made => exact ⟨made, rfl, Except.ok.inj hmap⟩
  cases field with
  | target =>
    obtain ⟨text, htext, rfl⟩ := hmap h
    obtain ⟨rfl, hnil⟩ := eq_text_of_checkText htext
    exact .target hnil
  | root =>
    obtain ⟨text, htext, rfl⟩ := hmap h
    obtain ⟨rfl, hnil⟩ := eq_text_of_checkText htext
    exact .root hnil
  | skipped =>
    obtain ⟨items, hitems, rfl⟩ := hmap h
    cases value with
    | list given =>
      cases hitems
      exact .list items
    | object entries =>
      cases hitems
      have hkeys := Accepts.keys entries
      rwa [Entries.names, List.map_map] at hkeys
    | _ => cases hitems
  | template =>
    obtain ⟨delimiters, hpair, rfl⟩ := hmap h
    exact accepts_of_checkPair (.inl rfl) hpair
  | binding =>
    obtain ⟨delimiters, hpair, rfl⟩ := hmap h
    exact accepts_of_checkPair (.inr rfl) hpair
  | xhtml =>
    cases h
    exact .truth (.inl rfl) value
  | collapses =>
    cases h
    exact .truth (.inr rfl) value

end Field

/-! ## The outcome of all checks -/

/-- The order in which the values are checked. -/
def order : List Field :=
  [.target, .root, .skipped, .template, .binding, .xhtml, .collapses]

/-- An outcome that is that of the checks: options that hold what the checks made of the values if all
of them were accepted, or else the error of the first check that failed. -/
structure Decides (values : Field → Value) (outcome : Except Error Options) : Prop where
  ok_iff (options : Options) :
    outcome = .ok options ↔ ∀ field : Field, field.Accepts (values field) (options.value field)
  error_iff (error : Error) :
    outcome = .error error ↔ ∃ before field after, order = before ++ field :: after ∧
      (∀ other ∈ before, ∃ normal, other.Accepts (values other) normal) ∧
        field.check (values field) = .error error

/-- The error of an option's check, if it fails. -/
def refusal? (values : Field → Value) (field : Field) : Option Error :=
  match field.check (values field) with
  | .ok _ => none
  | .error error => some error

theorem refusal?_eq_some_iff {values : Field → Value} {field : Field} {error : Error} :
    refusal? values field = some error ↔ field.check (values field) = .error error := by
  unfold refusal?
  cases field.check (values field) <;> simp

theorem refusal?_eq_none_iff {values : Field → Value} {field : Field} :
    refusal? values field = none ↔ ∃ normal, field.Accepts (values field) normal := by
  simp only [← Field.check_eq_ok_iff]
  unfold refusal?
  cases field.check (values field) <;> simp

/-- One check after the other. -/
theorem ofValues_cases (values : Field → Value) :
    (∃ options, ofValues values = .ok options ∧
      ∀ field : Field, field.check (values field) = .ok (options.value field)) ∨
    ∃ error, ofValues values = .error error ∧ order.findSome? (refusal? values) = some error := by
  unfold ofValues
  -- A check that fails is the first one, for no check is made unless those before it pass.
  cases htarget : checkText .emptyTarget (values .target) with
  | error error =>
    exact .inr ⟨error, rfl, by simp [order, refusal?, Field.check, htarget, Except.map]⟩
  | ok target =>
    cases hroot : checkText .emptyRoot (values .root) with
    | error error =>
      exact .inr ⟨error, rfl, by simp [order, refusal?, Field.check, htarget, hroot, Except.map]⟩
    | ok root =>
      cases hskipped : checkNames (values .skipped) with
      | error error =>
        exact .inr ⟨error, rfl, by
          simp [order, refusal?, Field.check, htarget, hroot, hskipped, Except.map]⟩
      | ok skipped =>
        cases htemplate : checkPair .template (values .template) with
        | error error =>
          exact .inr ⟨error, rfl, by
            simp [order, refusal?, Field.check, htarget, hroot, hskipped, htemplate, Except.map]⟩
        | ok template =>
          cases hbinding : checkPair .binding (values .binding) with
          | error error =>
            exact .inr ⟨error, rfl, by
              simp [order, refusal?, Field.check, htarget, hroot, hskipped, htemplate, hbinding,
                Except.map]⟩
          | ok binding =>
            refine .inl ⟨_, rfl, fun field => ?_⟩
            cases field <;>
              simp [Field.check, value, htarget, hroot, hskipped, htemplate, hbinding, Except.map]

/-- Options are told apart by the values they hold. -/
theorem eq_of_value_eq {options other : Options}
    (h : ∀ field, options.value field = other.value field) : options = other := by
  have htarget := h .target
  have hskipped := h .skipped
  have htemplate := h .template
  have hbinding := h .binding
  have hroot := h .root
  have hxhtml := h .xhtml
  have hcollapses := h .collapses
  obtain ⟨target, skipped, ⟨opening, closing⟩, ⟨opening', closing'⟩, root, xhtml, collapses⟩ :=
    options
  simp_all [value]

/-- The outcome for seven values is that of the checks. -/
theorem ofValues_decides (values : Field → Value) : Decides values (ofValues values) := by
  have hfails : ∀ error, (∃ before field after, order = before ++ field :: after ∧
      (∀ other ∈ before, ∃ normal, other.Accepts (values other) normal) ∧
        field.check (values field) = .error error) ↔
          order.findSome? (refusal? values) = some error := by
    intro error
    simp only [List.findSome?_eq_some_iff, refusal?_eq_some_iff, refusal?_eq_none_iff]
    exact exists₃_congr fun before field after => and_congr_right fun _ => and_comm
  rcases ofValues_cases values with ⟨options, hok, hchecks⟩ | ⟨error, herror, hfirst⟩
  · refine ⟨fun other => ?_, fun error => ?_⟩
    · rw [hok, Except.ok.injEq]
      constructor
      · rintro rfl field
        exact Field.check_eq_ok_iff.1 (hchecks field)
      · intro hother
        exact eq_of_value_eq fun field =>
          Except.ok.inj ((hchecks field).symm.trans (hother field).check_eq)
    · have hnone : order.findSome? (refusal? values) = none :=
        List.findSome?_eq_none_iff.2 fun field _ =>
          refusal?_eq_none_iff.2 ⟨_, Field.check_eq_ok_iff.1 (hchecks field)⟩
      rw [hok, hfails, hnone]
      simp only [reduceCtorEq]
  · refine ⟨fun options => ?_, fun other => ?_⟩
    · rw [herror]
      refine iff_of_false (fun h => nomatch h) fun hall => ?_
      obtain ⟨-, field, -, -, hrefused, -⟩ := List.findSome?_eq_some_iff.1 hfirst
      rw [refusal?_eq_none_iff.2 ⟨_, hall field⟩] at hrefused
      cases hrefused
    · rw [herror, hfails, hfirst, Except.error.injEq, Option.some_inj]

/-- What options hold is accepted as it is. -/
theorem ofValues_value {values : Field → Value} {options : Options}
    (h : ofValues values = .ok options) : ofValues options.value = .ok options :=
  ((ofValues_decides options.value).ok_iff options).2 fun field =>
    (((ofValues_decides values).ok_iff options).1 h field).again

/-! ## Both together -/

/-- What options hold, under any spelling of each name and in any order, is what they hold when it is
merged. -/
theorem merged_value {options : Options} {spelling : Field → Text}
    (hspelling : ∀ field : Field, field.Spelled (spelling field)) {pairs : Entries Value}
    (hpairs : pairs.Perm (Field.all.map fun field => (spelling field, options.value field))) :
    merged pairs = options.value := by
  funext field
  have hsame : ∀ other : Field, field.Spelled (spelling other) ↔ other = field := fun other =>
    ⟨fun h => (hspelling other).unique h, fun h => h ▸ hspelling other⟩
  have hvalues : valuesOf pairs field = [options.value field] := by
    have hperm := hpairs.filterMap fun (name, value) =>
      if field.Spelled name then some value else none
    simp only [List.filterMap_map, Function.comp_def, hsame] at hperm
    refine List.perm_singleton.1 (hperm.trans (List.Perm.of_eq ?_))
    cases field <;> rfl
  unfold merged
  rw [hvalues]
  cases field <;> rfl

/-- **Resolution is one merge in order.** Two lists of named values count as one, the second behind the
first. If it has unknown names, the first of them is refused whatever the values are. Otherwise the
last value of each option counts, or the default where there is none or the last one is null, and the
outcome is that of the checks of these values. It does not matter in which order different options
were given. And what options hold that were resolved, with the names in either spelling and in any
order, is resolved to the same options. -/
theorem resolve_merges (options overrides : Entries Value) :
    (∀ before name value after, options ++ overrides = before ++ (name, value) :: after →
      (∀ pair ∈ before, IsKnown pair.1) → ¬ IsKnown name →
        resolve {} options overrides = .error (.unknown name)) ∧
    ((∀ pair ∈ options ++ overrides, IsKnown pair.1) →
      Decides (merged (options ++ overrides)) (resolve {} options overrides) ∧
      ∀ options' overrides', (∀ pair ∈ options' ++ overrides', IsKnown pair.1) →
        (∀ field, valuesOf (options' ++ overrides') field = valuesOf (options ++ overrides) field) →
          resolve {} options' overrides' = resolve {} options overrides) ∧
    ∀ resolved, resolve {} options overrides = .ok resolved →
      ∀ spelling : Field → Text, (∀ field : Field, field.Spelled (spelling field)) →
        ∀ options' overrides' : Entries Value, (options' ++ overrides').Perm
            (Field.all.map fun field => (spelling field, resolved.value field)) →
          resolve {} options' overrides' = .ok resolved := by
  refine ⟨fun before name value after hpairs hbefore hname => ?_, fun hknown => ⟨?_, ?_⟩, ?_⟩
  · rw [resolve_eq, hpairs, named_of_unknown hbefore hname]
    rfl
  · rw [resolve_of_known _ _ hknown]
    exact ofValues_decides _
  · intro options' overrides' hknown' hvalues
    have hmerged : merged (options' ++ overrides') = merged (options ++ overrides) := by
      funext field
      unfold merged
      rw [hvalues]
    rw [resolve_of_known _ _ hknown', resolve_of_known _ _ hknown, hmerged]
  · intro resolved hresolved spelling hspelling options' overrides' hperm
    have hknown : ∀ pair ∈ options' ++ overrides', IsKnown pair.1 := by
      intro pair hpair
      obtain ⟨field, -, rfl⟩ := List.mem_map.1 (hperm.subset hpair)
      exact ⟨field, hspelling field⟩
    rw [resolve_of_known _ _ hknown, merged_value hspelling hperm]
    rw [resolve_eq] at hresolved
    obtain ⟨given, -, hgiven⟩ : ∃ given, named (options ++ overrides) = .ok given ∧
        ofValues (chosen {} given) = .ok resolved := by
      cases hnamed : named (options ++ overrides) with
      | error error =>
        rw [hnamed] at hresolved
        cases hresolved
      | ok given =>
        rw [hnamed] at hresolved
        exact ⟨given, rfl, hresolved⟩
    exact ofValues_value hgiven

end MarkupBinding.Options
