import MarkupBinding.Entries
import MarkupBinding.Insert.Basic
import MarkupBinding.Options.Value

/-!
# Options of a transform

A transform is configured by seven options. They come as named values, each name in one of two
spellings. All names are checked before any value; a value that is null, or that never came, is
taken from the options that serve as the base; then the values are checked in a fixed order.
-/

namespace MarkupBinding

/-- The options of a transform. -/
structure Options where
  /-- The attribute that receives the declarations. -/
  target : Text := "data-bind".toList
  /-- The attributes that are never searched for binding inserts. -/
  skipped : List Value := []
  /-- What stands around inserts that belong to the template engine. -/
  template : Delimiters := ⟨"\x7b\x7b".toList, "\x7d\x7d".toList⟩
  /-- What stands around binding expressions. -/
  binding : Delimiters := ⟨"\x7b".toList, "\x7d".toList⟩
  /-- The name that every expression is read from. -/
  root : Text := "this".toList
  /-- Whether empty void elements are closed with a slash. -/
  xhtml : Bool := false
  /-- Whether blanks in text are collapsed. -/
  collapses : Bool := false
deriving Repr

namespace Options

/-- The options by name, in the order in which they are listed. -/
inductive Field where
  | target
  | skipped
  | template
  | binding
  | root
  | xhtml
  | collapses
deriving DecidableEq, Repr

namespace Field

/-- All options. -/
def all : List Field := [target, skipped, template, binding, root, xhtml, collapses]

/-- The first spelling of an option's name, which messages use. -/
def name : Field → String
  | target => "binding_attribute_name"
  | skipped => "attributes_to_skip"
  | template => "template_delimiters"
  | binding => "binding_delimiters"
  | root => "expression_root"
  | xhtml => "xhtml_mode"
  | collapses => "normalize_whitespace"

/-- The second spelling of an option's name. -/
def camelName : Field → String
  | target => "bindingAttributeName"
  | skipped => "attributesToSkip"
  | template => "templateDelimiterPair"
  | binding => "bindingDelimiterPair"
  | root => "expressionRoot"
  | xhtml => "xhtmlMode"
  | collapses => "normalizeWhitespace"

/-- The option that has a name, in either spelling. -/
def ofName? (name : Text) : Option Field :=
  all.find? fun field => field.name.toList = name || field.camelName.toList = name

end Field

/-- Why options are refused. -/
inductive Error where
  | unknown (name : Text)
  | emptyTarget
  | emptyRoot
  /-- One text was given where a collection of names is due. -/
  | skippedText
  /-- A value that is no collection was given where a collection of names is due. -/
  | notIterable (type : String)
  /-- A value without a length was given where a pair is due. -/
  | noLength (type : String)
  | notPair (field : Field) (value : Value)
  | emptyDelimiter (field : Field)
  /-- A collection of names holds something that cannot be looked up. -/
  | unhashable (type : String)
deriving Repr

/-- The message for refused options. -/
def Error.message : Error → Text
  | .unknown name => "Unknown option: ".toList ++ Text.quoted name
  | .emptyTarget => Field.target.name.toList ++ " must be a non-empty string".toList
  | .emptyRoot => Field.root.name.toList ++ " must be a non-empty string".toList
  | .skippedText =>
    Field.skipped.name.toList ++
      " must be a collection of attribute names, not a string".toList
  | .notIterable type => "'".toList ++ type.toList ++ "' object is not iterable".toList
  | .noLength type => "object of type '".toList ++ type.toList ++ "' has no len()".toList
  | .notPair field value =>
    field.name.toList ++ " must be a pair of strings, got ".toList ++ value.display
  | .emptyDelimiter field => field.name.toList ++ " delimiters must not be empty".toList
  | .unhashable type => "unhashable type: '".toList ++ type.toList ++ "'".toList

/-! ## Checks of single values -/

/-- A text that is not empty; `error` says what is wrong otherwise. -/
def checkText (error : Error) : Value → Except Error Text
  | .text value => if value = [] then .error error else .ok value
  | _ => .error error

/-- A collection of names. The names of an object's entries are such a collection. -/
def checkNames : Value → Except Error (List Value)
  | .text _ => .error .skippedText
  | .list items => .ok items
  | .object entries => .ok (entries.map fun (key, _) => .text key)
  | value => .error (.notIterable value.typeName)

/-- A pair of delimiters, none of them empty. The names of an object's two entries will do. -/
def checkPair (field : Field) (value : Value) : Except Error Delimiters :=
  let pair (first second : Value) : Except Error Delimiters :=
    match first, second with
    | .text opening, .text closing =>
      if opening = [] ∨ closing = [] then .error (.emptyDelimiter field) else .ok ⟨opening, closing⟩
    | _, _ => .error (.notPair field value)
  match value with
  | .list [first, second] => pair first second
  | .object [(first, _), (second, _)] => pair (.text first) (.text second)
  | .text _ | .list _ | .object _ => .error (.notPair field value)
  | _ => .error (.noLength value.typeName)

/-- The options with the given values, checked in a fixed order. -/
def ofValues (value : Field → Value) : Except Error Options := do
  let target ← checkText .emptyTarget (value .target)
  let root ← checkText .emptyRoot (value .root)
  let skipped ← checkNames (value .skipped)
  let template ← checkPair .template (value .template)
  let binding ← checkPair .binding (value .binding)
  pure { target, skipped, template, binding, root,
         xhtml := (value .xhtml).isTrue, collapses := (value .collapses).isTrue }

/-- The value of an option. -/
def value (options : Options) : Field → Value
  | .target => .text options.target
  | .skipped => .list options.skipped
  | .template => .list [.text options.template.opening, .text options.template.closing]
  | .binding => .list [.text options.binding.opening, .text options.binding.closing]
  | .root => .text options.root
  | .xhtml => .bool options.xhtml
  | .collapses => .bool options.collapses

/-- Whether options are the defaults. -/
def isDefault (options : Options) : Bool :=
  let defaults : Options := {}
  options.target = defaults.target && options.skipped.isEmpty &&
    options.template = defaults.template && options.binding = defaults.binding &&
    options.root = defaults.root && !options.xhtml && !options.collapses

/-! ## Resolution -/

/-- Options that were given, in order. -/
abbrev Given := List (Field × Value)

/-- The options that have the given names. The first name that no option has is refused. -/
def named (pairs : Entries Value) : Except Error Given :=
  pairs.mapM fun (name, value) =>
    match Field.ofName? name with
    | some field => .ok (field, value)
    | none => .error (.unknown name)

/-- The last value given for an option. -/
def last? (given : Given) (field : Field) : Option Value := given.reverse.lookup field

/-- The options that were given, null included, and the defaults for all others. -/
def construct (given : Given) : Except Error Options :=
  ofValues fun field => (last? given field).getD (value {} field)

/-- The value of an option that is given, or that of the base where none or null is given. -/
def chosen (base : Options) (given : Given) (field : Field) : Value :=
  match last? given field with
  | none | some .null => base.value field
  | some value => value

/-- The options that result from a base and two lists of named values, the second of which has
precedence. -/
def resolve (base : Options) (options overrides : Entries Value) : Except Error Options := do
  let given ← named options
  let overriding ← named overrides
  ofValues (base.chosen (given ++ overriding))

/-! ## Skipped attributes -/

/-- The skipped entries as they were given. The first that has parts is refused, for it cannot be
looked up. -/
def checkedEntries (options : Options) : Except Error (List Value) :=
  match options.skipped.find? (!·.isSimple) with
  | some entry => .error (.unhashable entry.typeName)
  | none => .ok options.skipped

/-- The names of the attributes that are not searched. The binding attribute is always one of them;
entries that are no texts name nothing. -/
def skippedNames (options : Options) : Except Error (List Text) :=
  options.checkedEntries.map fun entries => options.target :: entries.filterMap Value.text?

/-- The skipped entries and the binding attribute in ascending order, each once. Of entries that are
the same the first one given is listed. -/
def skippedListing (options : Options) : Except Error (List Value) :=
  options.checkedEntries.map fun entries =>
    ((entries ++ [.text options.target]).eraseDupsBy Value.isSameEntry).mergeSort
      fun first second => !decide (second.sortKey < first.sortKey)

end Options
end MarkupBinding
