import MarkupBinding.Text.Quoted

/-!
# Option values

The values that an option may be given before it is checked: what a configuration file can hold,
numbers with a fraction left out. No option takes a number, so such a number is treated like a whole
one: it is refused under the name of its type, shown inside of a refused list, and true unless it is
zero. A refused value is shown in the message, and a value of the wrong type is named by its type.
-/

namespace MarkupBinding

/-- A value of any type that an option is given. Of numbers there are only the whole ones. -/
inductive Value where
  | null
  | bool (value : Bool)
  | int (value : Int)
  | text (value : Text)
  | list (items : List Value)
  | object (entries : List (Text × Value))
deriving Repr

namespace Value

/-- The name of a value's type. -/
def typeName : Value → String
  | null => "NoneType"
  | bool _ => "bool"
  | int _ => "int"
  | text _ => "str"
  | list _ => "list"
  | object _ => "dict"

/-- Whether a value counts as true: not when it is null, false, zero or empty. -/
def isTrue : Value → Bool
  | null => false
  | bool value => value
  | int value => value ≠ 0
  | text value => !value.isEmpty
  | list items => !items.isEmpty
  | object entries => !entries.isEmpty

/-- The text that a value is. -/
def text? : Value → Option Text
  | text value => some value
  | _ => none

/-- The number that a value is. The truth values are the numbers one and zero. -/
def number? : Value → Option Int
  | bool value => some (if value then 1 else 0)
  | int value => some value
  | _ => none

/-- Whether a value has no parts. Only such values can be looked up in a collection. -/
def isSimple : Value → Bool
  | list _ | object _ => false
  | _ => true

/-- Whether two simple values stand for one entry of a collection: equal texts, equal numbers, or
null on both sides. -/
def isSameEntry : Value → Value → Bool
  | null, null => true
  | text first, text second => first = second
  | first, second => first.number?.isSome && first.number? = second.number?

/-- The text by which simple values are put in order. -/
def sortKey : Value → Text
  | null => "null".toList
  | bool value => (toString value).toList
  | int value => (toString value).toList
  | text value => value
  | list _ | object _ => []

mutual

/-- A value in a message. -/
def display : Value → Text
  | null => "None".toList
  | bool true => "True".toList
  | bool false => "False".toList
  | int value => (toString value).toList
  | text value => Text.quoted value
  | list items => '[' :: [',', ' '].intercalate (displayItems items) ++ [']']
  | object entries => '\x7b' :: [',', ' '].intercalate (displayEntries entries) ++ ['\x7d']

/-- The items of a list in a message. -/
def displayItems : List Value → List Text
  | [] => []
  | item :: items => display item :: displayItems items

/-- The entries of an object in a message. -/
def displayEntries : List (Text × Value) → List Text
  | [] => []
  | (key, value) :: entries =>
    (Text.quoted key ++ [':', ' '] ++ display value) :: displayEntries entries

end

end Value
end MarkupBinding
