/-!
# Ranges of characters

A class of characters is given as the ascending list of its ranges of code points. A search stops
at the first range that lies above the character, so common characters are found at once.
-/

namespace MarkupBinding.Text

/-- Ranges of code points, both ends included, in ascending order. -/
abbrev Ranges := List (Nat × Nat)

namespace Ranges

/-- Whether a code point lies in one of the ranges. -/
def contains : Ranges → Nat → Bool
  | [], _ => false
  | (first, last) :: ranges, n =>
    if n < first then false else if n ≤ last then true else contains ranges n

end Ranges
end MarkupBinding.Text
