import SqlLineage.Text.Alphabetic
import SqlLineage.Text.Numeric

/-!
# Character classes

The classes that decide where a word ends and what counts as blank. All of them cover the whole of
Unicode; the ASCII part is decided without a table.

* `isBlank`: the property White_Space.
* `isAlphabetic`, `isNumeric`: the property Alphabetic and the categories of numbers.
* `isWordChar`: what an unquoted word is made of.
-/

namespace SqlLineage.Text
set_option autoImplicit false

def inRanges (n : Nat) (ranges : List (Nat × Nat)) : Bool :=
  ranges.any fun r => r.1 ≤ n && n ≤ r.2

/-- White space in the sense of Unicode. A line break, a tab and a no-break space count; a zero-width
space and a byte order mark do not. -/
def isBlank (c : Char) : Bool :=
  let n := c.toNat
  (9 ≤ n && n ≤ 13) || n == 32 || n == 0x85 || n == 0xA0 || n == 0x1680 || (0x2000 ≤ n && n ≤ 0x200A)
    || n == 0x2028 || n == 0x2029 || n == 0x202F || n == 0x205F || n == 0x3000

def isAlphabetic (c : Char) : Bool :=
  if c.toNat < 0x80 then c.isAlpha
  else inRanges c.toNat alphabeticLow || inRanges c.toNat alphabeticMiddle
    || inRanges c.toNat alphabeticHigh

def isNumeric (c : Char) : Bool :=
  if c.toNat < 0x80 then c.isDigit else inRanges c.toNat numericRanges

/-- Unquoted words hold letters and digits of any script and four signs that dialects use in names. -/
def isWordChar (c : Char) : Bool :=
  isAlphabetic c || isNumeric c || c == '_' || c == '$' || c == '#' || c == '@'

theorem isBlank_newline : isBlank '\n' = true := rfl

end SqlLineage.Text
