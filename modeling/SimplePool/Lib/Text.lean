import Mathlib.Init

/-! Texts as ECMAScript trims them and reads digits in them. -/
namespace Text

/-- White space and line ends. -/
def isSpace (c : Char) : Bool :=
  c.toNat ∈ [9, 10, 11, 12, 13, 32, 0xa0, 0x1680, 0x2028, 0x2029, 0x202f, 0x205f, 0x3000, 0xfeff] ||
    (0x2000 ≤ c.toNat && c.toNat ≤ 0x200a)

def trim (text : String) : List Char :=
  ((text.toList.dropWhile isSpace).reverse.dropWhile isSpace).reverse

/-- The value of a hexadecimal digit. -/
def digitValue (c : Char) : Option Nat :=
  if '0' ≤ c ∧ c ≤ '9' then some (c.toNat - 48)
  else if 'a' ≤ c ∧ c ≤ 'f' then some (c.toNat - 87)
  else if 'A' ≤ c ∧ c ≤ 'F' then some (c.toNat - 55)
  else none

end Text
