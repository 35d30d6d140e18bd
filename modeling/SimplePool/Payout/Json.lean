import Mathlib.Data.Rat.Defs
import SimplePool.Lib.Text

/-! JSON values as the payout loop reads them, and the conversion of one to a `BigInt`. -/
namespace SimplePool.Payout

inductive Json where
  | null
  | bool (value : Bool)
  | number (value : ℚ)
  | string (text : String)
  | array (items : List Json)
  | object (fields : List (String × Json))

/-- A property of a value; `undefined` is `none`. -/
def Json.field (name : String) : Json → Option Json
  | .object fields => fields.lookup name
  | _ => none

/-- An assignment to a property that is there. -/
def Json.setField (tx : Json) (name : String) (value : Json) : Json :=
  match tx with
  | .object fields =>
    .object (fields.map fun field => if field.1 = name then (name, value) else field)
  | other => other

def Json.isString (text : String) : Option Json → Bool
  | some (.string other) => other = text
  | _ => false

/-- The text of a string. -/
def Json.textOf : Option Json → String
  | some (.string text) => text
  | _ => ""

theorem Json.isString_textOf (named : text ≠ "") (value : Option Json) :
    Json.isString text value = decide (Json.textOf value = text) := by
  rw [Json.isString.eq_def, Json.textOf.eq_def]
  split
  next => rfl
  next => exact (decide_eq_false (Ne.symm named)).symm

/-- What `??` takes for a value. -/
def Json.given : Option Json → Option Json
  | some .null => none
  | value => value

def readDigits (base : Nat) : List Char → Option Int
  | [] => none
  | digits => (digits.foldlM (fun acc c => (Text.digitValue c).bind fun d => if d < base
      then some (acc * base + d) else none) 0).map Int.ofNat

/-- Where `BigInt` throws there is no value. -/
def textBigInt (text : String) : Option Int :=
  match Text.trim text with
  | [] => some 0
  | '-' :: digits => (readDigits 10 digits).map fun value => -value
  | '+' :: digits => readDigits 10 digits
  | '0' :: 'x' :: digits | '0' :: 'X' :: digits => readDigits 16 digits
  | '0' :: 'o' :: digits | '0' :: 'O' :: digits => readDigits 8 digits
  | '0' :: 'b' :: digits | '0' :: 'B' :: digits => readDigits 2 digits
  | digits => readDigits 10 digits

/-- An array is read as the text of its items with commas between them. -/
def Json.itemBigInt : Json → Option Int
  | .null => some 0
  | .string text => textBigInt text
  | .number value => if value.den = 1 ∧ value.num.natAbs < 10 ^ 21 then some value.num else none
  | .array [] => some 0
  | .array [item] => item.itemBigInt
  | _ => none

def Json.bigInt : Json → Option Int
  | .bool value => some (if value then 1 else 0)
  | .number value => if value.den = 1 then some value.num else none
  | .string text => textBigInt text
  | .array items => (Json.array items).itemBigInt
  | .null | .object _ => none

theorem Json.field_setField (tx : Json) (value : Json) (there : tx.field name = some old) :
    (tx.setField name value).field name = some value := by
  cases tx with
  | object fields =>
    simp only [Json.setField, Json.field] at there ⊢
    induction fields with
    | nil => contradiction
    | cons field rest ih =>
      rw [List.map_cons]
      by_cases same : field.1 = name
      · rw [if_pos same, List.lookup_cons_self]
      · have apart : (name == field.1) = false := beq_eq_false_iff_ne.mpr (Ne.symm same)
        rw [if_neg same, List.lookup_cons, apart]
        rw [List.lookup_cons, apart] at there
        exact ih there
  | _ => contradiction

theorem Json.field_setField_other (tx : Json) (value : Json) (other : key ≠ name) :
    (tx.setField name value).field key = tx.field key := by
  cases tx with
  | object fields =>
    simp only [Json.setField, Json.field]
    induction fields with
    | nil => rfl
    | cons field rest ih =>
      rw [List.map_cons, List.lookup_cons, List.lookup_cons, ih]
      by_cases same : field.1 = name
      · rw [if_pos same, same, beq_eq_false_iff_ne.mpr other]
      · rw [if_neg same]
  | _ => rfl

theorem Json.bigInt_int (value : Int) : (Json.number value).bigInt = some value := by
  simp [Json.bigInt]

end SimplePool.Payout
