import CommandPack.Text.Chars

/-!
# Decimal numerals

A numeral is a nonempty run of ASCII digits, after at most one sign. Leading
zeros are allowed. A numeral whose value does not fit is no numeral.
-/

namespace CommandPack.Text

def isDigit (c : Char) : Bool :=
  '0' ≤ c && c ≤ '9'

def digitValue (c : Char) : Nat :=
  c.toNat - '0'.toNat

/-- The value of a run of digits that follows digits worth `value`. -/
def digitsValue (value : Nat) : List Char → Option Nat
  | [] => some value
  | c :: cs => if isDigit c then digitsValue (10 * value + digitValue c) cs else none

/-- The value of a nonempty run of digits. -/
def naturalChars? : List Char → Option Nat
  | [] => none
  | cs => digitsValue 0 cs

def maxUnsigned : Nat := 4294967295
def minSigned : Int := -2147483648
def maxSigned : Int := 2147483647

/-- Reads a number from 0 to `maxUnsigned`. -/
def unsigned? (s : String) : Option Nat :=
  let value :=
    match chars s with
    | '+' :: digits => naturalChars? digits
    | digits => naturalChars? digits
  value.filter (· ≤ maxUnsigned)

/-- Reads a number from `minSigned` to `maxSigned`. -/
def signed? (s : String) : Option Int :=
  let value : Option Int :=
    match chars s with
    | '+' :: digits => (naturalChars? digits).map Int.ofNat
    | '-' :: digits => (naturalChars? digits).map fun n => -(n : Int)
    | digits => (naturalChars? digits).map Int.ofNat
  value.filter fun n => minSigned ≤ n && n ≤ maxSigned

/-- The shortest numeral of a natural number. -/
def natural (n : Nat) : String :=
  String.ofList (Nat.toDigits 10 n)

/-- The shortest numeral of an integer. -/
def integer : Int → String
  | .ofNat n => natural n
  | .negSucc n => "-" ++ natural (n + 1)

end CommandPack.Text
