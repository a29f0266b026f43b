/-!
# Decimal and hexadecimal numerals

How whole numbers are read and written. A numeral is read strictly: ASCII
digits only, at least one of them, an optional sign in front, no blanks and no
digit groups, and a value that does not have the number of bits the caller names
is no numeral at all. Words are written with a fixed number of lower case
hexadecimal digits.
-/

namespace Polyglot.Text

/-- The value of one ASCII decimal digit. -/
def digitValue? (c : Char) : Option Nat :=
  if '0' ≤ c ∧ c ≤ '9' then some (c.toNat - '0'.toNat) else none

/-- The value of a run of decimal digits, `acc` standing for those before it. -/
def digitsValue? (acc : Nat) : List Char → Option Nat
  | [] => some acc
  | c :: cs => do digitsValue? (acc * 10 + (← digitValue? c)) cs

/-- The value of a numeral without a sign; it has at least one digit. -/
def natural? : List Char → Option Nat
  | [] => none
  | c :: cs => digitsValue? 0 (c :: cs)

/-- How many values `bits` bits have. -/
def bitRange (bits : Nat) : Nat := 1 <<< bits

/-- A natural number of `bits` bits, with an optional `+` in front. -/
def unsigned? (bits : Nat) (text : String) : Option Nat := do
  let cs := text.toList
  let n ← natural? (match cs with
    | '+' :: rest => rest
    | _ => cs)
  if n < bitRange bits then some n else none

/-- A signed integer of `bits` bits, with an optional `+` or `-` in front. -/
def signed? (bits : Nat) (cs : List Char) : Option Int := do
  let n ← match cs with
    | '+' :: rest => (natural? rest).map Int.ofNat
    | '-' :: rest => (natural? rest).map fun n => -Int.ofNat n
    | _ => (natural? cs).map Int.ofNat
  let half := bitRange (bits - 1)
  if -half ≤ n ∧ n < half then some n else none

/-- The lower case hexadecimal digit of a value below sixteen. -/
def hexDigit (n : Nat) : Char :=
  if n < 10 then Char.ofNat ('0'.toNat + n) else Char.ofNat ('a'.toNat + (n - 10))

/-- The last `count` hexadecimal digits of a number, the most significant
first, in front of `rest`. -/
def hexOnto : Nat → Nat → List Char → List Char
  | 0, _, rest => rest
  | count + 1, n, rest => hexOnto count (n / 16) (hexDigit (n % 16) :: rest)

/-- The last `count` hexadecimal digits of a number. -/
def hex (count n : Nat) : String :=
  String.ofList (hexOnto count n [])

end Polyglot.Text
