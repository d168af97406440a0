/-! # Numbers in YAML texts

Integers of 64 bits, and decimal numbers, which are rounded to floating-point numbers.
-/

namespace LetPoly.Yaml

/-! ## Integers -/

/-- The value of a digit, where letters go on from ten. -/
def digitValue? (c : Char) : Option Nat :=
  if c.isDigit then some (c.toNat - '0'.toNat)
  else if c.isLower then some (c.toNat - 'a'.toNat + 10)
  else if c.isUpper then some (c.toNat - 'A'.toNat + 10)
  else none

/-- The value of one or more digits to a base. -/
def digitsValue? (base : Nat) (cs : List Char) : Option Nat :=
  if cs.isEmpty then
    none
  else
    cs.foldlM (fun n c => (digitValue? c).bind fun d =>
      if d < base then some (base * n + d) else none) 0

/-- The value of digits to the base that they begin with: two, eight or sixteen after a zero and a
letter, eight after a zero, and otherwise ten. -/
def natural? (cs : List Char) : Option Nat :=
  match cs with
  | '0' :: b :: ds =>
    if b == 'x' || b == 'X' then digitsValue? 16 ds
    else if b == 'b' || b == 'B' then digitsValue? 2 ds
    else if b == 'o' || b == 'O' then digitsValue? 8 ds
    else digitsValue? 8 (b :: ds)
  | _ => digitsValue? 10 cs

/-- The number that a sign and digits stand for, in 64 bits. -/
def signed? (value : List Char → Option Nat) (cs : List Char) : Option Int := do
  let n ← match cs with
    | '-' :: ds => (value ds).map fun n => -(n : Int)
    | '+' :: ds => (value ds).map fun n => (n : Int)
    | ds => (value ds).map fun n => (n : Int)
  guard (Int64.minValue.toInt ≤ n && n ≤ Int64.maxValue.toInt)
  return n

/-- The number that digits without a sign stand for, in 64 bits. -/
def unsigned? (value : List Char → Option Nat) (cs : List Char) : Option Int := do
  let n ← value cs
  guard (n < UInt64.size)
  return n

/-- An integer. A sign may stand before the base or, for the bases two and eight, behind it. -/
def integer? (cs : List Char) : Option Int :=
  let behind := match cs with
    | '0' :: 'b' :: ds => (signed? (digitsValue? 2) ds).or (unsigned? (digitsValue? 2) ds)
    | '0' :: 'o' :: ds => (signed? (digitsValue? 8) ds).or (unsigned? (digitsValue? 8) ds)
    | _ => none
  ((signed? natural? cs).or (unsigned? natural? cs)).or behind

/-! ## Floating-point numbers -/

/-- A floating-point number of 64 bits. The finite ones are counted in units of the least positive
one, so there is one zero. -/
inductive Binary64 where
  | nan
  | infinite (negative : Bool)
  | finite (units : Int)
  deriving DecidableEq

/-- The digits of a decimal number, its point moved behind the last one, and the exponent of ten. -/
structure Decimal where
  digits : Nat
  exponent : Int := 0

/-- A decimal number without a sign: digits with a point among them or not, and perhaps an
exponent. There is a digit before or behind the point. -/
def decimal? (cs : List Char) : Option Decimal := do
  let (whole, cs) := cs.span Char.isDigit
  let (fraction, cs) := match cs with
    | '.' :: cs => cs.span Char.isDigit
    | cs => ([], cs)
  let digits ← digitsValue? 10 (whole ++ fraction)
  let exponent ← match cs with
    | [] => some (0 : Int)
    | e :: cs =>
      if e == 'e' || e == 'E' then
        match cs with
        | '-' :: ds => (digitsValue? 10 ds).map fun n => -(n : Int)
        | '+' :: ds => (digitsValue? 10 ds).map fun n => (n : Int)
        | ds => (digitsValue? 10 ds).map fun n => (n : Int)
      else none
  return ⟨digits, exponent - fraction.length⟩

/-- The integer nearest to a quotient, and of two of them the even one. -/
def nearestQuotient (n d : Nat) : Nat :=
  let q := n / d
  let r := 2 * (n % d)
  if d < r || (r == d && q % 2 == 1) then q + 1 else q

/-- The number of units of the floating-point number that is nearest to a decimal number, if that is
finite. A number has 53 bits, except that there is nothing between the least one and zero. Below
`10 ^ -400` everything is zero, and above `10 ^ 400` nothing is finite. -/
def Decimal.units? (d : Decimal) : Option Nat :=
  if d.digits == 0 || (Nat.toDigits 10 d.digits).length + 400 < -d.exponent then
    some 0
  else if 400 < d.exponent then
    none
  else
    let n := d.digits * Nat.pow 10 d.exponent.toNat * Nat.pow 2 1074
    let scale := Nat.pow 10 (-d.exponent).toNat
    let step := Nat.pow 2 ((n / scale).log2 - 52)
    let units := nearestQuotient n (scale * step) * step
    if units < Nat.pow 2 2098 then some units else none

/-- The floating-point number nearest to an integer of 64 bits. -/
def Binary64.ofInt (n : Int) : Binary64 :=
  .finite (n.sign * ((Decimal.mk n.natAbs 0).units?.getD 0))

/-- A finite floating-point number with an optional sign. -/
def Binary64.ofText? (cs : List Char) : Option Binary64 :=
  let units? (ds : List Char) : Option Int := do
    return (← (← decimal? ds).units?)
  match cs with
  | '-' :: ds => (units? ds).map fun u => .finite (-u)
  | '+' :: ds => (units? ds).map .finite
  | ds => (units? ds).map .finite

/-- Whether each underscore stands between two digits. -/
def underscoresFit : (afterDigit : Bool) → List Char → Bool
  | _, [] => true
  | afterDigit, '_' :: cs =>
    afterDigit && cs.head?.any Char.isDigit && underscoresFit false cs
  | _, c :: cs => underscoresFit c.isDigit cs

end LetPoly.Yaml
