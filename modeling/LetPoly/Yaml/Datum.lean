import LetPoly.Yaml.Datum.Time

/-! # What scalars stand for

A scalar without a tag stands for a null, a truth value, a number, a time or its text, by the form
of the text. A tag asks for one of these; a tag of another kind accepts every text.
-/

namespace LetPoly.Yaml

/-- What a scalar stands for. -/
inductive Datum where
  | null
  | bool (b : Bool)
  | int (n : Int)
  | float (x : Binary64)
  | time (t : Time)
  | text (s : String)
  /-- Binary data that is no text. -/
  | octets (ns : List Nat)
  deriving DecidableEq

/-- Whether two data are the same. What is no number is not the same as anything, nor is a time in a
zone without a name. -/
def Datum.isSame (a b : Datum) : Bool :=
  a == b && match a with
    | float x => x != .nan
    | time t => t.zone != .unnamed
    | _ => true

/-! ## Tags -/

/-- What the names of the format's own tags begin with. -/
def tagBase : String := "tag:yaml.org,2002:"

/-- The short form of a tag. -/
def shortTag (tag : String) : String :=
  if tag.startsWith tagBase then
    "!!" ++ String.ofList (tag.toList.drop tagBase.length)
  else
    tag

def nullTag : String := "!!null"
def boolTag : String := "!!bool"
def intTag : String := "!!int"
def floatTag : String := "!!float"
def timeTag : String := "!!timestamp"
def strTag : String := "!!str"
def binaryTag : String := "!!binary"
def mergeTag : String := "!!merge"
def sequenceTag : String := "!!seq"
def mappingTag : String := "!!map"

/-- The tag of what a scalar stands for. -/
def Datum.tag : Datum → String
  | null => nullTag
  | bool _ => boolTag
  | int _ => intTag
  | float _ => floatTag
  | time _ => timeTag
  | text _ => strTag
  | octets _ => binaryTag

/-! ## Scalars -/

/-- The words for null, for the truth values and for the floating-point numbers without digits. -/
def datumWords : List (String × Datum) :=
  (["", "~", "null", "Null", "NULL"].map (·, Datum.null)) ++
  (["true", "True", "TRUE"].map (·, Datum.bool true)) ++
  (["false", "False", "FALSE"].map (·, Datum.bool false)) ++
  ([".nan", ".NaN", ".NAN"].map (·, Datum.float .nan)) ++
  ([".inf", ".Inf", ".INF", "+.inf", "+.Inf", "+.INF"].map (·, Datum.float (.infinite false))) ++
  (["-.inf", "-.Inf", "-.INF"].map (·, Datum.float (.infinite true)))

/-- What a text stands for by its form. Times are looked for if `times` is set. Underscores in
numbers do not count. -/
def Datum.ofText (times : Bool) (s : String) : Datum :=
  let cs := s.toList
  match datumWords.lookup s, cs with
  | some d, _ => d
  | none, [] => .null
  | none, c :: _ =>
    let plain := cs.filter (· != '_')
    if c == '.' then
      ((if underscoresFit false cs then Binary64.ofText? plain else none).map .float).getD (.text s)
    else if c.isDigit || c == '+' || c == '-' then
      let time? := if times then Time.ofText? cs else none
      let number? := (integer? plain).map int <|> (Binary64.ofText? plain).map float
      (time?.map time <|> number?).getD (.text s)
    else
      .text s

/-- The tag of a plain scalar without a tag. -/
def plainTag (s : String) : String :=
  if s == "<<" then mergeTag else (Datum.ofText true s).tag

/-! ## Binary data -/

/-- The value of a character of the base-64 alphabet. -/
def base64Value? (c : Char) : Option Nat :=
  if c.isUpper then some (c.toNat - 'A'.toNat)
  else if c.isLower then some (c.toNat - 'a'.toNat + 26)
  else if c.isDigit then some (c.toNat - '0'.toNat + 52)
  else if c == '+' then some 62
  else if c == '/' then some 63
  else none

/-- The octets of base-64 data, in groups of four characters; the last group may be filled up. -/
def base64Octets? : List Char → Option (List Nat)
  | [] => some []
  | [a, b, '=', '='] => do
    let n := 64 * (← base64Value? a) + (← base64Value? b)
    return [n / 16]
  | [a, b, c, '='] => do
    let n := 4096 * (← base64Value? a) + 64 * (← base64Value? b) + (← base64Value? c)
    return [n / 1024, n / 4 % 256]
  | a :: b :: c :: d :: cs => do
    let n := 262144 * (← base64Value? a) + 4096 * (← base64Value? b) + 64 * (← base64Value? c) +
      (← base64Value? d)
    return n / 65536 :: n / 256 % 256 :: n % 256 :: (← base64Octets? cs)
  | _ => none

/-- The data of a text in base 64. Line ends do not count. -/
def Datum.ofBase64? (s : String) : Option Datum := do
  let ns ← base64Octets? (s.toList.filter fun c => c != '\n' && c != '\r')
  match String.fromUTF8? ⟨(ns.map Nat.toUInt8).toArray⟩ with
  | some s => return .text s
  | none => return .octets ns

/-! ## Tagged scalars -/

/-- What a scalar with a tag stands for, if the text is of the tag's kind. An integer is a
floating-point number too, unless it takes all of 64 bits. -/
def Datum.ofTagged? (tag s : String) : Option Datum :=
  if tag == binaryTag then
    Datum.ofBase64? s
  else if tag == nullTag || tag == boolTag || tag == intTag || tag == floatTag ||
      tag == timeTag then
    match Datum.ofText (tag == timeTag) s with
    | .int n =>
      if tag == intTag then some (.int n)
      else if tag == floatTag && n ≤ Int64.maxValue.toInt then some (.float (.ofInt n))
      else none
    | d => if d.tag == tag then some d else none
  else
    some (.text s)

end LetPoly.Yaml
