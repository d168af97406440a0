import LetPoly.Ty.Basic

/-! # Type schemes -/

namespace LetPoly

/-- A type in which the unbound variables with the listed identifiers are quantified. -/
structure Scheme where
  vars : List Int64 := []
  body : Ty
  deriving DecidableEq, Inhabited

namespace Scheme

/-- The scheme of a type that quantifies nothing. -/
def mono (t : Ty) : Scheme :=
  { body := t }

/-- Whether the scheme quantifies anything. -/
def isGeneric (s : Scheme) : Bool :=
  !s.vars.isEmpty

/-- Whether the scheme quantifies the identifier. -/
def quantifies (s : Scheme) (id : Int64) : Bool :=
  s.vars.contains id

/-- Insert an identifier into an ascending list. -/
def insertSorted (i : Int64) : List Int64 → List Int64
  | [] => [i]
  | j :: js => if i ≤ j then i :: j :: js else j :: insertSorted i js

/-- The identifiers in ascending order, each as often as it is given. -/
def sortIds (ids : List Int64) : List Int64 :=
  ids.foldr insertSorted []

/-- Leave out every identifier that equals the last one kept. -/
def compactFrom (last : Int64) : List Int64 → List Int64
  | [] => []
  | i :: is => if i = last then compactFrom last is else i :: compactFrom i is

/-- The identifiers in ascending order, each once. -/
def arrange (ids : List Int64) : List Int64 :=
  if ids.length ≤ 1 then
    ids
  else
    match sortIds ids with
    | [] => []
    | i :: is => i :: compactFrom i is

end Scheme

end LetPoly
