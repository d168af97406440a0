import LetPoly.Store

/-! # Text of types and schemes

Unbound variables are told apart by their identifiers and named in the order of their first
appearance. The raw form of a type shows its cells and links instead.
-/

namespace LetPoly

/-- The `i`-th name: a letter, after the first round of letters followed by the number of rounds. -/
def varName (i : Nat) : String :=
  let letter := String.singleton (Char.ofNat ('a'.toNat + i % 26))
  if i < 26 then letter else letter ++ toString (i / 26)

/-- The text of a type without links under a naming of its variables. A function type as a
parameter stands in parentheses. -/
def Ty.renderAt (name : Nat → String) : Ty → (atomic : Bool) → String
  | .unit, _ => "()"
  | .var v, _ => name v
  | .arrow p r, atomic =>
    let body := p.renderAt name true ++ " -> " ++ r.renderAt name false
    if atomic then "(" ++ body ++ ")" else body
  | .absent, _ => "<nil>"

namespace Store

/-- The identifiers of the unbound variables of some types, each once, in the order of their first
appearance. -/
def idsOf (s : Store) (ts : List Ty) : List Int64 :=
  ((ts.flatMap s.unbound).map s.id).eraseDups

/-- The name of a variable by the place of its identifier among the given ones. -/
def nameIn (s : Store) (ids : List Int64) (v : Nat) : String :=
  "'" ++ varName (ids.idxOf (s.id v))

/-- The texts of several types, which share one naming of their variables. -/
def renderTys (s : Store) (ts : List Ty) : List String :=
  let ids := s.idsOf ts
  ts.map fun t => (s.resolve t).renderAt (s.nameIn ids) false

/-- The text of a type. -/
def renderTy (s : Store) (t : Ty) : String :=
  (s.resolve t).renderAt (s.nameIn (s.idsOf [t])) false

/-- The text of a scheme. Quantified variables and the others are counted apart, and the names of
the others begin with an underscore. -/
def renderScheme (s : Store) (σ : Scheme) : String :=
  let (generic, free) := (s.idsOf [σ.body]).partition σ.quantifies
  let name (v : Nat) : String :=
    let id := s.id v
    if σ.quantifies id then "'" ++ varName (generic.idxOf id) else "'_" ++ varName (free.idxOf id)
  (s.resolve σ.body).renderAt name false

end Store

/-- The raw form of a type, given that of its variables. -/
def Ty.dumpWith (cell : Nat → String) : Ty → String
  | .unit => "()"
  | .var v => cell v
  | .arrow p r => "[" ++ p.dumpWith cell ++ " -> " ++ r.dumpWith cell ++ "]"
  | .absent => "nil"

namespace Store

/-- The identifier and the level of a variable. -/
def dumpCell (s : Store) (v : Nat) : String :=
  "#" ++ toString (s.id v).toInt ++ "@" ++ toString (s.level v)

/-- The raw form of a type, with at most `n` links in a row. -/
def dumpUpTo (s : Store) : Nat → Ty → String
  | 0 => Ty.dumpWith s.dumpCell
  | n + 1 => Ty.dumpWith fun v =>
    match s.link v with
    | some t => s.dumpCell v ++ ":=" ++ s.dumpUpTo n t
    | none => s.dumpCell v

/-- The raw form of a type. -/
def dump (s : Store) (t : Ty) : String :=
  s.dumpUpTo s.size t

end Store

end LetPoly
