import LetPoly.Fault
import LetPoly.Ty.Printer

/-! # Unification

Variables are linked in place and their levels lowered on the way. Nothing is undone when
unification fails.
-/

namespace LetPoly

/-- The two ways in which types fail to unify. -/
inductive UnifyError where
  /-- The types have different shapes. -/
  | mismatch (left right : Ty)
  /-- The variable occurs in the type it would be linked to. -/
  | occurs (v : Nat) (t : Ty)
  deriving DecidableEq

/-- The text of a failure, with the types as they stand in the given store. -/
def UnifyError.message (s : Store) : UnifyError → String
  | mismatch left right =>
    "Failed to unify " ++ " with ".intercalate (s.renderTys [left, right])
  | occurs v t =>
    "Implicitly recursive types are not supported: " ++
      " occurs in ".intercalate (s.renderTys [.var v, t])

namespace Store

/-- Lower the levels of several variables. -/
def lowerAll (s : Store) (vs : List Nat) (level : Int) : Store :=
  vs.foldl (fun s v => s.lower v level) s

/-- Look for the variable `v` in a type, from left to right, and lower the level of each unbound
variable met. The walk ends at the first occurrence of `v`. -/
def adjust (s : Store) (v : Nat) (level : Int) (t : Ty) : Bool × Store :=
  let vs := s.unbound t
  (vs.contains v, s.lowerAll (vs.take (vs.idxOf v + 1)) level)

end Store

/-- Computations on a store that may stop; what they did to the store stays. -/
abbrev UnifyM := EStateM (Stop UnifyError) Store

/-- Link an unbound variable to a type. -/
def assign {ε : Type} (v : Nat) (t : Ty) : EStateM (Stop ε) Store Unit := do
  let s ← get
  if (s.link v).isSome then throw (.fault .alreadyBound)
  if t = .absent then throw (.fault .boundToAbsent)
  set (s.setLink v t)

/-- Link a variable to a type that does not contain it, and lower the variables of the type to its
level. -/
def bindVar (v : Nat) (t : Ty) : UnifyM Unit := do
  let s ← get
  let (found, s') := s.adjust v (s.level v) t
  set s'
  if found then throw (.error (.occurs v t))
  assign v t

/-- Unify two types by recursion on the left one; `follow` goes on where a link leads out of it. -/
def unifyWith (follow : Ty → Ty → UnifyM Unit) : Ty → Ty → UnifyM Unit
  | .var v, b => do
    let s ← get
    match s.link v with
    | some t => follow t b
    | none =>
      let b := s.head b
      if b = .var v then pure () else bindVar v b
  | .unit, b => do
    match (← get).head b with
    | .unit => pure ()
    | .var v => bindVar v .unit
    | b => throw (.error (.mismatch .unit b))
  | .arrow p r, b => do
    match (← get).head b with
    | .arrow p' r' => do
      unifyWith follow p p'
      unifyWith follow r r'
    | .var v => bindVar v (.arrow p r)
    | b => throw (.error (.mismatch (.arrow p r) b))
  | .absent, b => do
    match (← get).head b with
    | .var v => bindVar v .absent
    | b => throw (.error (.mismatch .absent b))

/-- Unify two types, following at most `n` links in a row on the left. -/
def unifyUpTo : Nat → Ty → Ty → UnifyM Unit
  | 0 => unifyWith fun _ _ => throw (.fault .endless)
  | n + 1 => unifyWith (unifyUpTo n)

/-- Unify two types. Below a linked variable no link leads back to it, so at most as many links
follow one another as there are cells. -/
def unify (a b : Ty) : UnifyM Unit := do
  unifyUpTo (← get).size a b

end LetPoly
