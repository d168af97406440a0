import LetPoly.Env
import LetPoly.Expr.Basic
import LetPoly.Supply
import LetPoly.Unify

/-! # Type inference

A function's argument has one type throughout the body. The value of a `let` is inferred one level
down, so the variables that stay below the level of the scope are those that its name is generic
in.
-/

namespace LetPoly

/-- The ways in which inference fails. -/
inductive InferError where
  /-- There was no expression to infer a type of. -/
  | empty
  /-- A name is not in scope. -/
  | unbound (name : String)
  /-- An expression has no form of the calculus. The form is given unless the expression is
  absent. -/
  | unhandled (form : Option String)
  /-- A function type and an argument type do not fit. -/
  | application (func arg : Ty) (cause : UnifyError)
  deriving DecidableEq

/-- The text of a failure, with the types as they stand in the given store. -/
def InferError.message (s : Store) : InferError → String
  | empty => "Empty expression"
  | unbound x => "Variable " ++ x ++ " not found"
  | unhandled form => "Unhandled expression (" ++ form.getD "nil" ++ ")"
  | application func arg cause =>
    "Invalid application of " ++ " to ".intercalate (s.renderTys [func, arg]) ++ ": " ++
      cause.message s

/-- A failure together with the expression at which it arose. -/
structure Failure where
  error : InferError
  invalid : Expr
  deriving DecidableEq

/-- Computations of type inference. -/
abbrev InferM := Action Failure

/-- Unify two types, and turn a failure to do so into a failure of inference. -/
def unifyOr (failure : UnifyError → Failure) (a b : Ty) : InferM Unit := fun st =>
  match unify a b st.store with
  | .ok _ s => .ok () { st with store := s }
  | .error (.error e) s => .error (.error (failure e)) { st with store := s }
  | .error (.fault f) s => .error (.fault f) { st with store := s }

/-- Infer the type of an expression in a scope. -/
def infer : Expr → Scope → InferM Ty
  | .unit, _ => pure .unit
  | .var x, scope =>
    match scope[x]? with
    | some σ => instantiate σ
    | none => throw (.error ⟨.unbound x, .var x⟩)
  | .lam x body, scope => do
    let v ← fresh
    let ret ← infer body (scope.insert x (.mono (.var v)))
    return .arrow (.var v) ret
  | .call f a, scope => do
    let func ← infer f scope
    let arg ← infer a scope
    let ret ← fresh
    unifyOr (fun e => ⟨.application func arg e, .call f a⟩) func (.arrow arg (.var ret))
    return .var ret
  | .letIn x value body, scope => do
    let t ← atNextLevel (infer value scope)
    let σ ← generalize t
    infer body (scope.insert x σ)
  | .absent, _ => throw (.error ⟨.unhandled none, .absent⟩)
  | .foreign form, _ => throw (.error ⟨.unhandled (some form), .foreign form⟩)

end LetPoly
