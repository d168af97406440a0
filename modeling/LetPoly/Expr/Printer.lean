import LetPoly.Expr.Basic

/-! # Text of expressions

A call associates to the left and binds tighter than a function or a `let`.
-/

namespace LetPoly.Expr

/-- Whether an expression in function position is written without parentheses. -/
def isCallee : Expr → Bool
  | unit | var _ | call _ _ => true
  | _ => false

/-- The text `s`, in parentheses if `b`. -/
def parens (b : Bool) (s : String) : String :=
  if b then "(" ++ s ++ ")" else s

/-- The text of an expression; with `atomic`, everything but a literal or a name stands in
parentheses. A foreign form has no text. -/
def renderAt : Expr → (atomic : Bool) → String
  | unit, _ => "()"
  | var x, _ => x
  | lam x body, atomic => parens atomic ("fun " ++ x ++ " -> " ++ body.renderAt false)
  | call f a, atomic => parens atomic (f.renderAt (!f.isCallee) ++ " " ++ a.renderAt true)
  | letIn x value body, atomic =>
    parens atomic ("let " ++ x ++ " = " ++ value.renderAt false ++ " in " ++ body.renderAt false)
  | absent, _ => "<nil>"
  | foreign _, _ => ""

/-- The text of an expression. -/
def render (e : Expr) : String :=
  e.renderAt false

end LetPoly.Expr
