/-! # Expressions of the calculus -/

namespace LetPoly

/-- An expression: the unit literal, a variable, a function of one argument, a call or a `let`.
`absent` stands where a part was left out and `foreign` for a form that the calculus does not know;
inference refuses both. -/
inductive Expr where
  | unit
  | var (name : String)
  | lam (arg : String) (body : Expr)
  | call (func arg : Expr)
  | letIn (name : String) (value body : Expr)
  | absent
  | foreign (form : String)
  deriving DecidableEq, Inhabited

namespace Expr

/-- The name of an expression's form; an absent expression has none. -/
def form? : Expr → Option String
  | unit => some "Unit"
  | var _ => some "Var"
  | lam _ _ => some "Func"
  | call _ _ => some "Call"
  | letIn _ _ _ => some "Let"
  | absent => none
  | foreign form => some form

/-- The curried call of `f` with the arguments in order. -/
def calls (f : Expr) (args : List Expr) : Expr :=
  args.foldl call f

/-- The curried function of the given arguments. -/
def lams (args : List String) (body : Expr) : Expr :=
  args.foldr lam body

/-- The function `f` called `n` times over, starting at `base`. -/
def iterate (f base : Expr) : Nat → Expr
  | 0 => base
  | n + 1 => call f (iterate f base n)

end Expr

end LetPoly
