/-! # Types

A type variable is a cell of a store (`LetPoly.Store`), and a type names it by the cell's index.
-/

namespace LetPoly

/-- A type: unit, a variable, a function type, or nothing where a type was left out. -/
inductive Ty where
  | unit
  | var (v : Nat)
  | arrow (param ret : Ty)
  | absent
  deriving DecidableEq, Inhabited

namespace Ty

/-- The curried function type from the parameters in order to `ret`. -/
def arrows (params : List Ty) (ret : Ty) : Ty :=
  params.foldr arrow ret

/-- Replace every variable at once. -/
def subst (f : Nat → Ty) : Ty → Ty
  | unit => unit
  | var v => f v
  | arrow p r => arrow (p.subst f) (r.subst f)
  | absent => absent

/-- The variables of a type from left to right, each as often as it occurs. -/
def vars : Ty → List Nat
  | unit | absent => []
  | var v => [v]
  | arrow p r => p.vars ++ r.vars

/-- No part of the type was left out. -/
def Complete : Ty → Prop
  | unit | var _ => True
  | arrow p r => p.Complete ∧ r.Complete
  | absent => False

/-- The name of a type's outermost form. -/
def form? : Ty → Option String
  | unit => some "Unit"
  | var _ => some "Var"
  | arrow _ _ => some "Arrow"
  | absent => none

@[simp]
theorem subst_var (t : Ty) : t.subst var = t := by
  induction t with
  | unit | var | absent => rfl
  | arrow p r hp hr => simp [subst, hp, hr]

theorem subst_subst (f g : Nat → Ty) (t : Ty) :
    (t.subst f).subst g = t.subst fun v => (f v).subst g := by
  induction t with
  | unit | var | absent => rfl
  | arrow p r hp hr => simp [subst, hp, hr]

theorem vars_subst (f : Nat → Ty) (t : Ty) :
    (t.subst f).vars = t.vars.flatMap fun v => (f v).vars := by
  induction t with
  | unit | absent => rfl
  | var v => simp [subst, vars]
  | arrow p r hp hr => simp [subst, vars, hp, hr]

end Ty

end LetPoly
