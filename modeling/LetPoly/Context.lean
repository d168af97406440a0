import LetPoly.Infer

/-! # Inference runs

A context can be used for any number of runs. Each run starts afresh and takes its identifiers from
the environment it runs over.
-/

namespace LetPoly

/-- A reusable context for inference: the supply of its last run, the failure of that run, and
whether a run has been completed since the context was last reset. -/
structure Context where
  supply : Supply := .startingAt 0
  failure : Option Failure := none
  needsReset : Bool := false
  deriving DecidableEq, Inhabited

/-- What a run leaves behind. -/
structure Run (α : Type) where
  result : Except (Stop InferError) α
  context : Context
  env : Option Env
  store : Store

namespace Context

/-- Ready the context for a run whose identifiers begin with the given one. -/
def restart (c : Context) (first : Int64) : Context :=
  { c with supply := c.supply.reset first, failure := none, needsReset := false }

/-- Forget the last run, if one has been completed. -/
def reset (c : Context) : Context :=
  if c.needsReset then c.restart 0 else c

/-- Infer the type of an expression over an environment, or over an empty one; `nested` runs one
level below the environment. An absent expression leaves the context as it is, any other restarts
it. A completed run advances the environment past the identifiers it took; a fault leaves it where
it was. -/
def run (c : Context) (env : Option Env) (s : Store) (e : Expr) (nested : Bool) : Run Ty :=
  if e = .absent then
    { result := .error (.error .empty), context := c, env, store := s }
  else
    let start : Env := env.getD {}
    let c := c.restart start.nextId
    let act := infer e start.scope
    match (if nested then atNextLevel act else act) ⟨s, c.supply⟩ with
    | .ok t st =>
      { result := .ok t
        context := { c with supply := st.supply, needsReset := true }
        env := env.map fun env => { env with nextId := st.supply.nextId }
        store := st.store }
    | .error (.error failure) st =>
      { result := .error (.error failure.error)
        context := { c with supply := st.supply, failure := some failure, needsReset := true }
        env := env.map fun env => { env with nextId := st.supply.nextId }
        store := st.store }
    | .error (.fault f) st =>
      { result := .error (.fault f)
        context := { c with supply := st.supply }
        env
        store := st.store }

/-- Infer the type of an expression; its unbound variables stay free. -/
def infer (c : Context) (env : Option Env) (s : Store) (e : Expr) : Run Ty :=
  c.run env s e false

/-- Infer the scheme of an expression: its unbound variables are quantified but for those that it
shares with the environment. -/
def inferScheme (c : Context) (env : Option Env) (s : Store) (e : Expr) : Run Scheme :=
  let r := c.run env s e true
  { r with result := r.result.map (r.store.generalizeAt r.context.supply.level) }

end Context

end LetPoly
