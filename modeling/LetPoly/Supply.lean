import LetPoly.Fault
import LetPoly.Store

/-! # Fresh variables, binding levels and instantiation -/

namespace LetPoly

/-- The source of fresh variables. Identifiers are 64-bit numbers that wrap around, and a supply may
begin close to their end. Level and count begin anew in every run and grow by one for each
definition entered and each variable made. No run that fits into memory brings them to the end of
64 bits, and here they are unbounded. -/
structure Supply where
  /-- The identifier of the next variable. -/
  nextId : Int64 := 0
  /-- The current binding level. -/
  level : Int := 0
  /-- The number of variables handed out since the supply was readied. -/
  count : Nat := 0
  /-- Images of quantified identifiers while a scheme is instantiated, the latest first; none before
  the supply was readied. -/
  table : Option (List (Int64 × Ty)) := none
  deriving DecidableEq, Inhabited

/-- A supply that is ready to hand out variables from an identifier on, at the first level. -/
def Supply.startingAt (first : Int64) : Supply :=
  { nextId := first, level := 1, table := some [] }

/-- Ready a supply that was in use, to hand out variables from an identifier on, at the first
level. -/
def Supply.reset (supply : Supply) (first : Int64) : Supply :=
  { supply with nextId := first, level := 1, count := 0, table := some [] }

/-- What inference works on: the store and the supply. -/
structure State where
  store : Store := {}
  supply : Supply := {}
  deriving DecidableEq, Inhabited

/-- Computations on the state that may stop; what they did to the state stays. -/
abbrev Action (ε : Type) := EStateM (Stop ε) State

section Actions

variable {ε : Type}

/-- Allocate an unbound variable at the current level. -/
def fresh : Action ε Nat := do
  let ⟨store, supply⟩ ← get
  set ({ store := store.alloc supply.nextId supply.level
         supply := { supply with nextId := supply.nextId + 1, count := supply.count + 1 } } : State)
  return store.size

/-- Go one binding level down. -/
def enterLevel : Action ε Unit :=
  modify fun st => { st with supply.level := st.supply.level + 1 }

/-- Go back to the binding level above. -/
def leaveLevel : Action ε Unit := do
  if (← get).supply.level ≤ 1 then throw (.fault .unbalancedLevel)
  modify fun st => { st with supply.level := st.supply.level - 1 }

/-- Run an action one binding level down. The level is left again also after an error, but not
after a fault. -/
def atNextLevel {α : Type} (act : Action ε α) : Action ε α := do
  enterLevel
  fun st =>
    match act st with
    | .ok a st => (do leaveLevel; return a : Action ε α) st
    | .error (.error e) st => (do leaveLevel; throw (.error e) : Action ε α) st
    | .error (.fault f) st => .error (.fault f) st

/-- Enter a fresh variable into the table for each of the identifiers. -/
def freshImages : List Int64 → Action ε Unit
  | [] => pure ()
  | id :: ids => do
    let v ← fresh
    let st ← get
    match st.supply.table with
    | none => throw (.fault .notReady)
    | some table => set { st with supply.table := some ((id, .var v) :: table) }
    freshImages ids

/-- An instance of a scheme: its body with fresh variables for the quantified ones. The other
variables are shared with the scheme. -/
def instantiate (σ : Scheme) : Action ε Ty := do
  if σ.isGeneric then
    freshImages σ.vars
    let st ← get
    set { st with supply.table := st.supply.table.map fun _ => [] }
    return st.store.substitute (st.supply.table.getD []) σ.body
  else
    return σ.body

/-- Quantify the variables of a type that are local to the current level. -/
def generalize (t : Ty) : Action ε Scheme := do
  let st ← get
  return st.store.generalizeAt st.supply.level t

end Actions

end LetPoly
