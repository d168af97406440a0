/-! # Faults

A fault ends an operation because a caller broke a rule of the library, as opposed to an error,
which is a result of the operation. What was done before the fault stays done.
-/

namespace LetPoly

/-- A broken rule. -/
inductive Fault where
  /-- A variable that is linked was to be linked again. -/
  | alreadyBound
  /-- A variable was to be linked to an absent type. -/
  | boundToAbsent
  /-- A binding level was left that had not been entered. -/
  | unbalancedLevel
  /-- A scheme was instantiated by a supply that was never readied. -/
  | notReady
  /-- An alias has no target. -/
  | danglingAlias
  /-- The parts of a value contain the value itself. -/
  | endless
  /-- Something else was put in the place of an expression. -/
  | notExpression
  /-- A collection was looked up among the keys that are taken. -/
  | collectionKey
  deriving DecidableEq

/-- The text of a fault, for those that have one. -/
def Fault.message? : Fault → Option String
  | alreadyBound => some "type-variable is already bound"
  | boundToAbsent => some "type-variable cannot be bound to nil"
  | unbalancedLevel => some "unbalanced binding-level"
  | notReady | danglingAlias | endless | notExpression | collectionKey => none

/-- The reason why an operation stopped: an error of its own, or a fault. -/
inductive Stop (ε : Type) where
  | error (e : ε)
  | fault (f : Fault)
  deriving DecidableEq

end LetPoly
