import LetPoly.Store
import Std.Data.TreeMap.Basic

/-! # Type environments -/

namespace LetPoly

/-- The schemes of the names in scope. -/
abbrev Scope := Std.TreeMap String Scheme

/-- Declared names, and the identifier that the next variable takes. Declarations and inference
share it. -/
structure Env where
  nextId : Int64 := 0
  scope : Scope := ∅
  deriving Inhabited

namespace Env

/-- Allocate a variable for use in declared types. -/
def newVar (env : Env) (s : Store) : Nat × Env × Store :=
  (s.size, { env with nextId := env.nextId + 1 }, s.alloc env.nextId 1)

/-- Bind a name to a scheme, instead of the scheme it had. -/
def declareScheme (env : Env) (name : String) (σ : Scheme) : Env :=
  { env with scope := env.scope.insert name σ }

/-- Bind a name to a type with all its unbound variables quantified. -/
def declare (env : Env) (s : Store) (name : String) (t : Ty) : Env :=
  env.declareScheme name (s.generalizeAt 0 t)

/-- Bind a name to a type without quantification: inference may link its variables. -/
def declareInvariant (env : Env) (name : String) (t : Ty) : Env :=
  env.declareScheme name (.mono t)

/-- The scheme of a name. -/
def lookup? (env : Env) (name : String) : Option Scheme :=
  env.scope[name]?

/-- The declared names and their schemes in ascending order of the names. -/
def toList (env : Env) : List (String × Scheme) :=
  env.scope.toList

/-- The declared names in ascending order. -/
def names (env : Env) : List String :=
  env.scope.keys

/-- The number of declared names. -/
def size (env : Env) : Nat :=
  env.scope.size

end Env

end LetPoly
