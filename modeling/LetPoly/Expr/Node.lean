import LetPoly.Expr.Basic
import LetPoly.Fault
import LetPoly.Yaml.Graph

/-! # Expressions as YAML nodes

The scalar `()` is the unit literal and any other scalar a variable. A mapping of one pair is a
function, a call or a `let`, by its key; the value holds the parts as fields. A call may also be a
sequence of a function and its arguments. An alias stands for its anchor's node.
-/

namespace LetPoly

open Yaml

/-- What is wrong with a node. -/
inductive NodeProblem where
  | notSingle
  | recursiveAlias (name : String)
  | emptyName
  | notOneForm
  | unknownForm (key : String)
  | unexpectedKind
  | shortCall
  | notIdentifier
  | notMapping
  | unexpectedField (key : String)
  | duplicateField (key : String)
  | missingField (key : String)
  deriving DecidableEq

/-- The text of a problem. -/
def NodeProblem.message : NodeProblem → String
  | notSingle => "expected a single expression"
  | recursiveAlias name => "recursive alias " ++ name
  | emptyName => "empty variable name"
  | notOneForm => "expected exactly one of fun, call, let"
  | unknownForm key => "unknown expression " ++ key
  | unexpectedKind => "unexpected YAML node"
  | shortCall => "call requires a function and at least one argument"
  | notIdentifier => "expected an identifier"
  | notMapping => "expected a mapping"
  | unexpectedField key => "unexpected field " ++ key
  | duplicateField key => "duplicate field " ++ key
  | missingField key => "missing field " ++ key

/-- A problem and the line of the node that has it. -/
structure NodeError where
  line : Int
  problem : NodeProblem
  deriving DecidableEq

/-- The text of a node's problem. -/
def NodeError.message (e : NodeError) : String :=
  "ast: line " ++ toString e.line ++ ": " ++ e.problem.message

/-- Computations that decode a graph. The state holds the anchored nodes being expanded. -/
abbrev DecodeM := EStateM (Stop NodeError) (List Nat)

namespace Yaml.Node

/-- Refuse a node. -/
def refuse {α : Type} (n : Node) (problem : NodeProblem) : DecodeM α :=
  throw (.error ⟨n.line, problem⟩)

/-- The name that a node gives to a bound variable. -/
def bindingName (n : Node) : DecodeM String :=
  if n.kind != .scalar || n.value == "" || n.value == "()" then
    n.refuse .notIdentifier
  else
    return n.value

end Yaml.Node

/-- Expand an anchored node: while the action runs, the node counts as being expanded. -/
def expanding {α : Type} (i : Nat) (act : DecodeM α) : DecodeM α := fun open' =>
  match act (i :: open') with
  | .ok a open' => .ok a (open'.erase i)
  | .error (.error e) open' => .error (.error e) (open'.erase i)
  | .error (.fault f) open' => .error (.fault f) open'

namespace Yaml.Graph

/-- Collect the fields of a mapping from its content, each of the allowed ones at most once. A last
key without a value is passed over. -/
def collectFields (g : Graph) (keys : List String) :
    List Nat → List (String × Nat) → DecodeM (List (String × Nat))
  | k :: v :: rest, found => do
    let key := g.node k
    if !keys.contains key.value then
      key.refuse (.unexpectedField key.value)
    else if (found.lookup key.value).isSome then
      key.refuse (.duplicateField key.value)
    else
      g.collectFields keys rest ((key.value, v) :: found)
  | _, found => return found

/-- The values of exactly the given fields of a mapping, in the order of the keys. -/
def fields (g : Graph) (n : Node) (keys : List String) : DecodeM (List Nat) := do
  if n.kind != .mapping then
    n.refuse .notMapping
  else
    let found ← g.collectFields keys n.content []
    keys.mapM fun key =>
      match found.lookup key with
      | some v => pure v
      | none => n.refuse (.missingField key)

/-- Decode a node, at most `n` nodes deep. -/
def decodeUpTo (g : Graph) : Nat → Nat → DecodeM Expr
  | 0, _ => throw (.fault .endless)
  | n + 1, i => do
    let node := g.node i
    match node.kind with
    | .document =>
      match node.content with
      | [child] => g.decodeUpTo n child
      | _ => node.refuse .notSingle
    | .alias =>
      match node.target with
      | none => throw (.fault .danglingAlias)
      | some target =>
        if (← get).contains target then
          node.refuse (.recursiveAlias node.value)
        else
          expanding target (g.decodeUpTo n target)
    | .scalar =>
      if node.value == "()" then return .unit
      else if node.value == "" then node.refuse .emptyName
      else return .var node.value
    | .mapping =>
      match node.content with
      | [k, v] =>
        let key := g.node k
        let value := g.node v
        if key.value == "fun" then
          match (← g.fields value ["arg", "body"]) with
          | [arg, body] => return .lam (← (g.node arg).bindingName) (← g.decodeUpTo n body)
          | _ => value.refuse .notMapping
        else if key.value == "call" then
          if value.kind == .sequence then
            if value.content.length < 2 then
              value.refuse .shortCall
            else
              match (← value.content.mapM (g.decodeUpTo n)) with
              | func :: args => return func.calls args
              | [] => value.refuse .shortCall
          else
            match (← g.fields value ["func", "arg"]) with
            | [func, arg] => return .call (← g.decodeUpTo n func) (← g.decodeUpTo n arg)
            | _ => value.refuse .notMapping
        else if key.value == "let" then
          match (← g.fields value ["var", "value", "body"]) with
          | [name, bound, body] =>
            return .letIn (← (g.node name).bindingName) (← g.decodeUpTo n bound)
              (← g.decodeUpTo n body)
          | _ => value.refuse .notMapping
        else
          key.refuse (.unknownForm key.value)
      | _ => node.refuse .notOneForm
    | .sequence | .unknown => node.refuse .unexpectedKind

/-- Decode a node. Between two aliases no node occurs in its own content, and no alias expands a
node that is being expanded, so no more nodes than this lie above one another. -/
def decode (g : Graph) (i : Nat) : DecodeM Expr :=
  g.decodeUpTo ((g.size + 1) * (g.size + 1)) i

end Yaml.Graph

end LetPoly
