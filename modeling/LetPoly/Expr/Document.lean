import LetPoly.Expr.Node
import LetPoly.Yaml.Graph.Reader

/-! # Expressions as YAML documents

The root of the first document of a text is decoded as an expression. A root that is tagged as null
is none: a mapping is then read as a record with the one field `expr`, which can only be null, and
the mappings that are merged into it are decoded in its place.
-/

namespace LetPoly

open Yaml

/-- The ways in which a text fails to be an expression. -/
inductive DocumentError where
  /-- The text is not well-formed. -/
  | malformed (m : Malformed)
  /-- There is no document, or no expression in it. -/
  | empty
  /-- A node does not fit. -/
  | node (e : NodeError)
  deriving DecidableEq

/-- The text of a failure that is not one of the text's form. -/
def DocumentError.message? : DocumentError → Option String
  | malformed _ => none
  | empty => some "ast: empty expression document"
  | node e => some e.message

/-- The state of reading a record. -/
structure Loading where
  /-- The expression found so far. -/
  expr : Option Expr := none
  /-- What is wrong with the document, as far as it lets the reading go on. -/
  flaw : Option Malformed := none
  /-- While mappings are merged, the keys that are taken. -/
  taken : Option (List Datum) := none
  /-- The aliases being followed. -/
  aliases : List Nat := []
  /-- The number of nodes visited, the document among them. -/
  visits : Nat := 1
  /-- The number of nodes visited behind aliases. -/
  aliasVisits : Nat := 0

/-- Computations that read a record. -/
abbrev LoadM := EStateM (Stop DocumentError) Loading

/-- Reject the document. -/
def reject {α : Type} (m : Malformed) : LoadM α :=
  throw (.error (.malformed m))

/-- Note what is wrong and go on. -/
def note (m : Malformed) : LoadM Unit :=
  modify fun st => { st with flaw := st.flaw.or (some m) }

/-- Whether too many of the visited nodes lie behind aliases. In all but large documents that is
more than 99 of 100, and from there on the bound falls, to 10 of 100 after four million nodes. -/
def Loading.isExcessive (st : Loading) : Bool :=
  let fall := 3600000
  let large := min (st.visits - 400000) fall
  100 < st.aliasVisits && 1000 < st.visits &&
    st.visits * (99 * fall - 89 * large) < st.aliasVisits * (100 * fall)

/-- Visit a node. -/
def visit : LoadM Unit := do
  modify fun st => { st with
    visits := st.visits + 1
    aliasVisits := if st.aliases.isEmpty then st.aliasVisits else st.aliasVisits + 1 }
  if (← get).isExcessive then reject .excessiveAliases

/-- What a node was read as. -/
inductive Loaded where
  | nothing
  | collection
  | datum (d : Datum)

/-- What mappings are merged into: the record, or another mapping, whose keys are names or
anything. -/
inductive MergeTarget where
  | record
  | mapping (names : Bool)

namespace Yaml

/-- The keys and values of a mapping's content. -/
def pairs : List Nat → List (Nat × Nat)
  | k :: v :: rest => (k, v) :: pairs rest
  | _ => []

/-- The key that merges the mappings of its value. -/
def Node.isMerge (n : Node) : Bool :=
  n.kind == .scalar && n.value == "<<" && n.tag == mergeTag

/-- What a scalar stands for. -/
def Node.load (n : Node) : LoadM Datum :=
  match Datum.ofTagged? n.tag n.value with
  | some d => return d
  | none => reject .scalarTag

namespace Graph

/-- Whether two keys of a mapping are alike. -/
def repeatsKey (g : Graph) : List (Nat × Nat) → Bool
  | [] => false
  | (k, _) :: rest =>
    rest.any (fun (k', _) =>
      (g.node k).kind == (g.node k').kind && (g.node k).value == (g.node k').value) ||
    g.repeatsKey rest

/-- The tag of a node, or of what an alias stands for. -/
def tagOf (g : Graph) (i : Nat) : String :=
  match (g.node i).target with
  | some target => (g.node target).tag
  | none => (g.node i).tag

/-- Whether the keys of a mapping are texts. -/
def hasNames (g : Graph) (ps : List (Nat × Nat)) : Bool :=
  ps.all fun (k, _) => g.tagOf k == strTag || g.tagOf k == mergeTag

/-- Whether a node is a mapping or an alias to one. -/
def isMapping (g : Graph) (i : Nat) : Bool :=
  match (g.node i).target with
  | some target => (g.node target).kind == .mapping
  | none => (g.node i).kind == .mapping

/-- Go on with the node that an alias stands for. -/
def following {α : Type} (g : Graph) (i : Nat) (act : Nat → LoadM α) : LoadM α := do
  match (g.node i).target with
  | none => throw (.fault .danglingAlias)
  | some target =>
    if (← get).aliases.contains i then reject .selfContained
    modify fun st => { st with aliases := i :: st.aliases }
    let a ← act target
    modify fun st => { st with aliases := st.aliases.erase i }
    return a

/-- Take a key, unless it is taken. Outside of merges no key is taken. -/
def take (d : Datum) (taken : Option (List Datum)) : Option (Option (List Datum)) :=
  match taken with
  | none => some none
  | some ds => if ds.any d.isSame then none else some (some (d :: ds))

/-- Read a key as a name. A null is none. -/
def loadName (g : Graph) : Nat → Nat → LoadM (Option Datum)
  | 0, _ => throw (.fault .endless)
  | n + 1, i => do
    visit
    let node := g.node i
    match node.kind with
    | .alias => g.following i (g.loadName n)
    | .scalar =>
      match (← node.load) with
      | .null => return none
      | .octets ns => return some (.octets ns)
      | .text s => return some (.text s)
      | _ => return some (.text node.value)
    | _ => do
      note .collectionKey
      return none

mutual

/-- Read a node as whatever it is. -/
def load (g : Graph) : Nat → Nat → LoadM Loaded
  | 0, _ => throw (.fault .endless)
  | n + 1, i => do
    visit
    let node := g.node i
    match node.kind with
    | .alias => g.following i (g.load n)
    | .scalar => return .datum (← node.load)
    | .mapping =>
      if (← g.loadMapping n (g.hasNames (pairs node.content)) i) then return .collection
      else return .nothing
    | _ =>
      for j in node.content do
        let _ ← g.load n j
      return .collection

/-- Read a mapping, whose keys are names or anything, and tell whether it can be read. -/
def loadMapping (g : Graph) : Nat → (names : Bool) → Nat → LoadM Bool
  | 0, _, _ => throw (.fault .endless)
  | n + 1, names, i => do
    let ps := pairs (g.node i).content
    if g.repeatsKey ps then
      note .duplicateKey
      return false
    let mut taken := (← get).taken
    modify fun st => { st with taken := none }
    for (k, v) in ps do
      if !(g.node k).isMerge then
        let key ← if names then (·.elim Loaded.nothing .datum) <$> g.loadName n k else g.load n k
        match key with
        | .nothing => pure ()
        | .collection =>
          if taken.isSome then throw (.fault .collectionKey)
          reject .collectionKey
        | .datum d =>
          match take d taken with
          | none => pure ()
          | some now =>
            taken := now
            let _ ← g.load n v
    modify fun st => { st with taken }
    g.mergeAll n (.mapping names) ps
    return true

/-- Merge the mappings of a mapping's merge key. Keys that the mapping has itself are taken. -/
def mergeAll (g : Graph) : Nat → MergeTarget → List (Nat × Nat) → LoadM Unit
  | 0, _, _ => throw (.fault .endless)
  | n + 1, target, ps => do
    match ps.find? fun (k, _) => (g.node k).isMerge with
    | none => return
    | some (_, source) =>
      let fresh := (← get).taken.isNone
      if fresh then
        modify fun st => { st with taken := some [] }
        for (k, _) in ps do
          match (← g.load n k) with
          | .nothing => pure ()
          | .collection => throw (.fault .collectionKey)
          | .datum d => modify fun st => { st with taken := st.taken.map (d :: ·) }
      let sources := if (g.node source).kind == .sequence then (g.node source).content else [source]
      for j in sources do
        if !g.isMapping j then reject .mergeSource
        match target with
        | .record => g.loadExpr n j
        | .mapping names => g.loadSource n names j
      if fresh then
        modify fun st => { st with taken := none }

/-- Read a mapping that is merged into one whose keys are names or anything. -/
def loadSource (g : Graph) : Nat → (names : Bool) → Nat → LoadM Unit
  | 0, _, _ => throw (.fault .endless)
  | n + 1, names, i => do
    visit
    if (g.node i).kind == .alias then
      g.following i (g.loadSource n names)
    else
      let _ ← g.loadMapping n names i

/-- Read a node in the place of an expression: it is decoded, unless it is tagged as null. -/
def loadExpr (g : Graph) : Nat → Nat → LoadM Unit
  | 0, _ => throw (.fault .endless)
  | n + 1, i => do
    visit
    let node := g.node i
    if node.kind == .alias then
      g.following i (g.loadExpr n)
    else if node.tag != nullTag then
      match g.decode i [] with
      | .ok e _ => modify fun st => { st with expr := some e }
      | .error (.error e) _ => throw (.error (.node e))
      | .error (.fault f) _ => throw (.fault f)
    else if node.kind == .scalar then
      let _ ← node.load
    else if node.kind == .mapping then
      g.loadRecord n i
    else
      note .collectionTag

/-- Read a mapping as a record. -/
def loadRecord (g : Graph) : Nat → Nat → LoadM Unit
  | 0, _ => throw (.fault .endless)
  | n + 1, i => do
    let ps := pairs (g.node i).content
    if g.repeatsKey ps then
      note .duplicateKey
    else
      let mut taken := (← get).taken
      let mut done := false
      modify fun st => { st with taken := none }
      for (k, v) in ps do
        if !(g.node k).isMerge then
          match (← g.loadName n k) with
          | none => pure ()
          | some name =>
            match take name taken with
            | none => pure ()
            | some now =>
              taken := now
              if name == .text "expr" then
                if done then
                  note .duplicateKey
                else
                  done := true
                  g.loadField n v
      modify fun st => { st with taken }
      g.mergeAll n .record ps

/-- Read the value of the record's field, which can only be null. -/
def loadField (g : Graph) : Nat → Nat → LoadM Unit
  | 0, _ => throw (.fault .endless)
  | n + 1, i => do
    visit
    let node := g.node i
    match node.kind with
    | .alias => g.following i (g.loadField n)
    | .scalar =>
      if (← node.load) == .null then
        modify fun st => { st with expr := none }
      else
        throw (.fault .notExpression)
    | .mapping =>
      if g.repeatsKey (pairs node.content) then
        note .duplicateKey
      else
        throw (.fault .notExpression)
    | _ =>
      for j in node.content do
        let _ ← g.load n j
      throw (.fault .notExpression)

end

/-- Read a root in the place of an expression. No alias is followed inside itself, so no more nodes
than this lie above one another. -/
def loadRoot (g : Graph) (i : Nat) : LoadM Unit :=
  g.loadExpr (4 * ((g.size + 1) * (g.size + 1))) i

end Graph

end Yaml

/-- Decode the expression in the first document of a text. -/
def Expr.ofYaml (text : String) : Except (Stop DocumentError) Expr :=
  match Graph.ofText text with
  | .error m => .error (.error (.malformed m))
  | .ok (_, none) => .error (.error .empty)
  | .ok (g, some root) =>
    match g.loadRoot root {} with
    | .error stop _ => .error stop
    | .ok _ st =>
      match st.flaw, st.expr with
      | some m, _ => .error (.error (.malformed m))
      | none, some e => .ok e
      | none, none => .error (.error .empty)

end LetPoly
