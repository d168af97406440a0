import LetPoly.Yaml.Datum
import LetPoly.Yaml.Graph
import LetPoly.Yaml.Token.Lexer

/-! # From tokens to the node graph

Only the first document of a text is read. What follows it matters as far as it is needed to tell
where the document ends.
-/

namespace LetPoly.Yaml

/-- The state of reading: the tokens left, why there are no more behind them, the nodes so far, the
anchors (the latest first) and what tag handles stand for. -/
structure ReadState where
  tokens : List Token
  failure : Malformed
  graph : Graph := {}
  anchors : List (String × Nat) := []
  handles : List (String × String) := []

/-- Computations that read a document. -/
abbrev ReadM := StateT ReadState (Except Malformed)

/-- The next token. -/
def peek : ReadM Token := do
  let st ← get
  match st.tokens with
  | t :: _ => return t
  | [] => throw st.failure

/-- Go on behind the next token. -/
def advance : ReadM Unit :=
  modify fun st => { st with tokens := st.tokens.tail }

/-- Add a node, under the name of its anchor if it has one. -/
def addNode (n : Node) (anchor : Option String := none) : ReadM Nat := do
  modifyGet fun st =>
    let i := st.graph.size
    (i, { st with
      graph := ⟨st.graph.nodes.push n⟩
      anchors := (anchor.map (·, i)).toList ++ st.anchors })

/-- Give a node its content. -/
def setContent (i : Nat) (content : List Nat) : ReadM Unit :=
  modify fun st => { st with graph := ⟨st.graph.nodes.modify i ({ · with content })⟩ }

/-- Add an empty scalar on a line. -/
def addEmpty (line : Nat) : ReadM Nat :=
  addNode { kind := .scalar, tag := nullTag, line := line + 1 }

/-- Add an alias to the latest anchor of the name. -/
def addAlias (name : String) (line : Nat) : ReadM Nat := do
  match (← get).anchors.lookup name with
  | some i => addNode { kind := .alias, value := name, line := line + 1, target := some i }
  | none => throw .unknownAnchor

/-- What stands before a node. -/
structure Properties where
  anchor : Option String := none
  tag : String := ""
  line : Nat

/-- The tag that a handle and a suffix stand for; the tag of a single exclamation mark is no tag. -/
def expandTag (handle suffix : String) : ReadM String := do
  if handle == "" then
    return if suffix == "!" then "" else suffix
  else
    match (← get).handles.lookup handle with
    | some expansion => return expansion ++ suffix
    | none => throw .tag

/-- Read an anchor, if one follows. -/
def readAnchor : ReadM (Option String) := do
  match (← peek).kind with
  | .anchor name => do advance; return some name
  | _ => return none

/-- Read a tag, if one follows. -/
def readTag : ReadM (Option (String × String)) := do
  match (← peek).kind with
  | .tag handle suffix => do advance; return some (handle, suffix)
  | _ => return none

/-- Read the anchor and the tag of a node, in either order, and whether there were any. -/
def readProperties : ReadM (Properties × Bool) := do
  let line := (← peek).line
  let first ← readAnchor
  let tag ← readTag
  let anchor ← if first.isNone && tag.isSome then readAnchor else pure first
  let text ← match tag with
    | some (handle, suffix) => expandTag handle suffix
    | none => pure ""
  return ({ anchor, tag := text, line }, anchor.isSome || tag.isSome)

/-- The tag of a node that has `default` without one of its own. -/
def Properties.tagOr (p : Properties) (default : String) : String :=
  if p.tag == "" then default else shortTag p.tag

/-- Add a sequence with the given properties and items. -/
def addSequence (p : Properties) (items : ReadM (List Nat)) : ReadM Nat := do
  let i ← addNode { kind := .sequence, tag := p.tagOr sequenceTag, line := p.line + 1 } p.anchor
  setContent i (← items)
  return i

/-- Add a mapping with the given properties, keys and values. -/
def addMapping (p : Properties) (items : ReadM (List Nat)) : ReadM Nat := do
  let i ← addNode { kind := .mapping, tag := p.tagOr mappingTag, line := p.line + 1 } p.anchor
  setContent i (← items)
  return i

/-- Add a scalar with the given properties. -/
def addScalar (p : Properties) (text : String) (plain : Bool) : ReadM Nat :=
  let tag := p.tagOr (if plain then plainTag text else strTag)
  addNode { kind := .scalar, tag, value := text, line := p.line + 1 } p.anchor

mutual

/-- Read a node. With `block` it may be a block collection, and with `indentless` a block sequence
at the column of the mapping around it. Every node, item and pair uses up one of `n`. -/
def readNode : Nat → (block indentless : Bool) → ReadM Nat
  | 0, _, _ => throw .tooDeep
  | n + 1, block, indentless => do
    match (← peek) with
    | ⟨.alias name, line⟩ => do advance; addAlias name line
    | _ =>
      let (p, any) ← readProperties
      match (← peek).kind, block, indentless with
      | .blockEntry, _, true => addSequence p (indentlessItems n)
      | .scalar text plain, _, _ => do advance; addScalar p text plain
      | .flowSequenceStart, _, _ => do advance; addSequence p (flowItems n true)
      | .flowMappingStart, _, _ => do advance; addMapping p (flowPairs n true)
      | .blockSequenceStart, true, _ => do advance; addSequence p (blockItems n)
      | .blockMappingStart, true, _ => do advance; addMapping p (blockPairs n)
      | _, _, _ => if any then addScalar p "" true else throw .unexpectedToken

/-- Read the items of a block sequence. -/
def blockItems : Nat → ReadM (List Nat)
  | 0 => throw .tooDeep
  | n + 1 => do
    match (← peek) with
    | ⟨.blockEntry, line⟩ =>
      advance
      let item ← match (← peek).kind with
        | .blockEntry | .blockEnd => addEmpty line
        | _ => readNode n true false
      return item :: (← blockItems n)
    | ⟨.blockEnd, _⟩ => do advance; return []
    | _ => throw .unexpectedToken

/-- Read the items of a block sequence that has no indentation of its own. -/
def indentlessItems : Nat → ReadM (List Nat)
  | 0 => throw .tooDeep
  | n + 1 => do
    match (← peek) with
    | ⟨.blockEntry, line⟩ =>
      advance
      let item ← match (← peek).kind with
        | .blockEntry | .key | .value | .blockEnd => addEmpty line
        | _ => readNode n true false
      return item :: (← indentlessItems n)
    | _ => return []

/-- Read the keys and values of a block mapping. -/
def blockPairs : Nat → ReadM (List Nat)
  | 0 => throw .tooDeep
  | n + 1 => do
    match (← peek) with
    | ⟨.key, line⟩ =>
      advance
      let key ← blockPart n line
      let value ← match (← peek) with
        | ⟨.value, line⟩ => do advance; blockPart n line
        | ⟨_, line⟩ => addEmpty line
      return key :: value :: (← blockPairs n)
    | ⟨.blockEnd, _⟩ => do advance; return []
    | _ => throw .unexpectedToken

/-- Read a key or a value of a block mapping behind its indicator on the given line. -/
def blockPart : Nat → (line : Nat) → ReadM Nat
  | 0, _ => throw .tooDeep
  | n + 1, line => do
    match (← peek).kind with
    | .key | .value | .blockEnd => addEmpty line
    | _ => readNode n true true

/-- Read the items of a flow sequence; a key among them begins a mapping of one pair. -/
def flowItems : Nat → (first : Bool) → ReadM (List Nat)
  | 0, _ => throw .tooDeep
  | n + 1, first => do
    if (← peek).kind != .flowSequenceEnd && !first then
      if (← peek).kind == .flowEntry then advance else throw .unexpectedToken
    match (← peek) with
    | ⟨.flowSequenceEnd, _⟩ => do advance; return []
    | ⟨.key, line⟩ =>
      advance
      let item ← addMapping { line } (flowPair n)
      return item :: (← flowItems n false)
    | _ =>
      let item ← readNode n false false
      return item :: (← flowItems n false)

/-- Read the single pair of a mapping in a flow sequence, behind the indicator of its key. An
indicator that leaves out the key takes the place of it. -/
def flowPair : Nat → ReadM (List Nat)
  | 0 => throw .tooDeep
  | n + 1 => do
    let key ← match (← peek) with
      | ⟨.value, line⟩ | ⟨.flowEntry, line⟩ | ⟨.flowSequenceEnd, line⟩ => do advance; addEmpty line
      | _ => readNode n false false
    let value ← match (← peek) with
      | ⟨.value, line⟩ =>
        advance
        match (← peek).kind with
        | .flowEntry | .flowSequenceEnd => addEmpty line
        | _ => readNode n false false
      | ⟨_, line⟩ => addEmpty line
    return [key, value]

/-- Read the keys and values of a flow mapping. -/
def flowPairs : Nat → (first : Bool) → ReadM (List Nat)
  | 0, _ => throw .tooDeep
  | n + 1, first => do
    if (← peek).kind != .flowMappingEnd && !first then
      if (← peek).kind == .flowEntry then advance else throw .unexpectedToken
    match (← peek).kind with
    | .flowMappingEnd => do advance; return []
    | .key =>
      advance
      let key ← match (← peek) with
        | ⟨.value, line⟩ | ⟨.flowEntry, line⟩ | ⟨.flowMappingEnd, line⟩ => addEmpty line
        | _ => readNode n false false
      let value ← match (← peek) with
        | ⟨.value, _⟩ =>
          advance
          match (← peek) with
          | ⟨.flowEntry, line⟩ | ⟨.flowMappingEnd, line⟩ => addEmpty line
          | _ => readNode n false false
        | ⟨_, line⟩ => addEmpty line
      return key :: value :: (← flowPairs n false)
    | _ =>
      let key ← readNode n false false
      let value ← addEmpty (← peek).line
      return key :: value :: (← flowPairs n false)

end

/-- Tag handles that need no directive. A directive for one of them comes before them. -/
def defaultHandles : List (String × String) :=
  [("!", "!"), ("!!", tagBase)]

/-- What the directives of a document set: whether a version was given, and tag handles. -/
structure Directives where
  versioned : Bool := false
  handles : List (String × String) := []

/-- Collect the directives at the beginning of some tokens, and the tokens behind them. -/
def Directives.collect : Directives → List Token → Except Malformed (Directives × List Token)
  | d, ⟨.version major minor, _⟩ :: ts =>
    if d.versioned || major != 1 || minor != 1 then .error .directive
    else collect { d with versioned := true } ts
  | d, ⟨.tagDirective handle expansion, _⟩ :: ts =>
    if (d.handles.lookup handle).isSome then .error .directive
    else collect { d with handles := (handle, expansion) :: d.handles } ts
  | d, ts => .ok (d, ts)

/-- Read the content of a document behind the marker of its start. -/
def readContent (n : Nat) : ReadM Nat := do
  match (← peek) with
  | ⟨.version _ _, line⟩ | ⟨.tagDirective _ _, line⟩ | ⟨.documentStart, line⟩
  | ⟨.documentEnd, line⟩ | ⟨.streamEnd, line⟩ => addEmpty line
  | _ => readNode n true false

/-- Read the first document of the tokens and give its root; there is none if there is no document.
After directives the document has to begin with a marker. -/
def readDocument (n : Nat) : ReadM (Option Nat) := do
  advance
  let st ← get
  let (d, tokens) ← Directives.collect {} st.tokens
  set { st with tokens, handles := d.handles ++ defaultHandles }
  match (← peek).kind with
  | .documentStart =>
    advance
    let root ← readContent n
    let _ ← peek
    return some root
  | kind =>
    if d.versioned || !d.handles.isEmpty then throw .unexpectedToken
    if kind == .streamEnd then return none
    let root ← readNode n true false
    let _ ← peek
    return some root

/-- The graph of the first document of a text and its root, if there is a document. -/
def Graph.ofText (text : String) : Except Malformed (Graph × Option Nat) := do
  let (ts, failure) := tokens text
  let (root, st) ← readDocument (4 * ts.length + 4)
    { tokens := ts, failure := failure.getD .unexpectedToken }
  return (st.graph, root)

end LetPoly.Yaml
