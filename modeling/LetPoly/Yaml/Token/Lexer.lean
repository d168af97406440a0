import LetPoly.Yaml.Tag
import LetPoly.Yaml.Token
import LetPoly.Yaml.Token.Gap

/-! # From text to tokens

A scalar, an alias or a flow collection may turn out to be a mapping's key when a colon follows it
on the same line. Until then it is a simple key: the place is remembered at which the tokens of the
key and perhaps of a new block mapping have to be put in.

Tokens are given out as soon as possible, and no more of the text is read than that takes. A token
is given out when the two behind it are known, and a simple key when it is known whether it is a
key.
-/

namespace LetPoly.Yaml

/-- A token that may turn out to begin a key. -/
structure SimpleKey where
  /-- The number of tokens before it. -/
  number : Nat
  pos : Pos
  /-- It stands where only a key can stand. -/
  required : Bool
  /-- It is not given out before it is known whether it is a key. -/
  held : Bool := true

/-- A simple key is given up on the next line, or more than 1024 characters further on. -/
def SimpleKey.isStale (k : SimpleKey) (pos : Pos) : Bool :=
  k.pos.line < pos.line || k.pos.index + 1024 < pos.index

/-- Whether a simple key may not be given out yet. -/
def SimpleKey.isHeld (k : SimpleKey) (pos : Pos) : Bool :=
  k.held && (k.required || !k.isStale pos)

/-- What is known of the simple keys of a flow collection, or of the block collections around all
flow collections. -/
structure Level where
  key : Option SimpleKey := none
  /-- The number of the last token that began a simple key, or else of the opening bracket. -/
  latest : Nat := 0

/-- Go back to the level around a flow collection. If no simple key began in the collection, its
bracket is not held as a simple key any longer. -/
def Level.close (inner outer : Level) : Level :=
  let release (k : SimpleKey) := if k.number == inner.latest then { k with held := false } else k
  { outer with key := outer.key.map release }

/-- The greatest depth of nested collections. -/
def maxDepth : Nat := 10000

/-- The state of the lexer between two tokens. -/
structure Lexer where
  cursor : Cursor
  /-- The columns of the open block collections, the innermost first. -/
  indents : List Nat := []
  /-- The level of the innermost flow collection. -/
  level : Level := {}
  /-- The levels around the open flow collections, the innermost first. -/
  outer : List Level := []
  /-- Whether a simple key may begin here. -/
  keyAllowed : Bool := true
  /-- The comments before the next token. -/
  comments : List Comment := []
  /-- The tokens so far, the last one first. -/
  tokens : List Token := [⟨.streamStart, 0⟩]
  /-- The number of tokens so far. -/
  count : Nat := 1
  /-- The number of tokens that have been given out. -/
  given : Nat := 0
  done : Bool := false

/-- The characters with a meaning of their own where a token begins. -/
def isIndicator (c : Char) : Bool :=
  "-?:,[]\x7b\x7d#&*!|>'\"%@\x60".toList.contains c

/-- Whether a plain scalar may begin with a character that is followed by `rest`. -/
def beginsPlain (inFlow : Bool) (c : Char) (rest : List Char) : Bool :=
  !(isBlank c || isBreak c || isIndicator c) ||
    (c == '-' && !(rest.head?.map isBlank).getD false) ||
    (!inFlow && (c == '?' || c == ':') && !atGap rest)

namespace Lexer

/-- Whether a flow collection is open. -/
def inFlow (l : Lexer) : Bool :=
  !l.outer.isEmpty

/-- The least column inside the innermost block collection. -/
def inner (l : Lexer) : Nat :=
  match l.indents with
  | [] => 0
  | i :: _ => i + 1

/-- The place of the comments before the next token. -/
def place (l : Lexer) : Place where
  inFlow := l.inFlow
  column := l.indents.head?.getD 0
  line := l.cursor.pos.line
  afterColon := l.tokens.head?.any (·.kind == .value)

/-- Put in a token before the one with the given number. Behind tokens that have been given out, it
comes last. -/
def insert (l : Lexer) (number : Nat) (t : Token) : Lexer :=
  let (behind, before) := l.tokens.splitAt (if number < l.given then 0 else l.count - number)
  { l with tokens := behind ++ t :: before, count := l.count + 1 }

/-- Add a token. -/
def push (l : Lexer) (t : Token) : Lexer :=
  { l with tokens := t :: l.tokens, count := l.count + 1 }

/-- Add a token that begins at the cursor. -/
def emit (l : Lexer) (kind : TokenKind) : Lexer :=
  l.push ⟨kind, l.cursor.pos.line⟩

/-- Add a token of some characters, and go on behind it. -/
def take (l : Lexer) (kind : TokenKind) (n : Nat) : Lexer :=
  { l.emit kind with cursor := l.cursor.drop n }

/-- Set the simple key of the innermost level. -/
def setKey (l : Lexer) (key : Option SimpleKey) : Lexer :=
  { l with level := { l.level with key } }

/-- Give up the simple key, unless it is required. -/
def dropKey (l : Lexer) : Except Malformed Lexer :=
  match l.level.key with
  | some k => if k.required then .error .missingColon else .ok (l.setKey none)
  | none => .ok l

/-- Remember the cursor as a simple key, if one may begin there. -/
def saveKey (l : Lexer) : Except Malformed Lexer := do
  if l.keyAllowed then
    let pos := l.cursor.pos
    let required := !l.inFlow && l.indents.head? == some pos.column
    let l ← l.dropKey
    let number := l.count
    return { l with level := { key := some { number, pos, required }, latest := number } }
  else
    return l

/-- Open a block collection at a column, unless one is open there; its token becomes the one with
the given number. -/
def openBlock (l : Lexer) (column number : Nat) (t : Token) : Except Malformed Lexer :=
  if l.inFlow || column < l.inner then
    .ok l
  else if l.indents.length ≥ maxDepth then
    .error .tooDeep
  else
    .ok ({ l with indents := column :: l.indents }.insert number t)

/-- Close the innermost block collections whose column satisfies a condition. A collection ends
before the first of the comments at its own column, or else at the end of the one inside it; the
innermost one ends on the given line. -/
def closeBlocks (l : Lexer) (closes : Nat → Bool) (comments : List Comment) (line : Nat) : Lexer :=
  if l.inFlow then
    l
  else
    let (closed, indents) := l.indents.span closes
    let close := fun (l, line) column =>
      let line := (comments.find? (·.column == column)).elim line (·.line)
      (Lexer.push l ⟨.blockEnd, line⟩, line)
    (closed.foldl close ({ l with indents }, line)).1

/-- Close all block collections and give up the simple key. Comments only count if they go on to the
place before the cursor. -/
def closeAll (l : Lexer) : Except Malformed Lexer := do
  let pos := l.cursor.pos
  let near := l.comments.getLast?.any (pos.index ≤ ·.stop + 1)
  let l ← (l.closeBlocks (fun _ => true) (if near then l.comments else []) pos.line).dropKey
  return { l with keyAllowed := false }

/-- End the text. -/
def finish (l : Lexer) : Except Malformed Lexer := do
  let pos := l.cursor.pos
  let pos := if pos.column == 0 then pos else { pos with line := pos.line + 1, column := 0 }
  let l ← { l with cursor := { l.cursor with pos } }.closeAll
  return { l.emit .streamEnd with done := true }

/-- Read a directive. -/
def readDirective (l : Lexer) : Except Malformed Lexer := do
  let l ← l.closeAll
  let (d, cursor) ← directive l.cursor
  let kind := match d with
    | .version major minor => TokenKind.version major minor
    | .tag handle expansion => .tagDirective handle expansion
  return { l.emit kind with cursor }

/-- Read a document marker. -/
def readMarker (l : Lexer) (kind : TokenKind) : Except Malformed Lexer := do
  let l ← l.closeAll
  return l.take kind 3

/-- Read the opening bracket of a flow collection. -/
def openFlow (l : Lexer) (kind : TokenKind) : Except Malformed Lexer := do
  let l ← l.saveKey
  if l.outer.length ≥ maxDepth then throw .tooDeep
  let level := { latest := l.count }
  return { l.take kind 1 with level, outer := l.level :: l.outer, keyAllowed := true }

/-- Read the closing bracket of a flow collection. -/
def closeFlow (l : Lexer) (kind : TokenKind) : Except Malformed Lexer := do
  let l := { (← l.dropKey).take kind 1 with keyAllowed := false }
  match l.outer with
  | [] => return l
  | level :: outer => return { l with level := Level.close l.level level, outer }

/-- Read the comma of a flow collection. -/
def readFlowEntry (l : Lexer) : Except Malformed Lexer := do
  let l ← l.dropKey
  return { l.take .flowEntry 1 with keyAllowed := true }

/-- Open a block collection at the cursor. -/
def openHere (l : Lexer) (kind : TokenKind) : Except Malformed Lexer :=
  l.openBlock l.cursor.pos.column l.count ⟨kind, l.cursor.pos.line⟩

/-- Read the dash of a block sequence's item. -/
def readBlockEntry (l : Lexer) : Except Malformed Lexer := do
  if !l.inFlow && !l.keyAllowed then throw .misplacedIndicator
  let l ← (← l.openHere .blockSequenceStart).dropKey
  return { l.take .blockEntry 1 with keyAllowed := true }

/-- Read the question mark of a key. -/
def readKey (l : Lexer) : Except Malformed Lexer := do
  if !l.inFlow && !l.keyAllowed then throw .misplacedIndicator
  let l ← (← l.openHere .blockMappingStart).dropKey
  return { l.take .key 1 with keyAllowed := !l.inFlow }

/-- Forget a simple key that is stale. -/
def dropStaleKey (l : Lexer) : Except Malformed Lexer :=
  match l.level.key with
  | some k => if k.isStale l.cursor.pos then l.dropKey else .ok l
  | none => .ok l

/-- Read the colon before a value. It makes the simple key a key. -/
def readValue (l : Lexer) : Except Malformed Lexer := do
  let l ← l.dropStaleKey
  match l.level.key with
  | some k =>
    let l := l.insert k.number ⟨.key, k.pos.line⟩
    let l ← l.openBlock k.pos.column k.number ⟨.blockMappingStart, k.pos.line⟩
    return { (l.take .value 1).setKey none with keyAllowed := false }
  | none =>
    if !l.inFlow && !l.keyAllowed then throw .misplacedIndicator
    let l ← l.openHere .blockMappingStart
    return { l.take .value 1 with keyAllowed := !l.inFlow }

/-- Read the name of an anchor or an alias. -/
def readName (l : Lexer) (kind : String → TokenKind) : Except Malformed Lexer := do
  let l ← l.saveKey
  let (name, cursor) ← (l.cursor.drop 1).span isWord
  let ended := match cursor.next? with
    | some c => isBlank c || isBreak c || "?:,]\x7d%@\x60".toList.contains c
    | none => true
  if name.isEmpty || !ended then throw .anchorName
  return { l.emit (kind (String.ofList name)) with cursor, keyAllowed := false }

/-- Read a tag. -/
def readTag (l : Lexer) : Except Malformed Lexer := do
  let l ← l.saveKey
  let (handle, suffix, cursor) ← tag l.cursor
  return { l.emit (.tag handle suffix) with cursor, keyAllowed := false }

/-- Read a block scalar. -/
def readBlock (l : Lexer) (literal : Bool) : Except Malformed Lexer := do
  let l ← l.dropKey
  let (text, cursor) ← block literal l.indents.head? l.cursor
  return { l.emit (.scalar (String.ofList text) false) with cursor, keyAllowed := true }

/-- Read a quoted scalar. -/
def readQuoted (l : Lexer) (double : Bool) : Except Malformed Lexer := do
  let l ← l.saveKey
  let (text, cursor) ← quoted double l.cursor
  return { l.emit (.scalar (String.ofList text) false) with cursor, keyAllowed := false }

/-- Read a plain scalar. If its last line ends with it, a simple key may follow. The comment behind
a scalar that goes on to another line is no comment on the same line. -/
def readPlain (l : Lexer) : Except Malformed Lexer := do
  let l ← l.saveKey
  let (text, ended, cursor) ← plain l.inFlow l.inner l.cursor
  let cursor ← if ended then pure cursor else cursor.skipLineComment
  return { l.emit (.scalar (String.ofList text) true) with cursor, keyAllowed := ended }

/-- Go on behind a comment on the same line. -/
def endToken (l : Lexer) : Except Malformed Lexer := do
  return { l with cursor := ← l.cursor.skipLineComment }

/-- Read the token that begins with a character at the cursor. -/
def readToken (l : Lexer) (c : Char) (rest : List Char) : Except Malformed Lexer :=
  if c == '[' then
    l.openFlow .flowSequenceStart >>= endToken
  else if c == '\x7b' then
    l.openFlow .flowMappingStart >>= endToken
  else if c == ']' then
    l.closeFlow .flowSequenceEnd >>= endToken
  else if c == '\x7d' then
    l.closeFlow .flowMappingEnd >>= endToken
  else if c == ',' then
    l.readFlowEntry >>= endToken
  else if c == '-' && atGap rest then
    l.readBlockEntry
  else if c == '?' && (l.inFlow || atGap rest) then
    l.readKey >>= endToken
  else if c == ':' && (l.inFlow || atGap rest) then
    l.readValue >>= endToken
  else if c == '*' then
    l.readName .alias >>= endToken
  else if c == '&' then
    l.readName .anchor >>= endToken
  else if c == '!' then
    l.readTag >>= endToken
  else if c == '|' && !l.inFlow then
    l.readBlock true
  else if c == '>' && !l.inFlow then
    l.readBlock false
  else if c == '\x27' then
    l.readQuoted false >>= endToken
  else if c == '\x22' then
    l.readQuoted true >>= endToken
  else if beginsPlain l.inFlow c rest then
    l.readPlain
  else
    .error .unexpectedCharacter

/-- Read the next token. A less indented line closes block collections first. -/
def step (l : Lexer) : Except Malformed Lexer := do
  let line := l.cursor.pos.line
  let (cursor, keyAllowed, comments) ← l.cursor.skipGap l.place l.keyAllowed
  let cursor ← cursor.need 4
  let column := cursor.pos.column
  let l := { l with cursor, keyAllowed, comments }.closeBlocks (column < ·) comments line
  match cursor.rest with
  | [] => l.finish
  | c :: rest =>
    if column == 0 && c == '%' then
      l.readDirective
    else if column == 0 && atDocumentStart cursor.rest then
      l.readMarker .documentStart
    else if column == 0 && atDocumentEnd cursor.rest then
      l.readMarker .documentEnd
    else
      l.readToken c rest

/-- The number of the first token that is held from a given one on, at most `bound`. -/
def firstHeld (pos : Pos) (given : Nat) : List Level → (bound : Nat) → Nat
  | [], bound => bound
  | v :: vs, bound =>
    match v.key with
    | some k =>
      let stops := given ≤ k.number && k.number < bound && k.isHeld pos
      firstHeld pos given vs (if stops then k.number else bound)
    | none => firstHeld pos given vs bound

/-- Give out tokens. -/
def giveOut (l : Lexer) : Lexer :=
  let bound := firstHeld l.cursor.pos l.given (l.level :: l.outer) (l.count - 2)
  { l with given := max l.given bound }

/-- The tokens that have been given out. -/
def givenOut (l : Lexer) : List Token :=
  l.tokens.reverse.take l.given

/-- Read tokens to the end of a text of `size` characters, or as far as they can be read. Each token
but the last one takes a character. -/
def run (size : Nat) (l : Lexer) : List Token × Option Malformed :=
  match l.giveOut.step with
  | .error m => (l.giveOut.givenOut, some m)
  | .ok l' =>
    if l'.done then
      (l'.tokens.reverse, none)
    else if _h : l.cursor.pos.index < l'.cursor.pos.index ∧ l'.cursor.pos.index ≤ size then
      l'.run size
    else
      (l.giveOut.givenOut, some .unexpectedCharacter)
termination_by size - l.cursor.pos.index

end Lexer

/-- The tokens of a text, and why there are no more of them if the text is not well-formed. -/
def tokens (text : String) : List Token × Option Malformed :=
  Lexer.run text.length { cursor := .ofText text }

end LetPoly.Yaml
