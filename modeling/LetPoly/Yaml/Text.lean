/-! # Characters and places of a YAML text -/

namespace LetPoly.Yaml

/-- Why a text is not well-formed. -/
inductive Malformed where
  /-- A character that no text may hold. -/
  | character
  /-- A character that begins no token. -/
  | unexpectedCharacter
  /-- A tab where the indentation is counted. -/
  | tab
  /-- A quoted scalar without its end. -/
  | unclosedQuote
  /-- A document marker inside a quoted scalar. -/
  | markerInQuote
  /-- A backslash followed by something that is no escape. -/
  | escape
  /-- A block scalar with an impossible or unfinished header. -/
  | blockHeader
  /-- An anchor or an alias without a proper name. -/
  | anchorName
  /-- A tag that is not well-formed or has an unknown handle. -/
  | tag
  /-- A directive that is not well-formed, unknown or given twice. -/
  | directive
  /-- A key that had to be followed by a colon. -/
  | missingColon
  /-- A block item or a mapping key or value where none may stand. -/
  | misplacedIndicator
  /-- Collections nested too deeply. -/
  | tooDeep
  /-- A token that does not continue the collection it stands in. -/
  | unexpectedToken
  /-- An alias to an anchor that was not defined before. -/
  | unknownAnchor
  /-- A scalar that is not what its tag says. -/
  | scalarTag
  /-- A collection with the tag of another kind of node. -/
  | collectionTag
  /-- A key that a mapping has twice. -/
  | duplicateKey
  /-- A collection where a name has to stand. -/
  | collectionKey
  /-- A merge of something that is no mapping. -/
  | mergeSource
  /-- An alias to a node around it. -/
  | selfContained
  /-- Aliases that stand for too much of a document. -/
  | excessiveAliases
  deriving DecidableEq

/-- The characters that a text may hold. -/
def isAllowed (c : Char) : Bool :=
  let n := c.toNat
  n == 0x09 || n == 0x0A || n == 0x0D || (0x20 ≤ n && n ≤ 0x7E) || n == 0x85 ||
    (0xA0 ≤ n && n ≤ 0xFFFD) || 0x10000 ≤ n

/-- A space or a tab. -/
def isBlank (c : Char) : Bool :=
  c == ' ' || c == '\t'

/-- A line end that takes more than one octet. -/
def isWideBreak (c : Char) : Bool :=
  c == '\u0085' || c == '\u2028' || c == '\u2029'

/-- The end of a line. A carriage return stands for the pair of it and a line feed. -/
def isBreak (c : Char) : Bool :=
  c == '\n' || c == '\r' || isWideBreak c

/-- What a line end is in the text of a scalar. -/
def breakText (c : Char) : Char :=
  if c == '\u2028' || c == '\u2029' then c else '\n'

/-- The characters of directive names, anchors and tag handles. -/
def isWord (c : Char) : Bool :=
  c.isAlphanum || c == '_' || c == '-'

/-- Write a carriage return alone as a line feed, and a pair of carriage return and line feed as the
carriage return. -/
def uniformBreaks : List Char → List Char
  | [] => []
  | '\r' :: '\n' :: cs => '\r' :: uniformBreaks cs
  | c :: cs => (if c == '\r' then '\n' else c) :: uniformBreaks cs

/-- The byte order mark. -/
def byteOrderMark : Char := '\ufeff'

/-- The text is at its end or goes on with a blank or a line end. -/
def atGap : List Char → Bool
  | [] => true
  | c :: _ => isBlank c || isBreak c

/-- The text goes on with the marker of a document's start. -/
def atDocumentStart : List Char → Bool
  | '-' :: '-' :: '-' :: cs => atGap cs
  | _ => false

/-- The text goes on with the marker of a document's end. -/
def atDocumentEnd : List Char → Bool
  | '.' :: '.' :: '.' :: cs => atGap cs
  | _ => false

/-- The text goes on with a document marker. -/
def atMarker (cs : List Char) : Bool :=
  atDocumentStart cs || atDocumentEnd cs

/-- A place in a text, all three counted from zero in characters. -/
structure Pos where
  index : Nat := 0
  line : Nat := 0
  column : Nat := 0
  /-- The line of the last character before it that is neither a blank nor a line end. -/
  textLine : Nat := 0
  deriving DecidableEq, Inhabited

/-- The place behind a character of a line. -/
def Pos.next (p : Pos) : Pos :=
  ⟨p.index + 1, p.line, p.column + 1, p.line⟩

/-- The place behind a character. -/
def Pos.after (p : Pos) (c : Char) : Pos :=
  if isBreak c then ⟨p.index + (if c == '\r' then 2 else 1), p.line + 1, 0, p.textLine⟩
  else if isBlank c then { p.next with textLine := p.textLine }
  else p.next

end LetPoly.Yaml
