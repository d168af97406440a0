import LetPoly.Yaml.Text

/-! # Comments of a YAML text

Lines of comments between two tokens are grouped into comments: a comment that follows a token
directly ends with the first empty line, and one that stands in a block collection ends where a line
begins before the collection at another column.
-/

namespace LetPoly.Yaml

/-- Lines of comments that belong together. -/
structure Comment where
  /-- The line on which they begin. -/
  line : Nat
  /-- The column at which they begin. -/
  column : Nat
  /-- The index at which they are at their end. -/
  stop : Nat := 0
  deriving DecidableEq

/-- The place of the comments between two tokens. -/
structure Place where
  /-- Whether it is inside a flow collection. -/
  inFlow : Bool
  /-- The column of the innermost block collection. -/
  column : Nat
  /-- The line on which it begins. -/
  line : Nat
  /-- Whether it follows the colon before a value. -/
  afterColon : Bool

/-- The line on which a comment belongs to the token before it, as it is known at the place `pos` of
the first comment. -/
def Place.footLine? (p : Place) (pos : Pos) : Option Nat :=
  if p.line == 0 || p.afterColon then none
  else if pos.textLine == pos.line && 1 < pos.column then some (pos.line + 2)
  else some (pos.textLine + 1)

/-- The comments between two tokens, as far as they have been read. -/
structure Comments where
  /-- The comments that are at their end, the last one first. -/
  closed : List Comment := []
  /-- The comment that a further line may belong to. -/
  current : Option Comment := none
  /-- The line that the next comment begins on. -/
  line : Nat := 0
  /-- Whether an empty line would be the first one. -/
  unbroken : Bool := false
  /-- The line on which a comment belongs to the token before it. -/
  footLine : Option Nat := none

namespace Comments

/-- Begin with the comments at `pos`, behind those that are at their end. -/
def beginAt (s : Comments) (p : Place) (pos : Pos) : Comments where
  closed := s.closed
  current := some { line := pos.line, column := pos.column }
  line := pos.line
  unbroken := pos.line ≤ pos.textLine + 1
  footLine := p.footLine? pos

/-- End the comment. -/
def close (s : Comments) (stop : Nat) : Comments :=
  match s.current with
  | some c => { s with closed := { c with stop } :: s.closed, current := none }
  | none => s

/-- Go on behind an empty line or the end of the text. The first empty line ends a comment that
belongs to the token before it or stands before the block collection. -/
def passEmpty (s : Comments) (p : Place) (stop : Nat) : Comments :=
  let ends := match s.current with
    | some c => s.unbroken && (some c.line == s.footLine || c.column < p.column)
    | none => false
  { if ends then s.close stop else s with line := s.line + 1, unbroken := false }

/-- Go on to a line that begins at a column. -/
def passIndent (s : Comments) (p : Place) (column stop : Nat) : Comments :=
  match s.current with
  | some c => if column < p.column && column != c.column then s.close stop else s
  | none => s

/-- Go on with a line of comments that begins at a column. -/
def passLine (s : Comments) (column : Nat) : Comments :=
  { s with current := s.current <|> some { line := s.line, column } }

/-- The comments that are at their end. -/
def toList (s : Comments) : List Comment :=
  s.closed.reverse

end Comments

end LetPoly.Yaml
