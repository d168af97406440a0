import LetPoly.Yaml.Cursor
import LetPoly.Yaml.Token.Comment

/-! # Between the tokens of a YAML text

Blanks, line ends and comments. A comment is looked for only so far ahead.
-/

namespace LetPoly.Yaml

/-- How far behind a token or the end of a comment's line a comment is looked for. -/
def commentReach : Nat := 511

/-- Look for a line of comments behind a comment, `k` characters behind a place where the text goes
on with `head`. Only blanks and line ends may stand before it, and a wide line end hides it. Without
one, the comments are at their end. -/
def seekComment (p : Place) (head : List Char) (pos : Pos) :
    List Char → (k column : Nat) → Window → Comments → Except Malformed (Bool × Window × Comments)
  | [], k, _, w, s => do
    if k > commentReach then return (false, w, s.close (pos.index + commentReach))
    let w ← w.need head pos (k + 1)
    return (false, w, (s.passEmpty p (pos.index + k)).close (pos.index + k - 1))
  | c :: rest, k, column, w, s => do
    if k > commentReach then return (false, w, s.close (pos.index + commentReach))
    let w ← w.need head pos (k + 1)
    if isBlank c then
      seekComment p head pos rest (k + 1) (column + 1) w s
    else if isBreak c then
      let s := if k == 0 then s else s.passEmpty p (pos.index + k)
      if c == '\n' then
        seekComment p head pos rest (k + 1) 0 w s
      else if k + 1 > commentReach then
        return (false, w, s.close (pos.index + k))
      else
        let w ← w.need head pos (k + 2)
        if c == '\r' then
          seekComment p head pos rest (k + 2) 0 w (s.passEmpty p (pos.index + k + 1))
        else
          return (false, w, (s.passIndent p 0 (pos.index + k + 1)).close (pos.index + k))
    else
      let s := s.passIndent p column (pos.index + k)
      if c == '#' then return (true, w, s.passLine column)
      return (false, w, s.close (pos.index + k - 1))

/-- Look for a comment behind a token, `k` characters behind a place where the text goes on with
`head`. -/
def seekLineComment (head : List Char) (pos : Pos) :
    List Char → (k : Nat) → Window → Except Malformed (Bool × Window)
  | [], k, w => do
    if k > commentReach then return (false, w)
    return (false, ← w.need head pos (k + 1))
  | c :: rest, k, w => do
    if k > commentReach then return (false, w)
    let w ← w.need head pos (k + 1)
    if isBlank c then seekLineComment head pos rest (k + 1) w else return (c == '#', w)

/-- Go on behind a comment that follows on the same line. -/
def Cursor.skipLineComment (c : Cursor) : Except Malformed Cursor := do
  let (found, window) ← seekLineComment c.rest c.pos c.rest 0 c.window
  let c := { c with window }
  if found then c.skip (!isBreak ·) else return c

/-- What stands between two tokens: blanks, or a comment, or what comes before a further comment. -/
inductive Gap where
  | blank
  | comment
  | beforeComment

/-- Go on to the next token, past comments. A new line outside of flow collections may begin a
simple key; there a tab does not count as a blank, unless a comment follows on a comment. In a
window that begins with a byte order mark, the first character of a line is passed over. -/
def skipGap (p : Place) :
    List Char → Pos → Window → Gap → (keyAllowed : Bool) → Comments →
      Except Malformed (Cursor × Bool × List Comment)
  | [], pos, w, .blank, allowed, s => do
    let w ← w.need [] pos 1
    return (⟨[], if pos.column == 0 && w.marked then pos.next else pos, w⟩, allowed, s.toList)
  | [], pos, w, _, allowed, s =>
    return (⟨[], pos, w⟩, allowed, ((s.passEmpty p (pos.index + 1)).close pos.index).toList)
  | c :: rest, pos, w, .blank, allowed, s => do
    let w ← w.need (c :: rest) pos 1
    if pos.column == 0 && w.marked && c != '\r' then
      skipGap p rest (if isBlank c then pos.after c else pos.next) w .blank allowed s
    else if c == '#' then
      skipGap p rest pos.next w .comment allowed (s.beginAt p pos)
    else if isBreak c then
      let w ← w.need (c :: rest) pos 2
      skipGap p rest (pos.after c) w .blank (allowed || !p.inFlow) s
    else if c == ' ' || (c == '\t' && (p.inFlow || !allowed)) then
      skipGap p rest (pos.after c) w .blank allowed s
    else
      return (⟨c :: rest, pos, w⟩, allowed, s.toList)
  | c :: rest, pos, w, .comment, allowed, s => do
    let w ← w.need (c :: rest) pos 1
    if !isBreak c then
      skipGap p rest (pos.after c) w .comment allowed s
    else
      let (found, w, s) ←
        seekComment p (c :: rest) pos (c :: rest) 0 0 w { s with line := pos.line }
      let w ← w.need (c :: rest) pos 2
      if found then
        skipGap p rest (pos.after c) w .beforeComment allowed s
      else
        skipGap p rest (pos.after c) w .blank (allowed || !p.inFlow) s
  | c :: rest, pos, w, .beforeComment, allowed, s => do
    let w ← w.need (c :: rest) pos (if isBreak c then 2 else 1)
    skipGap p rest (pos.after c) w (if c == '#' then .comment else .beforeComment) allowed s

/-- Go on to the next token. Tell whether a simple key may begin there, and the comments before. -/
def Cursor.skipGap (c : Cursor) (p : Place) (keyAllowed : Bool) :
    Except Malformed (Cursor × Bool × List Comment) :=
  Yaml.skipGap p c.rest c.pos c.window .blank keyAllowed {}

end LetPoly.Yaml
