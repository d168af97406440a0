import LetPoly.Yaml.Text

/-! # Reading a YAML text

A text is read in blocks, as far as its tokens need it. So a character that no text may hold counts
only if its block is read. What has been read and not passed yet is the window; it moves on to the
place that needs more of the text.
-/

namespace LetPoly.Yaml

/-- A block of a text. -/
structure Block where
  /-- The number of its characters. -/
  size : Nat
  /-- Whether a text may hold all of them. -/
  allowed : Bool
  deriving DecidableEq

/-- The greatest number of octets of a block. -/
def blockSize : Nat := 512

/-- The blocks of a text behind a begun one with some octets and characters. No character is
divided. -/
def blocksFrom (octets size : Nat) (allowed : Bool) : List Char → List Block
  | [] => [⟨size, allowed⟩]
  | c :: cs =>
    if octets + c.utf8Size ≤ blockSize then
      blocksFrom (octets + c.utf8Size) (size + 1) (allowed && isAllowed c) cs
    else
      ⟨size, allowed⟩ :: blocksFrom c.utf8Size 1 (isAllowed c) cs

/-- The part of a text that has been read. -/
structure Window where
  /-- How many characters have been read. At the end of the text, its end counts as some more. -/
  filled : Nat := 0
  /-- The blocks that have not been read. -/
  blocks : List Block
  /-- Whether the window begins with a byte order mark. -/
  marked : Bool := false

namespace Window

/-- Read blocks until there are enough characters or the text is at its end. -/
def readBlocks (enough : Nat) : Nat → List Block → Except Malformed (Nat × List Block)
  | filled, [] => .ok (filled + 1, [])
  | filled, b :: bs =>
    if !b.allowed then .error .character
    else if enough ≤ filled + b.size then .ok (filled + b.size, bs)
    else readBlocks enough (filled + b.size) bs

/-- Make sure that `n` characters have been read from a place on, where the text goes on with `cs`.
If more has to be read, the window begins at that place. -/
def need (w : Window) (cs : List Char) (pos : Pos) (n : Nat) : Except Malformed Window :=
  if pos.index + n ≤ w.filled then
    .ok w
  else
    match readBlocks (pos.index + n) w.filled w.blocks with
    | .ok (filled, blocks) => .ok { filled, blocks, marked := cs.head? == some byteOrderMark }
    | .error m => .error m

end Window

/-- The rest of a text, the place where it begins and the window. -/
structure Cursor where
  rest : List Char
  pos : Pos := {}
  window : Window

namespace Cursor

/-- The beginning of a text. A byte order mark that it begins with does not belong to it. -/
def ofText (text : String) : Cursor :=
  match text.toList with
  | [] => ⟨[], {}, { blocks := [] }⟩
  | c :: cs =>
    if c == byteOrderMark then
      ⟨uniformBreaks cs, {}, { blocks := blocksFrom c.utf8Size 0 true cs }⟩
    else
      ⟨uniformBreaks (c :: cs), {}, { blocks := blocksFrom 0 0 true (c :: cs) }⟩

/-- Make sure that `n` characters have been read from the cursor on. -/
def need (c : Cursor) (n : Nat) : Except Malformed Cursor :=
  match c.window.need c.rest c.pos n with
  | .ok window => .ok { c with window }
  | .error m => .error m

/-- Go on by `n` characters. -/
def drop (c : Cursor) (n : Nat) : Cursor :=
  { c with rest := c.rest.drop n, pos := (c.rest.take n).foldl Pos.after c.pos }

/-- Go on behind a line end, if one follows. -/
def endLine (c : Cursor) : Except Malformed Cursor := do
  match c.rest with
  | x :: _ => if isBreak x then return (← c.need 2).drop 1 else return c
  | [] => return c

/-- The longest run of characters of a kind and the cursor behind it; `taken` holds the run so far,
backwards. -/
def spanFrom (p : Char → Bool) :
    List Char → Pos → Window → (taken : List Char) → Except Malformed (List Char × Cursor)
  | [], pos, w, taken => do
    let w ← w.need [] pos 1
    return (taken.reverse, ⟨[], pos, w⟩)
  | c :: cs, pos, w, taken => do
    let w ← w.need (c :: cs) pos 1
    if p c then
      spanFrom p cs (pos.after c) w (c :: taken)
    else
      return (taken.reverse, ⟨c :: cs, pos, w⟩)

/-- The longest run of characters of a kind, and the cursor behind it. -/
def span (c : Cursor) (p : Char → Bool) : Except Malformed (List Char × Cursor) :=
  spanFrom p c.rest c.pos c.window []

/-- Go on behind a run of characters of a kind. -/
def skip (c : Cursor) (p : Char → Bool) : Except Malformed Cursor := do
  return (← c.span p).2

/-- The next character. -/
def next? (c : Cursor) : Option Char :=
  c.rest.head?

end Cursor

end LetPoly.Yaml
