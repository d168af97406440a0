import LetPoly.Yaml.Cursor

/-! # Scalars of a YAML text

Plain, quoted and block scalars. Each reader begins at a cursor and gives the text of the scalar and
the cursor behind it.
-/

namespace LetPoly.Yaml

/-- What a run of blanks and line ends between two words contributes to a scalar: without a line end
itself, with one a space, with more all but the first. After an escaped line end only the line ends
of the run count. -/
def foldGap (escaped : Bool) (gap : List Char) : List Char :=
  let breaks := (gap.filter isBreak).map breakText
  if escaped then
    breaks
  else
    match breaks with
    | [] => gap
    | ['\n'] => [' ']
    | '\n' :: more => more
    | _ => breaks

/-! ## Plain scalars -/

/-- Whether a character, followed by `rest`, ends a plain scalar. -/
def endsPlain (inFlow : Bool) (c : Char) (rest : List Char) : Bool :=
  (c == ':' && atGap rest) || (inFlow && ",?[]\x7b\x7d".toList.contains c)

/-- Read a plain scalar from the words and gaps of a text. Outside of flow collections its further
lines are indented by at least `indent`. `word` holds the text so far and `gap` the blanks since,
both backwards. The result holds the text, and whether a line end follows it. -/
def plainFrom (inFlow : Bool) (indent : Nat) :
    List Char → Pos → Window → (word gap : List Char) →
      Except Malformed (List Char × Bool × Cursor)
  | [], pos, w, word, gap => do
    let w ← if gap.isEmpty || (!inFlow && pos.column < indent) then pure w else w.need [] pos 4
    return (word.reverse, gap.any isBreak, ⟨[], pos, w⟩)
  | c :: rest, pos, w, word, gap => do
    if isBlank c then
      if c == '\t' && pos.column < indent && gap.any isBreak then throw .tab
      let w ← w.need rest (pos.after c) 1
      plainFrom inFlow indent rest (pos.after c) w word (c :: gap)
    else if isBreak c then
      let w ← w.need (c :: rest) pos 2
      let w ← w.need rest (pos.after c) 1
      plainFrom inFlow indent rest (pos.after c) w word (c :: gap)
    else if !gap.isEmpty && !inFlow && pos.column < indent then
      return (word.reverse, gap.any isBreak, ⟨c :: rest, pos, w⟩)
    else
      let w ← if gap.isEmpty then pure w else w.need (c :: rest) pos 4
      if endsPlain inFlow c rest || (!gap.isEmpty &&
          (c == '#' || (pos.column == 0 && atMarker (c :: rest)))) then
        return (word.reverse, gap.any isBreak, ⟨c :: rest, pos, w⟩)
      else
        let w ← w.need rest pos.next 2
        plainFrom inFlow indent rest pos.next w
          (c :: ((foldGap false gap.reverse).reverse ++ word)) []

/-- Read a plain scalar. -/
def plain (inFlow : Bool) (indent : Nat) (c : Cursor) :
    Except Malformed (List Char × Bool × Cursor) :=
  plainFrom inFlow indent c.rest c.pos c.window [] []

/-! ## Quoted scalars -/

/-- The value of a hexadecimal digit. -/
def hexDigit? (c : Char) : Option Nat :=
  if c.isDigit then some (c.toNat - '0'.toNat)
  else if 'a' ≤ c && c ≤ 'f' then some (c.toNat - 'a'.toNat + 10)
  else if 'A' ≤ c && c ≤ 'F' then some (c.toNat - 'A'.toNat + 10)
  else none

/-- The value of some hexadecimal digits. -/
def hexValue? (cs : List Char) : Option Nat :=
  cs.foldlM (fun n c => (hexDigit? c).map (16 * n + ·)) 0

/-- The character given by exactly `n` hexadecimal digits. -/
def hexChar? (n : Nat) (cs : List Char) : Option Char := do
  let digits := cs.take n
  guard (digits.length == n)
  let value ← hexValue? digits
  guard value.isValidChar
  return Char.ofNat value

/-- The character that a backslash and `c` stand for, where `rest` follows, and how many characters
of `rest` belong to the escape. -/
def escape? (c : Char) (rest : List Char) : Option (Char × Nat) :=
  match c with
  | '0' => some ('\x00', 0)
  | 'a' => some ('\x07', 0)
  | 'b' => some ('\x08', 0)
  | 't' | '\t' => some ('\t', 0)
  | 'n' => some ('\n', 0)
  | 'v' => some ('\x0b', 0)
  | 'f' => some ('\x0c', 0)
  | 'r' => some ('\r', 0)
  | 'e' => some ('\x1b', 0)
  | ' ' | '\x22' | '\x27' | '\\' => some (c, 0)
  | 'N' => some ('\u0085', 0)
  | '_' => some ('\u00a0', 0)
  | 'L' => some ('\u2028', 0)
  | 'P' => some ('\u2029', 0)
  | 'x' => (hexChar? 2 rest).map (·, 2)
  | 'u' => (hexChar? 4 rest).map (·, 4)
  | 'U' => (hexChar? 8 rest).map (·, 8)
  | _ => none

/-- Read a quoted scalar behind its opening quote. `word` holds the text so far and `gap` the blanks
since, both backwards; `escaped` says that the gap began with an escaped line end. -/
def quotedFrom (double : Bool) (cs : List Char) (pos : Pos) (w : Window) (word gap : List Char)
    (escaped : Bool) : Except Malformed (List Char × Cursor) := do
  match cs with
  | [] => throw .unclosedQuote
  | c :: rest =>
    let quote := if double then '\x22' else '\x27'
    if isBlank c then
      let w ← w.need rest (pos.after c) 1
      quotedFrom double rest (pos.after c) w word (c :: gap) escaped
    else if isBreak c then
      let w ← w.need cs pos 2
      let w ← w.need rest (pos.after c) 1
      quotedFrom double rest (pos.after c) w word (c :: gap) escaped
    else
      let w ← if gap.isEmpty && (!escaped || c == quote) then pure w else w.need cs pos 4
      if pos.column == 0 && atMarker cs then throw .markerInQuote
      let word := (foldGap escaped gap.reverse).reverse ++ word
      if c == quote then
        if !double && rest.head? == some c then
          let w ← w.need (rest.drop 1) pos.next.next 2
          quotedFrom double (rest.drop 1) pos.next.next w (c :: word) [] false
        else
          return (word.reverse, ⟨rest, pos.next, w⟩)
      else if double && c == '\\' then
        match rest with
        | [] => throw .escape
        | e :: rest =>
          if isBreak e then
            let w ← w.need cs pos 3
            let w ← w.need rest (pos.next.after e) 1
            quotedFrom double rest (pos.next.after e) w word [] true
          else
            match escape? e rest with
            | none => throw .escape
            | some (x, n) =>
              let w ← w.need rest pos.next.next n
              let pos := { pos with index := pos.index + 2 + n, column := pos.column + 2 + n }
              let w ← w.need (rest.drop n) pos 2
              quotedFrom double (rest.drop n) pos w (x :: word) [] false
      else
        let w ← w.need rest pos.next 2
        quotedFrom double rest pos.next w (c :: word) [] false
termination_by cs.length
decreasing_by all_goals grind

/-- Read a quoted scalar from its opening quote on. -/
def quoted (double : Bool) (c : Cursor) : Except Malformed (List Char × Cursor) := do
  let c ← (c.drop 1).need 4
  quotedFrom double c.rest c.pos c.window [] [] false

/-! ## Block scalars -/

/-- What becomes of the line ends at the end of a block scalar. -/
inductive Chomp where
  | clip
  | strip
  | keep
  deriving DecidableEq

/-- The chomping that an indicator asks for. -/
def Chomp.ofChar? : Char → Option Chomp
  | '+' => some .keep
  | '-' => some .strip
  | _ => none

/-- The indentation that an indicator asks for. -/
def indentOfChar? (c : Char) : Option Nat :=
  if c.isDigit then some (c.toNat - '0'.toNat) else none

/-- Read the indicators of a block scalar, of each kind at most one in either order, and the rest of
their line. The indentation is zero if there is no indicator of it. -/
def blockHeader (c : Cursor) : Except Malformed (Chomp × Nat × Cursor) := do
  let c ← c.need 1
  let chomp? := c.next?.bind Chomp.ofChar?
  let c ← (if chomp?.isSome then c.drop 1 else c).need 1
  let indent? := c.next?.bind indentOfChar?
  let c ← (if indent?.isSome then c.drop 1 else c).need 1
  let late? := if chomp?.isNone && indent?.isSome then c.next?.bind Chomp.ofChar? else none
  let c := if late?.isSome then c.drop 1 else c
  if indent? == some 0 then throw .blockHeader
  let c ← c.skip isBlank
  let c ← if c.next? == some '#' then c.skip (!isBreak ·) else pure c
  match c.next? with
  | some x => if isBreak x then pure () else throw .blockHeader
  | none => pure ()
  return ((chomp?.or late?).getD .clip, indent?.getD 0, ← c.endLine)

/-- A block scalar that is being read, its texts backwards. -/
structure BlockText where
  text : List Char := []
  /-- The indentation of the content, zero as long as it is not known. -/
  indent : Nat
  /-- The widest indentation seen. -/
  widest : Nat := 0
  /-- The end of the last line of content. -/
  lastBreak : Option Char := none
  /-- The ends of empty lines since. -/
  emptyLines : List Char := []
  /-- Whether the last line of content began with a blank. -/
  afterBlank : Bool := false

/-- Begin a line of content with a character. In a folded scalar a single line end between two lines
that do not begin with a blank becomes a space, and the first of several is dropped. -/
def BlockText.beginLine (b : BlockText) (literal : Bool) (c : Char) : BlockText :=
  let folds := !literal && !b.afterBlank && !isBlank c && b.lastBreak == some '\n'
  let glue := if folds then (if b.emptyLines.isEmpty then [' '] else []) else b.lastBreak.toList
  { b with
    text := c :: (b.emptyLines ++ glue ++ b.text)
    lastBreak := none
    emptyLines := []
    afterBlank := isBlank c }

/-- The text of a block scalar that has been read. -/
def BlockText.finish (b : BlockText) : Chomp → List Char
  | .strip => b.text.reverse
  | .clip => (b.lastBreak.toList ++ b.text).reverse
  | .keep => (b.emptyLines ++ b.lastBreak.toList ++ b.text).reverse

/-- Read the lines of a block scalar; `inLine` says that the line's indentation has been passed. An
indentation that is not given is that of the first line of content, at least `least`. -/
def blockLines (literal : Bool) (least : Nat) :
    List Char → Pos → Window → (inLine : Bool) → BlockText →
      Except Malformed (BlockText × Cursor)
  | [], pos, w, _, b => return (b, ⟨[], pos, w⟩)
  | c :: rest, pos, w, true, b => do
    if isBreak c then
      let w ← w.need (c :: rest) pos 2
      let w ← w.need rest (pos.after c) 1
      blockLines literal least rest (pos.after c) w false { b with lastBreak := some (breakText c) }
    else
      let w ← w.need rest (pos.after c) 1
      blockLines literal least rest (pos.after c) w true { b with text := c :: b.text }
  | c :: rest, pos, w, false, b => do
    let b := { b with widest := max b.widest pos.column }
    let inIndent := b.indent == 0 || pos.column < b.indent
    if inIndent && c == ' ' then
      let w ← w.need rest (pos.after c) 1
      blockLines literal least rest (pos.after c) w false b
    else if inIndent && c == '\t' then
      throw .tab
    else if isBreak c then
      let w ← w.need (c :: rest) pos 2
      let w ← w.need rest (pos.after c) 1
      blockLines literal least rest (pos.after c) w false
        { b with emptyLines := breakText c :: b.emptyLines }
    else
      let b := if b.indent == 0 then { b with indent := max b.widest least } else b
      if pos.column == b.indent then
        let w ← w.need rest (pos.after c) 1
        blockLines literal least rest (pos.after c) w true (b.beginLine literal c)
      else
        return (b, ⟨c :: rest, pos, w⟩)

/-- Read a block scalar from its indicator on, inside a block collection with the given
indentation. -/
def block (literal : Bool) (parent : Option Nat) (c : Cursor) :
    Except Malformed (List Char × Cursor) := do
  let (chomp, increment, c) ← blockHeader (c.drop 1)
  let indent := if increment == 0 then 0 else parent.getD 0 + increment
  let least := match parent with
    | some i => i + 1
    | none => 1
  let c ← c.need 1
  let (b, c) ← blockLines literal least c.rest c.pos c.window false { indent }
  return (b.finish chomp, c)

end LetPoly.Yaml
