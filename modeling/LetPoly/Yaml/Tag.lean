import LetPoly.Yaml.Scalar

/-! # Tags and directives of a YAML text -/

namespace LetPoly.Yaml

/-- The characters of a tag besides percent signs. -/
def isTagChar (c : Char) : Bool :=
  isWord c || ";/?:@&=+$,.!~*'()[]".toList.contains c

/-- The octet given by a percent sign and two hexadecimal digits. -/
def tagOctet? : List Char → Option Nat
  | '%' :: a :: b :: _ => hexValue? [a, b]
  | _ => none

/-- The number of octets of a character whose first octet is given, and what that octet
contributes. -/
def leadOctet? (n : Nat) : Option (Nat × Nat) :=
  if n < 0x80 then some (1, n)
  else if n < 0xC0 then none
  else if n < 0xE0 then some (2, n - 0xC0)
  else if n < 0xF0 then some (3, n - 0xE0)
  else if n < 0xF8 then some (4, n - 0xF0)
  else none

/-- The value of `k` further octets of a character, begun with `value`. -/
def trailOctets? (value : Nat) : Nat → List Char → Option Nat
  | 0, _ => some value
  | k + 1, cs => do
    let n ← tagOctet? cs
    guard (0x80 ≤ n && n < 0xC0)
    trailOctets? (64 * value + (n - 0x80)) k (cs.drop 3)

/-- The character that percent escapes stand for, and how many escapes it takes. Octets that are no
character in its shortest form stand for the replacement character. -/
def tagEscape? (cs : List Char) : Option (Char × Nat) := do
  let (k, value) ← leadOctet? (← tagOctet? cs)
  let value ← trailOctets? value (k - 1) (cs.drop 3)
  let c := Char.ofNat value
  return (if value.isValidChar && c.utf8Size == k then c else '\ufffd', k)

/-- Read the characters of a tag; `text` holds what was read so far, backwards. -/
def tagText (cs : List Char) (pos : Pos) (w : Window) (text : List Char) :
    Except Malformed (List Char × Cursor) := do
  let w ← w.need cs pos 1
  match cs with
  | [] => return (text.reverse, ⟨cs, pos, w⟩)
  | c :: rest =>
    if isTagChar c then
      tagText rest pos.next w (c :: text)
    else if c == '%' then
      match tagEscape? cs with
      | none => throw .tag
      | some (x, k) =>
        let w ← w.need cs pos (3 * k)
        let pos := { pos with index := pos.index + 3 * k, column := pos.column + 3 * k }
        tagText (rest.drop (3 * k - 1)) pos w (x :: text)
    else
      return (text.reverse, ⟨cs, pos, w⟩)
termination_by cs.length
decreasing_by all_goals grind

/-- Read the characters of a tag and give their text. -/
def tagUri (c : Cursor) : Except Malformed (String × Cursor) := do
  let (text, c) ← tagText c.rest c.pos c.window []
  return (String.ofList text, c)

/-- Read an exclamation mark, a word and perhaps another exclamation mark. -/
def tagHandle (c : Cursor) : Except Malformed (String × Cursor) := do
  let c ← c.need 1
  if c.next? != some '!' then throw .tag
  let (word, c) ← (c.drop 1).span isWord
  if c.next? == some '!' then
    return (String.ofList ('!' :: word ++ ['!']), c.drop 1)
  else
    return (String.ofList ('!' :: word), c)

/-- Read a tag: its handle and the rest of it. A verbatim tag and the tag of a single exclamation
mark have no handle. -/
def tag (c : Cursor) : Except Malformed (String × String × Cursor) := do
  let (handle, suffix, c) ←
    if (c.drop 1).next? == some '<' then do
      let (uri, c) ← tagUri (c.drop 2)
      if uri == "" || c.next? != some '>' then throw .tag
      pure ("", uri, c.drop 1)
    else do
      let (handle, c) ← tagHandle c
      let (uri, c) ← tagUri c
      if handle.length > 1 && handle.endsWith "!" then
        if uri == "" then throw .tag
        pure (handle, uri, c)
      else
        let suffix := String.ofList (handle.toList.drop 1) ++ uri
        pure (if suffix == "" then ("", "!", c) else ("!", suffix, c))
  let c ← c.need 1
  if atGap c.rest then return (handle, suffix, c) else throw .tag

/-- A directive: the version of the format, or what a tag handle stands for. -/
inductive Directive where
  | version (major minor : Nat)
  | tag (handle expansion : String)
  deriving DecidableEq

/-- Read a version number of one or two digits. -/
def versionNumber (c : Cursor) : Except Malformed (Nat × Cursor) := do
  let (digits, c) ← c.span Char.isDigit
  if digits.isEmpty || digits.length > 2 then throw .directive
  return (digits.foldl (fun n d => 10 * n + (d.toNat - '0'.toNat)) 0, c)

/-- Read a directive from its percent sign to the end of its line. -/
def directive (c : Cursor) : Except Malformed (Directive × Cursor) := do
  let (name, c) ← (c.drop 1).span isWord
  if name.isEmpty || !atGap c.rest then throw .directive
  let c ← c.skip isBlank
  let (d, c) ←
    if name == "YAML".toList then do
      let (major, c) ← versionNumber c
      if c.next? != some '.' then throw .directive
      let (minor, c) ← versionNumber (c.drop 1)
      pure (Directive.version major minor, c)
    else if name == "TAG".toList then do
      let (handle, c) ← tagHandle c
      if handle != "!" && !handle.endsWith "!" then throw .directive
      let (blanks, c) ← c.span isBlank
      if blanks.isEmpty then throw .directive
      let (expansion, c) ← tagUri c
      if expansion == "" || !atGap c.rest then throw .directive
      pure (Directive.tag handle expansion, c)
    else
      throw .directive
  let c ← c.skip isBlank
  let c ← if c.next? == some '#' then c.skip (!isBreak ·) else pure c
  if !atGap c.rest then throw .directive
  return (d, ← c.endLine)

end LetPoly.Yaml
