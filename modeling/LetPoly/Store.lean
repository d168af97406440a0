import LetPoly.Scheme

/-! # The store of type variables

A cell is unbound or linked to a type. Links may form chains; following all of them gives the type
that a type stands for. On a store whose links run in a circle this has no answer, so every walk
follows at most as many links in a row as there are cells: without a circle that is all of them.
-/

namespace LetPoly

/-- A type variable: its identifier, the binding level it belongs to and the type it is linked to,
if it is linked. -/
structure Cell where
  id : Int64
  level : Int
  link : Option Ty := none
  deriving DecidableEq, Inhabited

/-- The cells allocated so far; a variable is an index into them. -/
structure Store where
  cells : Array Cell := #[]
  deriving DecidableEq, Inhabited

namespace Store

/-- The number of cells. -/
def size (s : Store) : Nat :=
  s.cells.size

/-- The cell of a variable. A variable that was never allocated has a cell that is unbound. -/
def cell (s : Store) (v : Nat) : Cell :=
  s.cells[v]?.getD { id := 0, level := 0 }

/-- The identifier of a variable. -/
def id (s : Store) (v : Nat) : Int64 :=
  (s.cell v).id

/-- The binding level of a variable. -/
def level (s : Store) (v : Nat) : Int :=
  (s.cell v).level

/-- The type that a variable is linked to. -/
def link (s : Store) (v : Nat) : Option Ty :=
  (s.cell v).link

/-- Change the cell of a variable. -/
def modify (s : Store) (v : Nat) (f : Cell → Cell) : Store :=
  { s with cells := s.cells.modify v f }

@[simp]
theorem size_modify (s : Store) (v : Nat) (f : Cell → Cell) : (s.modify v f).size = s.size := by
  simp [modify, size]

theorem cell_modify_of_ne (s : Store) (f : Cell → Cell) {v w : Nat} (h : v ≠ w) :
    (s.modify v f).cell w = s.cell w := by
  simp [modify, cell, Array.getElem?_modify, h]

theorem cell_modify_self (s : Store) (f : Cell → Cell) {v : Nat} (h : v < s.size) :
    (s.modify v f).cell v = f (s.cell v) := by
  have hv : v < s.cells.size := h
  simp [modify, cell, hv, Array.getElem_modify]

/-- Allocate an unbound cell; its variable is the number of cells before. -/
def alloc (s : Store) (id : Int64) (level : Int) : Store :=
  { s with cells := s.cells.push { id, level } }

@[simp]
theorem size_alloc (s : Store) (id : Int64) (level : Int) :
    (s.alloc id level).size = s.size + 1 := by
  simp [alloc, size]

theorem cell_alloc_of_ne (s : Store) (id : Int64) (level : Int) {v : Nat} (h : v ≠ s.size) :
    (s.alloc id level).cell v = s.cell v := by
  have hv : v ≠ s.cells.size := h
  simp [alloc, cell, Array.getElem?_push, hv]

@[simp]
theorem cell_alloc_self (s : Store) (id : Int64) (level : Int) :
    (s.alloc id level).cell s.size = { id, level } := by
  simp [alloc, cell, size]

/-- Make a variable unbound again, with a new identifier and level. -/
def reinit (s : Store) (v : Nat) (id : Int64) (level : Int) : Store :=
  s.modify v fun _ => { id, level }

/-- Lower the level of a variable; a level is never raised. -/
def lower (s : Store) (v : Nat) (level : Int) : Store :=
  s.modify v fun c => { c with level := min c.level level }

/-- Link a variable to a type, whatever it was linked to before. -/
def setLink (s : Store) (v : Nat) (t : Ty) : Store :=
  s.modify v fun c => { c with link := some t }

/-- The type at the end of a chain of links, after at most `n` of them. -/
def headUpTo (s : Store) : Nat → Ty → Ty
  | n + 1, .var v =>
    match s.link v with
    | some t => s.headUpTo n t
    | none => .var v
  | _, t => t

/-- The type at the end of a chain of links. -/
def head (s : Store) (t : Ty) : Ty :=
  s.headUpTo s.size t

/-- A type with its links followed, at most `n` in a row. -/
def resolveUpTo (s : Store) : Nat → Ty → Ty
  | 0, t => t
  | n + 1, t => t.subst fun v =>
    match s.link v with
    | some u => s.resolveUpTo n u
    | none => .var v

/-- The type that a type stands for: all links followed, only unbound variables left. -/
def resolve (s : Store) (t : Ty) : Ty :=
  s.resolveUpTo s.size t

/-- The unbound variables that a type reaches, from left to right, each as often as it occurs. -/
def unbound (s : Store) (t : Ty) : List Nat :=
  (s.resolve t).vars

/-- Replace at once every unbound variable whose identifier is in the table by its image; of
several images the first in the table counts. Images are left as they are. -/
def substitute (s : Store) (table : List (Int64 × Ty)) (t : Ty) : Ty :=
  (s.resolve t).subst fun v => (table.lookup (s.id v)).getD (.var v)

/-- The identifiers of the unbound variables of a type whose level is above the given one, from left
to right, each as often as it occurs. -/
def idsAbove (s : Store) (level : Int) (t : Ty) : List Int64 :=
  ((s.unbound t).filter fun v => level < s.level v).map s.id

/-- Quantify the unbound variables of a type whose level is above the given one, in ascending order
of their identifiers. -/
def generalizeAt (s : Store) (level : Int) (t : Ty) : Scheme where
  vars := Scheme.arrange (s.idsAbove level t)
  body := t

end Store

end LetPoly
