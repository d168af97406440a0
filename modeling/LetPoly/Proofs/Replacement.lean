import LetPoly.Proofs.Failing

/-! # Replacing variables by a table

Replacement follows the links of a type and puts an image in the place of each unbound variable
that the table has. It does not look into the images. So a replacement followed by another one is
the replacement by a composed table.
-/

namespace LetPoly

open Store

variable {s : Store} {table table₁ table₂ : List (Int64 × Ty)} {t p r : Ty} {v w : Nat}
  {pos : List Ty.Half}

/-! ## The forms of a type -/

namespace Store

@[simp]
theorem substitute_unit : s.substitute table .unit = .unit := by
  simp [substitute, Ty.subst]

@[simp]
theorem substitute_absent : s.substitute table .absent = .absent := by
  simp [substitute, Ty.subst]

@[simp]
theorem substitute_arrow :
    s.substitute table (.arrow p r) = .arrow (s.substitute table p) (s.substitute table r) := by
  simp [substitute, Ty.subst]

theorem substitute_of_free (hlink : s.link v = none) :
    s.substitute table (.var v) = (table.lookup (s.id v)).getD (.var v) := by
  rw [substitute, resolve_of_free hlink, Ty.subst]

theorem substitute_of_link (hlink : s.link v = some t) (ht : s.Grounded t) :
    s.substitute table (.var v) = s.substitute table t := by
  rw [substitute, resolve_of_link hlink ht, substitute]

/-- What comes out stands for the type with the resolved images in the place of variables. -/
theorem Grounded.resolve_substitute (ht : s.Grounded t) :
    s.resolve (s.substitute table t) = (s.resolve t).subst fun v =>
      ((table.lookup (s.id v)).map s.resolve).getD (.var v) := by
  induction ht with
  | unit | absent => simp [Ty.subst]
  | @free v _ hnone =>
      rw [substitute_of_free hnone, resolve_of_free hnone, Ty.subst]
      cases table.lookup (s.id v) with
      | none => exact resolve_of_free hnone
      | some image => rfl
  | link hlink h ih => rw [substitute_of_link hlink h, resolve_of_link hlink h, ih]
  | arrow _ _ ihp ihr => simp only [substitute_arrow, resolve_arrow, Ty.subst, ihp, ihr]

/-! ## Where the images stand -/

/-- The position lies in an image that was put in the place of a variable. -/
def InImage (s : Store) (table : List (Int64 × Ty)) (t : Ty) (pos : List Ty.Half) : Prop :=
  ∃ outer inner v image, pos = outer ++ inner ∧ (s.resolve t).component? outer = some (.var v) ∧
    table.lookup (s.id v) = some image ∧ (s.substitute table t).component? outer = some image

theorem InImage.param (h : s.InImage table p pos) :
    s.InImage table (.arrow p r) (.param :: pos) := by
  obtain ⟨outer, inner, v, image, rfl, hvar, hlookup, himage⟩ := h
  refine ⟨.param :: outer, inner, v, image, rfl, ?_, hlookup, ?_⟩
  · rwa [resolve_arrow, Ty.component?]
  · rwa [substitute_arrow, Ty.component?]

theorem InImage.ret (h : s.InImage table r pos) : s.InImage table (.arrow p r) (.ret :: pos) := by
  obtain ⟨outer, inner, v, image, rfl, hvar, hlookup, himage⟩ := h
  refine ⟨.ret :: outer, inner, v, image, rfl, ?_, hlookup, ?_⟩
  · rwa [resolve_arrow, Ty.component?]
  · rwa [substitute_arrow, Ty.component?]

/-- A linked variable comes out only as a part of an image. -/
theorem Grounded.inImage_of_linked (ht : s.Grounded t)
    (hpos : (s.substitute table t).component? pos = some (.var w)) (hw : s.link w ≠ none) :
    s.InImage table t pos := by
  induction ht generalizing pos with
  | unit =>
      rw [substitute_unit] at hpos
      cases pos <;> simp [Ty.component?] at hpos
  | absent =>
      rw [substitute_absent] at hpos
      cases pos <;> simp [Ty.component?] at hpos
  | @free v _ hnone =>
      cases hlookup : table.lookup (s.id v) with
      | some image =>
          refine ⟨[], pos, v, image, rfl, ?_, hlookup, ?_⟩
          · rw [resolve_of_free hnone, Ty.component?]
          · rw [substitute_of_free hnone, hlookup, Ty.component?, Option.getD_some]
      | none =>
          rw [substitute_of_free hnone, hlookup, Option.getD_none] at hpos
          cases pos with
          | nil =>
              obtain rfl : v = w := by simpa [Ty.component?] using hpos
              exact absurd hnone hw
          | cons half pos => simp [Ty.component?] at hpos
  | link hlink h ih =>
      rw [substitute_of_link hlink h] at hpos
      obtain ⟨outer, inner, u, image, rfl, hvar, hlookup, himage⟩ := ih hpos
      refine ⟨outer, inner, u, image, rfl, ?_, hlookup, ?_⟩
      · rwa [resolve_of_link hlink h]
      · rwa [substitute_of_link hlink h]
  | arrow _ _ ihp ihr =>
      rw [substitute_arrow] at hpos
      cases pos with
      | nil => simp [Ty.component?] at hpos
      | cons half pos =>
          cases half with
          | param => exact (ihp hpos).param
          | ret => exact (ihr hpos).ret

/-! ## Two replacements -/

/-- The table of a replacement that is followed by another one. -/
def compose (s : Store) (table₁ table₂ : List (Int64 × Ty)) : List (Int64 × Ty) :=
  table₁.map (fun entry => (entry.1, s.substitute table₂ entry.2)) ++ table₂

theorem lookup_compose (i : Int64) :
    (s.compose table₁ table₂).lookup i =
      ((table₁.lookup i).map (s.substitute table₂)).or (table₂.lookup i) := by
  induction table₁ with
  | nil => rfl
  | cons entry table ih =>
      obtain ⟨j, image⟩ := entry
      simp only [compose, List.map_cons, List.cons_append, List.lookup_cons]
      cases i == j with
      | true => rfl
      | false => exact ih

theorem Grounded.substitute_substitute (ht : s.Grounded t) :
    s.substitute table₂ (s.substitute table₁ t) = s.substitute (s.compose table₁ table₂) t := by
  induction ht with
  | unit | absent => simp
  | @free v _ hnone =>
      rw [substitute_of_free hnone, substitute_of_free hnone, lookup_compose]
      cases table₁.lookup (s.id v) with
      | none => exact substitute_of_free hnone
      | some image => rfl
  | link hlink h ih => rw [substitute_of_link hlink h, substitute_of_link hlink h, ih]
  | arrow _ _ ihp ihr => rw [substitute_arrow, substitute_arrow, substitute_arrow, ihp, ihr]

end Store

/-- Replacement only reads the store. It puts all images in their places at once and keeps no link
but those in the images. Two replacements come to the same type as the one by the composed
table. -/
theorem substitute_simultaneous (s : Store) (hacyclic : s.Acyclic) (hclosed : s.Closed) (t : Ty)
    (ht : ∀ v ∈ t.vars, v < s.size) (table₁ table₂ : List (Int64 × Ty)) :
    s.resolve (s.substitute table₁ t) = ((s.resolve t).subst fun v =>
      ((table₁.lookup (s.id v)).map s.resolve).getD (.var v)) ∧
    (∀ pos w, (s.substitute table₁ t).component? pos = some (.var w) → s.link w ≠ none →
      s.InImage table₁ t pos) ∧
    (∀ i, (s.compose table₁ table₂).lookup i =
      ((table₁.lookup i).map (s.substitute table₂)).or (table₂.lookup i)) ∧
    s.substitute table₂ (s.substitute table₁ t) = s.substitute (s.compose table₁ table₂) t := by
  have hg := hacyclic.grounded hclosed ht
  exact ⟨hg.resolve_substitute, fun _ _ => hg.inImage_of_linked, lookup_compose,
    hg.substitute_substitute⟩

/-- A table whose image leads back, through a link, to the variable that it is the image of. -/
def loopTable : List (Int64 × Ty) :=
  [(0, .arrow (.var 2) (.var 1))]

/-- A table with a variable of the image above, and with the variable that it is the image of. -/
def swapTable : List (Int64 × Ty) :=
  [(2, .unit), (0, .var 2)]

/-- The image is not replaced again, and its link stays until the second replacement. -/
theorem substitute_simultaneous_chain :
    chainStore.Acyclic ∧ chainStore.Closed ∧
    chainStore.substitute loopTable (.arrow (.var 1) (.var 2)) =
      .arrow (.arrow (.var 2) (.var 1)) (.var 2) ∧
    chainStore.resolve (chainStore.substitute loopTable (.arrow (.var 1) (.var 2))) =
      .arrow (.arrow (.var 2) (.var 0)) (.var 2) ∧
    chainStore.InImage loopTable (.arrow (.var 1) (.var 2)) [.param, .ret] ∧
    chainStore.substitute (chainStore.compose loopTable swapTable) (.arrow (.var 1) (.var 2)) =
      .arrow (.arrow .unit (.var 2)) .unit := by
  have hacyclic := acyclic_of_grounded chainStore_grounded
  obtain ⟨hresolve, himage, -, hcompose⟩ := substitute_simultaneous chainStore hacyclic
    chainStore_closed (.arrow (.var 1) (.var 2)) (by decide) loopTable swapTable
  exact ⟨hacyclic, chainStore_closed, rfl, hresolve.trans rfl, himage _ 1 rfl (by decide),
    hcompose.symm.trans rfl⟩

end LetPoly
