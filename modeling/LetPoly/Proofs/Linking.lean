import LetPoly.Proofs.Evolution

/-! # Linking an unbound variable -/

namespace LetPoly.Store

variable {s : Store} {v : Nat} {t : Ty}

/-- An unbound variable and a type that does not contain it. -/
structure Linkable (s : Store) (v : Nat) (t : Ty) : Prop where
  lt : v < s.size
  free : s.link v = none
  grounded : s.Grounded t
  apart : v ∉ s.unbound t

/-- The store after a variable was linked and the variables of its type were lowered. -/
def linked (s : Store) (v : Nat) (t : Ty) : Store :=
  (s.lowerAll (s.unbound t) (s.level v)).setLink v t

@[simp]
theorem size_linked : (s.linked v t).size = s.size := by
  simp [linked, setLink]

namespace Linkable

theorem cell_linked (h : s.Linkable v t) (w : Nat) :
    (s.linked v t).cell w =
      if w = v then { s.cell v with link := some t }
      else if w ∈ s.unbound t then { s.cell w with level := min (s.level w) (s.level v) }
      else s.cell w := by
  unfold linked setLink
  by_cases hw : w = v
  · subst hw
    rw [cell_modify_self _ _ (by simpa using h.lt), cell_lowerAll]
    simp [h.apart]
  · rw [cell_modify_of_ne _ _ (Ne.symm hw), cell_lowerAll]
    by_cases hmem : w ∈ s.unbound t
    · simp [hw, hmem, h.grounded.lt_size_of_mem_unbound hmem]
    · simp [hw, hmem]

theorem link_self (h : s.Linkable v t) : (s.linked v t).link v = some t := by
  simp [link, h.cell_linked]

theorem link_of_ne (h : s.Linkable v t) {w : Nat} (hw : w ≠ v) :
    (s.linked v t).link w = s.link w := by
  by_cases hmem : w ∈ s.unbound t <;> simp [link, h.cell_linked, hw, hmem]

theorem level_eq (h : s.Linkable v t) (w : Nat) :
    (s.linked v t).level w =
      if w ∈ s.unbound t then min (s.level w) (s.level v) else s.level w := by
  by_cases hw : w = v
  · subst hw
    simp [Store.level, h.cell_linked, h.apart]
  · by_cases hmem : w ∈ s.unbound t <;> simp [Store.level, h.cell_linked, hw, hmem]

theorem grounded_linked (h : s.Linkable v t) : (s.linked v t).Grounded t := by
  refine h.grounded.congr (by simp) fun w hw => h.link_of_ne ?_
  rintro rfl
  exact h.apart (h.grounded.mem_unbound.mpr ⟨hw, h.free⟩)

theorem toExtends (h : s.Linkable v t) : s.Extends (s.linked v t) := by
  have hlinks : ∀ {w : Nat} {u : Ty}, s.link w = some u → (s.linked v t).link w = some u := by
    intro w u hlink
    rw [h.link_of_ne (by rintro rfl; simp [h.free] at hlink)]
    exact hlink
  refine ⟨hlinks, fun hu => ?_⟩
  induction hu with
  | unit => exact .unit
  | absent => exact .absent
  | @free w hw hnone =>
      by_cases hwv : w = v
      · subst hwv
        exact .link h.link_self h.grounded_linked
      · exact .free (by simpa using hw) ((h.link_of_ne hwv).trans hnone)
  | link hlink _ ih => exact .link (hlinks hlink) ih
  | arrow _ _ ihp ihr => exact .arrow ihp ihr

theorem resolve_self (h : s.Linkable v t) : (s.linked v t).resolve (.var v) = s.resolve t := by
  rw [resolve_of_link h.link_self h.grounded_linked]
  refine h.toExtends.resolve_eq_self h.grounded fun w hw => ?_
  rw [h.link_of_ne (by rintro rfl; exact h.apart hw)]
  exact h.grounded.link_of_mem_unbound hw

theorem unbound_self (h : s.Linkable v t) : (s.linked v t).unbound (.var v) = s.unbound t := by
  simp [unbound, h.resolve_self]

theorem resolve_of_ne (h : s.Linkable v t) {w : Nat} (hw : w ≠ v) (hfree : s.link w = none) :
    (s.linked v t).resolve (.var w) = .var w :=
  resolve_of_free ((h.link_of_ne hw).trans hfree)

theorem unbound_of_ne (h : s.Linkable v t) {w : Nat} (hw : w ≠ v) (hfree : s.link w = none) :
    (s.linked v t).unbound (.var w) = [w] :=
  unbound_of_free ((h.link_of_ne hw).trans hfree)

theorem touches (h : s.Linkable v t) (hc : (s.resolve t).Complete) :
    s.Touches (s.linked v t) {w | w = v ∨ w ∈ s.unbound t} where
  active := by
    rintro w (rfl | hw)
    · exact ⟨h.lt, h.free⟩
    · exact ⟨h.grounded.lt_size_of_mem_unbound hw, h.grounded.link_of_mem_unbound hw⟩
  size_le := by simp
  frame w _ hw := by
    obtain ⟨hne, hmem⟩ := not_or.mp hw
    simp [h.cell_linked, hne, hmem]
  id_eq w _ := by
    by_cases hw : w = v
    · subst hw
      simp [Store.id, h.cell_linked]
    · by_cases hmem : w ∈ s.unbound t <;> simp [Store.id, h.cell_linked, hw, hmem]
  level_le w _ := by
    rw [h.level_eq]
    split
    · exact min_le_left _ _
    · exact Int.le_refl _
  grounded hu := h.toExtends.grounded hu
  complete {u} hu huc := by
    rw [h.toExtends.resolve_eq hu, Ty.complete_subst]
    refine ⟨huc, fun w hw => ?_⟩
    by_cases hwv : w = v
    · subst hwv
      rwa [h.resolve_self]
    · rw [h.resolve_of_ne hwv (hu.link_of_mem_unbound hw)]
      trivial
  reach := by
    rintro w hw u hu
    by_cases hwv : w = v
    · subst hwv
      rw [h.unbound_self] at hu
      exact .inl (.inr hu)
    · have hmem : w ∈ s.unbound t := hw.resolve_left hwv
      rw [h.unbound_of_ne hwv (h.grounded.link_of_mem_unbound hmem), List.mem_singleton] at hu
      exact .inl (hu ▸ hw)
  level_reach := by
    rintro w hw u hu
    rw [h.level_eq]
    by_cases hwv : w = v
    · subst hwv
      rw [h.unbound_self] at hu
      simp only [hu, ite_true]
      exact min_le_right _ _
    · have hmem : w ∈ s.unbound t := hw.resolve_left hwv
      rw [h.unbound_of_ne hwv (h.grounded.link_of_mem_unbound hmem), List.mem_singleton] at hu
      subst hu
      simp only [hmem, ite_true]
      exact min_le_left _ _

/-- A variable of the type is as low as it was, or as the variable that was linked. -/
theorem justified (h : s.Linkable v t) (ℓ : Int) :
    s.Justified (s.linked v t) {w | w = v ∨ w ∈ s.unbound t} ℓ := by
  intro w hlt hfree hw
  have hwv : w ≠ v := by
    rintro rfl
    simp [h.link_self] at hfree
  rw [size_linked] at hlt
  have hmem : w ∈ s.unbound t := (hw.resolve_right (Nat.not_le_of_lt hlt)).resolve_left hwv
  have hlevel : (s.linked v t).level w = min (s.level w) (s.level v) := by
    simp [h.level_eq, hmem]
  rcases min_choice (s.level w) (s.level v) with hmin | hmin
  · exact .inr ⟨w, .inr hmem, by simp [unbound_of_free hfree], by rw [hlevel, hmin]⟩
  · refine .inr ⟨v, .inl rfl, ?_, by rw [hlevel, hmin]⟩
    rwa [h.unbound_self]

/-- An assignment that gives the variable what it gives the type means the same before and
after. -/
theorem resolve_subst (h : s.Linkable v t) {θ : Nat → Ty} (hθ : θ v = (s.resolve t).subst θ)
    {u : Ty} (hu : s.Grounded u) :
    ((s.linked v t).resolve u).subst θ = (s.resolve u).subst θ := by
  rw [h.toExtends.resolve_subst θ hu]
  refine Ty.subst_congr fun w hw => ?_
  by_cases hwv : w = v
  · subst hwv
    rw [h.resolve_self, hθ]
  · rw [h.resolve_of_ne hwv (hu.link_of_mem_unbound hw), Ty.subst]

end Linkable

end LetPoly.Store
