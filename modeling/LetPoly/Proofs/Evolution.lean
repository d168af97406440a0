import LetPoly.Proofs.Resolution
import LetPoly.Unify
import Mathlib.Data.Set.Basic

/-! # How a store evolves

Inference adds cells, links unbound cells and lowers levels. What a stretch of work does to a store
is described by the set of unbound cells that it was free to touch: the other cells are as they
were, and the touched ones lead only to touched cells and to new ones.
-/

namespace LetPoly

namespace Ty

theorem subst_congr {f g : Nat → Ty} {t : Ty} (h : ∀ v ∈ t.vars, f v = g v) :
    t.subst f = t.subst g := by
  induction t with
  | unit | absent => rfl
  | var v => exact h v (by simp [vars])
  | arrow p r hp hr =>
      simp only [subst]
      rw [hp fun v hv => h v (List.mem_append_left _ hv),
        hr fun v hv => h v (List.mem_append_right _ hv)]

theorem subst_eq_self {f : Nat → Ty} {t : Ty} (h : ∀ v ∈ t.vars, f v = .var v) :
    t.subst f = t := by
  rw [subst_congr h, subst_var]

theorem eq_of_subst_eq {f g : Nat → Ty} {t : Ty} (h : t.subst f = t.subst g) :
    ∀ v ∈ t.vars, f v = g v := by
  induction t with
  | unit | absent => simp [vars]
  | var w => simpa [subst, vars] using h
  | arrow p r hp hr =>
      simp only [subst, arrow.injEq] at h
      intro v hv
      rcases List.mem_append.mp hv with hv | hv
      · exact hp h.1 v hv
      · exact hr h.2 v hv

theorem complete_subst {f : Nat → Ty} {t : Ty} :
    (t.subst f).Complete ↔ t.Complete ∧ ∀ v ∈ t.vars, (f v).Complete := by
  induction t with
  | unit | absent => simp [subst, Complete, vars]
  | var v => simp [subst, Complete, vars]
  | arrow p r hp hr =>
      simp only [subst, Complete, vars, hp, hr, List.mem_append]
      constructor
      · rintro ⟨⟨hp, hpv⟩, hr, hrv⟩
        exact ⟨⟨hp, hr⟩, fun v hv => hv.elim (hpv v) (hrv v)⟩
      · rintro ⟨⟨hp, hr⟩, h⟩
        exact ⟨⟨hp, fun v hv => h v (.inl hv)⟩, hr, fun v hv => h v (.inr hv)⟩

/-- Rename the variables of a type. -/
def rename (f : Nat → Nat) (t : Ty) : Ty :=
  t.subst fun v => .var (f v)

section Rename

variable {f : Nat → Nat} {t p r : Ty} {v : Nat}

@[simp]
theorem rename_unit : unit.rename f = unit := rfl

@[simp]
theorem rename_absent : absent.rename f = absent := rfl

@[simp]
theorem rename_var : (var v).rename f = var (f v) := rfl

@[simp]
theorem rename_arrow : (arrow p r).rename f = arrow (p.rename f) (r.rename f) := rfl

theorem vars_rename : (t.rename f).vars = t.vars.map f := by
  rw [rename, vars_subst, List.map_eq_flatMap]
  rfl

theorem complete_rename : (t.rename f).Complete ↔ t.Complete := by
  rw [rename, complete_subst]
  exact and_iff_left fun _ _ => trivial

end Rename

instance decidableComplete : (t : Ty) → Decidable t.Complete
  | unit | var _ => .isTrue trivial
  | arrow p r => @instDecidableAnd _ _ p.decidableComplete r.decidableComplete
  | absent => .isFalse False.elim

end Ty

namespace Store

variable {s s' s₁ s₂ : Store}

/-! ## Stores with more links -/

/-- The links of the store are kept, and what was grounded stays grounded. -/
structure Extends (s s' : Store) : Prop where
  link_eq : ∀ {v : Nat} {t : Ty}, s.link v = some t → s'.link v = some t
  grounded : ∀ {t : Ty}, s.Grounded t → s'.Grounded t

theorem Extends.free (h : s.Extends s') {v : Nat} (hv : s'.link v = none) : s.link v = none := by
  cases hlink : s.link v with
  | none => rfl
  | some t => simp [h.link_eq hlink] at hv

/-- Resolution in the later store is resolution in the earlier one, followed by resolution of the
variables that were left. -/
theorem Extends.resolve_eq (h : s.Extends s') {t : Ty} (ht : s.Grounded t) :
    s'.resolve t = (s.resolve t).subst fun v => s'.resolve (.var v) := by
  induction ht with
  | unit | absent => simp [Ty.subst]
  | free _ hnone => rw [resolve_of_free hnone, Ty.subst]
  | link hlink ht ih =>
      rw [resolve_of_link hlink ht, resolve_of_link (h.link_eq hlink) (h.grounded ht), ih]
  | arrow _ _ ihp ihr => simp only [resolve_arrow, Ty.subst, ihp, ihr]

theorem Extends.resolve_subst (h : s.Extends s') (θ : Nat → Ty) {t : Ty} (ht : s.Grounded t) :
    (s'.resolve t).subst θ = (s.resolve t).subst fun v => (s'.resolve (.var v)).subst θ := by
  rw [h.resolve_eq ht, Ty.subst_subst]

theorem Extends.mem_unbound (h : s.Extends s') {t : Ty} (ht : s.Grounded t) {w : Nat} :
    w ∈ s'.unbound t ↔ ∃ v ∈ s.unbound t, w ∈ s'.unbound (.var v) := by
  simp only [unbound, h.resolve_eq ht, Ty.vars_subst, List.mem_flatMap]

/-- A variable that is still unbound is still reached. -/
theorem Extends.mem_unbound_of_free (h : s.Extends s') {t : Ty} (ht : s.Grounded t) {v : Nat}
    (hv : v ∈ s.unbound t) (hfree : s'.link v = none) : v ∈ s'.unbound t :=
  (h.mem_unbound ht).mpr ⟨v, hv, by simp [unbound_of_free hfree]⟩

theorem Extends.resolve_eq_self (h : s.Extends s') {t : Ty} (ht : s.Grounded t)
    (hfree : ∀ v ∈ s.unbound t, s'.link v = none) : s'.resolve t = s.resolve t := by
  rw [h.resolve_eq ht]
  exact Ty.subst_eq_self fun v hv => resolve_of_free (hfree v hv)

theorem Extends.reaches (h : s.Extends s') {t : Ty} {v : Nat} (hv : s.Reaches t v) :
    s'.Reaches t v := by
  induction hv with
  | here v => exact .here v
  | link hlink _ ih => exact .link (h.link_eq hlink) ih
  | param _ ih => exact .param ih
  | ret _ ih => exact .ret ih

/-! ## Touched cells -/

/-- All of these are unbound cells of the store. -/
def Active (s : Store) (A : Set Nat) : Prop :=
  ∀ v ∈ A, v < s.size ∧ s.link v = none

/-- The store `s'` comes out of `s` by work on the unbound cells in `A` and on new cells. -/
structure Touches (s s' : Store) (A : Set Nat) : Prop where
  active : s.Active A
  size_le : s.size ≤ s'.size
  frame : ∀ v < s.size, v ∉ A → s'.cell v = s.cell v
  id_eq : ∀ v < s.size, s'.id v = s.id v
  level_le : ∀ v < s.size, s'.level v ≤ s.level v
  grounded : ∀ {t : Ty}, s.Grounded t → s'.Grounded t
  complete : ∀ {t : Ty}, s.Grounded t → (s.resolve t).Complete → (s'.resolve t).Complete
  /-- A touched cell leads to touched and new cells only. -/
  reach : ∀ v ∈ A, ∀ w ∈ s'.unbound (.var v), w ∈ A ∨ s.size ≤ w
  /-- What a touched cell leads to is not above it. -/
  level_reach : ∀ v ∈ A, ∀ w ∈ s'.unbound (.var v), s'.level w ≤ s.level v

variable {A B : Set Nat}

theorem active_empty : s.Active ∅ := by simp [Active]

theorem Active.grounded (hA : s.Active A) {v : Nat} (hv : v ∈ A) : s.Grounded (.var v) :=
  .free (hA v hv).1 (hA v hv).2

theorem Active.mem_unbound (hA : s.Active A) {v w : Nat} (hv : v ∈ A) :
    w ∈ s.unbound (.var v) ↔ w = v := by
  rw [unbound_of_free (hA v hv).2, List.mem_singleton]

theorem Touches.toExtends (h : s.Touches s' A) : s.Extends s' where
  link_eq {v t} hlink := by
    have hv : v ∉ A := fun hv => by simp [(h.active v hv).2] at hlink
    simpa [link, h.frame v (lt_size_of_link hlink) hv] using hlink
  grounded := h.grounded

/-- An unbound cell outside of the set is still there. -/
theorem Touches.free_of_not_mem (h : s.Touches s' A) {v : Nat} (hv : v < s.size) (hA : v ∉ A)
    (hfree : s.link v = none) : s'.link v = none := by
  simpa [link, h.frame v hv hA] using hfree

theorem Touches.resolve_eq_of_disjoint (h : s.Touches s' A) {t : Ty} (ht : s.Grounded t)
    (hA : ∀ v ∈ s.unbound t, v ∉ A) : s'.resolve t = s.resolve t :=
  h.toExtends.resolve_eq_self ht fun v hv => h.free_of_not_mem (ht.lt_size_of_mem_unbound hv)
    (hA v hv) (ht.link_of_mem_unbound hv)

/-- What an old type reaches it reached before, or it comes from a touched cell. -/
theorem Touches.mem_unbound_cases (h : s.Touches s' A) {t : Ty} (ht : s.Grounded t) {w : Nat}
    (hw : w ∈ s'.unbound t) :
    (w ∈ s.unbound t ∧ w ∉ A) ∨ ∃ v ∈ s.unbound t, v ∈ A ∧ w ∈ s'.unbound (.var v) := by
  obtain ⟨v, hv, hw⟩ := (h.toExtends.mem_unbound ht).mp hw
  by_cases hA : v ∈ A
  · exact .inr ⟨v, hv, hA, hw⟩
  · have hfree := h.free_of_not_mem (ht.lt_size_of_mem_unbound hv) hA (ht.link_of_mem_unbound hv)
    rw [unbound_of_free hfree, List.mem_singleton] at hw
    subst hw
    exact .inl ⟨hv, hA⟩

theorem Touches.refl (hA : s.Active A) : s.Touches s A where
  active := hA
  size_le := Nat.le_refl _
  frame _ _ _ := rfl
  id_eq _ _ := rfl
  level_le _ _ := Int.le_refl _
  grounded ht := ht
  complete _ hc := hc
  reach _ hv _ hw := .inl ((hA.mem_unbound hv).mp hw ▸ hv)
  level_reach _ hv _ hw := (hA.mem_unbound hv).mp hw ▸ Int.le_refl _

theorem Touches.mono (h : s.Touches s' A) (hAB : A ⊆ B) (hB : s.Active B) :
    s.Touches s' B where
  active := hB
  size_le := h.size_le
  frame v hv hnot := h.frame v hv fun hA => hnot (hAB hA)
  id_eq := h.id_eq
  level_le := h.level_le
  grounded := h.grounded
  complete := h.complete
  reach v hv w hw := by
    rcases h.mem_unbound_cases (hB.grounded hv) hw with ⟨hmem, -⟩ | ⟨u, -, hu, hw⟩
    · exact .inl ((hB.mem_unbound hv).mp hmem ▸ hv)
    · exact (h.reach u hu w hw).imp_left fun hA => hAB hA
  level_reach v hv w hw := by
    rcases h.mem_unbound_cases (hB.grounded hv) hw with ⟨hmem, -⟩ | ⟨u, hmem, hu, hw⟩
    · obtain rfl := (hB.mem_unbound hv).mp hmem
      exact h.level_le w (hB w hv).1
    · obtain rfl := (hB.mem_unbound hv).mp hmem
      exact h.level_reach u hu w hw

/-- Work on cells that were touched before, or are new since then, is more work on the same
cells. -/
theorem Touches.trans (h : s.Touches s₁ A) (h₁ : s₁.Touches s₂ B)
    (hB : ∀ v ∈ B, v ∈ A ∨ s.size ≤ v) : s.Touches s₂ A where
  active := h.active
  size_le := h.size_le.trans h₁.size_le
  frame v hv hA := by
    have hnot : v ∉ B := fun hvB => (hB v hvB).elim hA (Nat.not_le_of_lt hv)
    rw [h₁.frame v (hv.trans_le h.size_le) hnot, h.frame v hv hA]
  id_eq v hv := (h₁.id_eq v (hv.trans_le h.size_le)).trans (h.id_eq v hv)
  level_le v hv := (h₁.level_le v (hv.trans_le h.size_le)).trans (h.level_le v hv)
  grounded ht := h₁.grounded (h.grounded ht)
  complete ht hc := h₁.complete (h.grounded ht) (h.complete ht hc)
  reach v hv w hw := by
    have hg : s₁.Grounded (.var v) := h.grounded (h.active.grounded hv)
    rcases h₁.mem_unbound_cases hg hw with ⟨hmem, -⟩ | ⟨u, -, huB, hw⟩
    · exact h.reach v hv w hmem
    · rcases h₁.reach u huB w hw with hwB | hwB
      · exact hB w hwB
      · exact .inr (h.size_le.trans hwB)
  level_reach v hv w hw := by
    have hg : s₁.Grounded (.var v) := h.grounded (h.active.grounded hv)
    rcases h₁.mem_unbound_cases hg hw with ⟨hmem, -⟩ | ⟨u, hmem, huB, hw⟩
    · exact (h₁.level_le w (hg.lt_size_of_mem_unbound hmem)).trans (h.level_reach v hv w hmem)
    · exact (h₁.level_reach u huB w hw).trans (h.level_reach v hv u hmem)

theorem Touches.proper (h : s.Touches s' A) {t : Ty} (ht : s.Proper t) : s'.Proper t :=
  ⟨h.grounded ht.grounded, h.complete ht.grounded ht.complete⟩

/-! ## Why a level is low -/

/-- A touched or new cell that is unbound and below `level` stands behind a touched cell that was
as low from the start. -/
def Justified (s s' : Store) (A : Set Nat) (level : Int) : Prop :=
  ∀ w < s'.size, s'.link w = none → (w ∈ A ∨ s.size ≤ w) →
    level ≤ s'.level w ∨ ∃ v ∈ A, w ∈ s'.unbound (.var v) ∧ s.level v ≤ s'.level w

theorem Justified.refl {level : Int} : s.Justified s A level := by
  intro w hlt hfree hw
  rcases hw with hw | hw
  · exact .inr ⟨w, hw, by simp [unbound_of_free hfree], Int.le_refl _⟩
  · omega

theorem Justified.of_le {level level' : Int} (h : s.Justified s' A level) (hle : level' ≤ level) :
    s.Justified s' A level' := by
  intro w hlt hfree hw
  exact (h w hlt hfree hw).imp_left hle.trans

theorem Justified.mono {level : Int} (h : s.Justified s' A level) (ht : s.Touches s' A)
    (hAB : A ⊆ B) (hB : s.Active B) : s.Justified s' B level := by
  intro w hlt hfree hw
  by_cases hA : w ∈ A ∨ s.size ≤ w
  · rcases h w hlt hfree hA with hle | ⟨v, hv, hmem, hle⟩
    · exact .inl hle
    · exact .inr ⟨v, hAB hv, hmem, hle⟩
  · have hwB : w ∈ B := hw.resolve_right fun hsize => hA (.inr hsize)
    refine .inr ⟨w, hwB, by simp [unbound_of_free hfree], ?_⟩
    simp [Store.level, ht.frame w (hB w hwB).1 fun hwA => hA (.inl hwA)]

theorem Justified.trans {level : Int} (h : s.Justified s₁ A level) (ht : s.Touches s₁ A)
    (h₁ : s₁.Justified s₂ B level) (ht₁ : s₁.Touches s₂ B) (hB : ∀ v ∈ B, v ∈ A ∨ s.size ≤ v) :
    s.Justified s₂ A level := by
  -- a cell that is unbound in `s₁` and low is reached from `A` in `s₂` as well
  have back : ∀ v < s₁.size, s₁.link v = none → (v ∈ A ∨ s.size ≤ v) → ∀ w,
      w ∈ s₂.unbound (.var v) → s₁.level v ≤ s₂.level w →
      level ≤ s₂.level w ∨ ∃ u ∈ A, w ∈ s₂.unbound (.var u) ∧ s.level u ≤ s₂.level w := by
    intro v hv hfree hvA w hw hle
    rcases h v hv hfree hvA with hlow | ⟨u, hu, hmem, hule⟩
    · exact .inl (hlow.trans hle)
    · have hg : s₁.Grounded (.var u) := ht.grounded (ht.active.grounded hu)
      exact .inr ⟨u, hu, (ht₁.toExtends.mem_unbound hg).mpr ⟨v, hmem, hw⟩, hule.trans hle⟩
  intro w hlt hfree hw
  by_cases hwB : w ∈ B ∨ s₁.size ≤ w
  · rcases h₁ w hlt hfree hwB with hle | ⟨v, hv, hmem, hle⟩
    · exact .inl hle
    · exact back v (ht₁.active v hv).1 (ht₁.active v hv).2 (hB v hv) w hmem hle
  · have hlt₁ : w < s₁.size := Nat.lt_of_not_le fun hsize => hwB (.inr hsize)
    have hframe := ht₁.frame w hlt₁ fun hmem => hwB (.inl hmem)
    have hfree₁ : s₁.link w = none := ht₁.toExtends.free hfree
    refine back w hlt₁ hfree₁ hw w (by simp [unbound_of_free hfree]) ?_
    simp [Store.level, hframe]

/-! ## Allocation -/

theorem link_alloc (id : Int64) (lv : Int) (v : Nat) : (s.alloc id lv).link v = s.link v := by
  by_cases hv : v = s.size
  · subst hv
    rw [link_of_size_le (Nat.le_refl _)]
    simp [link]
  · simp [link, cell_alloc_of_ne s id lv hv]

theorem Grounded.congr {t : Ty} (ht : s.Grounded t) (hsize : s.size ≤ s'.size)
    (h : ∀ w, s.Reaches t w → s'.link w = s.link w) : s'.Grounded t := by
  induction ht with
  | unit => exact .unit
  | absent => exact .absent
  | @free v hv hnone => exact .free (hv.trans_le hsize) ((h v (.here v)).trans hnone)
  | @link v t hlink _ ih =>
      exact .link ((h v (.here v)).trans hlink) (ih fun w hw => h w (.link hlink hw))
  | arrow _ _ ihp ihr =>
      exact .arrow (ihp fun w hw => h w (.param hw)) (ihr fun w hw => h w (.ret hw))

theorem extends_of_link_eq (hsize : s.size ≤ s'.size) (h : ∀ v, s'.link v = s.link v) :
    s.Extends s' where
  link_eq hlink := (h _).trans hlink
  grounded ht := ht.congr hsize fun w _ => h w

theorem resolve_of_link_eq (hsize : s.size ≤ s'.size) (h : ∀ v, s'.link v = s.link v) {t : Ty}
    (ht : s.Grounded t) : s'.resolve t = s.resolve t :=
  (extends_of_link_eq hsize h).resolve_eq_self ht fun v hv =>
    (h v).trans (ht.link_of_mem_unbound hv)

/-- Lowering the levels of some unbound cells is work on them. -/
theorem touches_of_link_eq (hA : s.Active A) (hsize : s.size ≤ s'.size)
    (hlink : ∀ v, s'.link v = s.link v)
    (hid : ∀ v < s.size, s'.id v = s.id v) (hlevel : ∀ v < s.size, s'.level v ≤ s.level v)
    (hframe : ∀ v < s.size, v ∉ A → s'.cell v = s.cell v) : s.Touches s' A where
  active := hA
  size_le := hsize
  frame := hframe
  id_eq := hid
  level_le := hlevel
  grounded ht := (extends_of_link_eq hsize hlink).grounded ht
  complete ht hc := by rwa [resolve_of_link_eq hsize hlink ht]
  reach v hv w hw := by
    rw [unbound_of_free ((hlink v).trans (hA v hv).2), List.mem_singleton] at hw
    exact .inl (hw ▸ hv)
  level_reach v hv w hw := by
    rw [unbound_of_free ((hlink v).trans (hA v hv).2), List.mem_singleton] at hw
    exact hw ▸ hlevel v (hA v hv).1

/-! ## Lowering levels -/

theorem cell_lower (v w : Nat) (lv : Int) :
    (s.lower v lv).cell w =
      if v = w ∧ w < s.size then { s.cell w with level := min (s.level w) lv } else s.cell w := by
  by_cases hv : v = w
  · subst hv
    by_cases hlt : v < s.size
    · simp [lower, cell_modify_self s _ hlt, hlt, Store.level]
    · have hnone : s.cells[v]? = none := Array.getElem?_eq_none (Nat.le_of_not_lt hlt)
      simp [lower, modify, cell, hlt, Array.getElem?_modify, hnone]
  · simp [lower, cell_modify_of_ne s _ hv, hv]

@[simp]
theorem size_lower (v : Nat) (lv : Int) : (s.lower v lv).size = s.size := by
  simp [lower]

@[simp]
theorem size_lowerAll (vs : List Nat) (lv : Int) : (s.lowerAll vs lv).size = s.size := by
  induction vs generalizing s with
  | nil => rfl
  | cons v vs ih => simpa [lowerAll] using ih (s := s.lower v lv)

theorem cell_lowerAll (vs : List Nat) (lv : Int) (w : Nat) :
    (s.lowerAll vs lv).cell w =
      if w ∈ vs ∧ w < s.size then { s.cell w with level := min (s.level w) lv } else s.cell w := by
  induction vs generalizing s with
  | nil => simp [lowerAll]
  | cons v vs ih =>
      have hstep : s.lowerAll (v :: vs) lv = (s.lower v lv).lowerAll vs lv := rfl
      rw [hstep, ih, size_lower, Store.level, cell_lower]
      by_cases hlt : w < s.size
      · by_cases hv : v = w
        · by_cases hmem : w ∈ vs <;> simp [hv, hmem, hlt]
        · by_cases hmem : w ∈ vs <;> simp [hv, Ne.symm hv, hmem, hlt, Store.level]
      · simp [hlt]

theorem link_lowerAll (vs : List Nat) (lv : Int) (w : Nat) :
    (s.lowerAll vs lv).link w = s.link w := by
  rw [link, cell_lowerAll]
  split <;> rfl

theorem resolve_lowerAll (vs : List Nat) (lv : Int) (t : Ty) :
    (s.lowerAll vs lv).resolve t = s.resolve t :=
  resolve_congr (by simp) (link_lowerAll vs lv) t

end Store

end LetPoly
