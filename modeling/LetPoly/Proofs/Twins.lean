import LetPoly.Proofs.Levels
import LetPoly.Proofs.Pairing

/-! # Stores that solve the same equations

Two most general solutions of the same equations may link their cells in different directions. They
still identify the same cells and give each class of identified cells one type and one level.
-/

namespace LetPoly

open Store

variable {s s₁ s₂ : Store} {a a' b b' t : Ty} {v : Nat}

/-! ## Classes of cells -/

/-- The unbound cell that stands for a cell, if there is one. -/
def Store.choice (s : Store) (v : Nat) : Nat :=
  match s.resolve (.var v) with
  | .var w => w
  | _ => v

/-- What stands in the second store is what stands in the first one, with the cells that are unbound
there read in the second. -/
def Store.Specializes (s s₁ s₂ : Store) : Prop :=
  ∀ t, s.Grounded t → s₂.resolve t = (s₁.resolve t).subst fun v => s₂.resolve (.var v)

section Choices

variable (h : s.Specializes s₂ s₁) (hv : s.Grounded (.var v)) (hfree : s₁.link v = none)

include h hv hfree

/-- An unbound cell of the special store stands for one of the general store. -/
theorem resolve_eq_choice : s₂.resolve (.var v) = .var (s₂.choice v) := by
  have hback := h (.var v) hv
  rw [resolve_of_free hfree] at hback
  unfold choice
  cases heq : s₂.resolve (.var v) with
  | var w => rfl
  | unit | absent | arrow => simp [heq, Ty.subst] at hback

theorem resolve_choice_eq : s₁.resolve (.var (s₂.choice v)) = .var v := by
  have hback := h (.var v) hv
  rw [resolve_of_free hfree, resolve_eq_choice h hv hfree] at hback
  exact hback.symm

theorem choice_choice : s₁.choice (s₂.choice v) = v := by
  rw [choice, resolve_choice_eq h hv hfree]

end Choices

/-- The stores identify the same cells. They give each cell the same type, up to the choice of one
out of the unbound cells that are identified, and they give the chosen ones the same level. -/
structure Store.SameClasses (s₁ s₂ : Store) : Prop where
  size_eq : s₂.size = s₁.size
  identified : ∀ v < s₁.size, ∀ w < s₁.size,
    s₁.resolve (.var v) = s₁.resolve (.var w) ↔ s₂.resolve (.var v) = s₂.resolve (.var w)
  chosen : Set.BijOn s₂.choice s₁.unlinked s₂.unlinked
  stands : ∀ v ∈ s₁.unlinked, s₁.resolve (.var (s₂.choice v)) = .var v
  resolve_eq : ∀ v < s₁.size, s₂.resolve (.var v) = (s₁.resolve (.var v)).rename s₂.choice
  level_eq : ∀ v ∈ s₁.unlinked, s₂.level (s₂.choice v) = s₁.level v

/-! ## Twins -/

/-- Stores over the same cells that are special cases of each other. Cells that stand for each other
have the same level. -/
structure Store.Twin (s₁ s₂ : Store) : Prop where
  size_eq : s₂.size = s₁.size
  grounded : ∀ v < s₁.size, s₁.Grounded (.var v)
  grounded' : ∀ v < s₂.size, s₂.Grounded (.var v)
  specializes : s₁.Specializes s₁ s₂
  specializes' : s₂.Specializes s₂ s₁
  level_eq : ∀ v < s₁.size, ∀ w w', s₁.resolve (.var v) = .var w → s₂.resolve (.var v) = .var w' →
    s₂.level w' = s₁.level w

theorem Store.Grounded.lt_size (ht : s.Grounded t) (hv : v ∈ t.vars) : v < s.size := by
  cases ht.of_reaches (reaches_of_mem_vars hv) with
  | free hlt _ => exact hlt
  | link hlink _ => exact lt_size_of_link hlink

theorem Store.specializes_refl : s.Specializes s s := by
  intro t ht
  exact (Ty.subst_eq_self fun v hv => resolve_of_free (ht.link_of_mem_unbound hv)).symm

namespace Store.Twin

theorem refl (hs : ∀ v < s.size, s.Grounded (.var v)) : s.Twin s where
  size_eq := rfl
  grounded := hs
  grounded' := hs
  specializes := specializes_refl
  specializes' := specializes_refl
  level_eq v hv w w' hw hw' := by
    rw [hw] at hw'
    cases hw'
    rfl

theorem symm (h : s₁.Twin s₂) : s₂.Twin s₁ where
  size_eq := h.size_eq.symm
  grounded := h.grounded'
  grounded' := h.grounded
  specializes := h.specializes'
  specializes' := h.specializes
  level_eq v hv w w' hw hw' := (h.level_eq v (h.size_eq ▸ hv) w' w hw' hw).symm

theorem grounded_of (h : s₁.Twin s₂) (ht : s₁.Grounded t) : s₂.Grounded t :=
  grounded_of_vars fun v hv => h.grounded' v (h.size_eq ▸ ht.lt_size hv)

/-! ### The same classes -/

theorem resolve_of_unlinked (h : s₁.Twin s₂) (hv : v ∈ s₁.unlinked) :
    s₂.resolve (.var v) = .var (s₂.choice v) :=
  resolve_eq_choice h.specializes' (h.grounded' v (h.size_eq ▸ hv.1)) hv.2

theorem choice_mem (h : s₁.Twin s₂) (hv : v ∈ s₁.unlinked) : s₂.choice v ∈ s₂.unlinked := by
  have hmem : s₂.choice v ∈ s₂.unbound (.var v) := by
    simp [unbound, h.resolve_of_unlinked hv, Ty.vars]
  have hg := h.grounded' v (h.size_eq ▸ hv.1)
  exact ⟨hg.lt_size_of_mem_unbound hmem, hg.link_of_mem_unbound hmem⟩

theorem choice_choice (h : s₁.Twin s₂) (hv : v ∈ s₁.unlinked) : s₁.choice (s₂.choice v) = v :=
  LetPoly.choice_choice h.specializes' (h.grounded' v (h.size_eq ▸ hv.1)) hv.2

theorem resolve_rename (h : s₁.Twin s₂) (ht : s₁.Grounded t) :
    s₂.resolve t = (s₁.resolve t).rename s₂.choice := by
  rw [h.specializes t ht, Ty.rename]
  apply Ty.subst_congr
  intro v hv
  exact h.resolve_of_unlinked ⟨ht.lt_size_of_mem_unbound hv, ht.link_of_mem_unbound hv⟩

theorem sameClasses (h : s₁.Twin s₂) : s₁.SameClasses s₂ where
  size_eq := h.size_eq
  identified v hv w hw := by
    constructor
    · intro heq
      rw [h.specializes _ (h.grounded v hv), h.specializes _ (h.grounded w hw), heq]
    · intro heq
      have hv' := h.grounded' v (h.size_eq ▸ hv)
      have hw' := h.grounded' w (h.size_eq ▸ hw)
      rw [h.specializes' _ hv', h.specializes' _ hw', heq]
  chosen := by
    refine ⟨fun v hv => h.choice_mem hv, fun v hv w hw heq => ?_, fun w hw => ?_⟩
    · rw [← h.choice_choice hv, heq, h.choice_choice hw]
    · exact ⟨s₁.choice w, h.symm.choice_mem hw, h.symm.choice_choice hw⟩
  stands v hv := resolve_choice_eq h.specializes' (h.grounded' v (h.size_eq ▸ hv.1)) hv.2
  resolve_eq v hv := h.resolve_rename (h.grounded v hv)
  level_eq v hv := h.level_eq v hv.1 v _ (resolve_of_free hv.2) (h.resolve_of_unlinked hv)

/-! ### Twins that are unified -/

variable {s₁' s₂' : Store}

/-- What becomes of the second store is still a special case of the first one. -/
theorem resolve_eq (h : s₁.Twin s₂) (hext : s₂.Extends s₂') (ht : s₁.Grounded t) :
    s₂'.resolve t = (s₁.resolve t).subst fun v => s₂'.resolve (.var v) := by
  rw [hext.resolve_eq (h.grounded_of ht), h.specializes t ht, Ty.subst_subst]
  apply Ty.subst_congr
  intro v hv
  have hlt : v < s₂.size := h.size_eq ▸ ht.lt_size_of_mem_unbound hv
  exact (hext.resolve_eq (h.grounded' v hlt)).symm

/-- If one store solves an equation in the most general way and the other one solves it too, the
other one becomes a special case. -/
theorem specializes_unified (h : s₁.Twin s₂) (h₁ : Unified s₁ s₁' a b) (hext : s₂.Extends s₂')
    (ha : s₁.Grounded a) (hb : s₁.Grounded b) (hsolves : s₂'.resolve a = s₂'.resolve b) :
    s₁'.Specializes s₁' s₂' := by
  intro t ht
  have ht₁ : s₁.Grounded t := grounded_of_vars fun v hv =>
    h.grounded v (h₁.size_eq ▸ ht.lt_size hv)
  have hequal : (s₁.resolve a).subst (fun v => s₂'.resolve (.var v)) =
      (s₁.resolve b).subst fun v => s₂'.resolve (.var v) := by
    rw [← h.resolve_eq hext ha, ← h.resolve_eq hext hb, hsolves]
  rw [h₁.general _ hequal t ht₁]
  exact h.resolve_eq hext ht₁

/-- The level of a cell comes from some cell before. This cell leads to what the second store has in
its place as well, which is therefore not above it. -/
theorem level_le_unified (h : s₁.Twin s₂) (h₁ : Unified s₁ s₁' a b) (h₂ : Unified s₂ s₂' a' b')
    (hspecial : s₁'.Specializes s₁' s₂') {w w' : Nat} (hv : v < s₁.size)
    (hw : s₁'.resolve (.var v) = .var w) (hw' : s₂'.resolve (.var v) = .var w') :
    s₂'.level w' ≤ s₁'.level w := by
  have hg : s₁'.Grounded (.var v) := h₁.touches.grounded (h.grounded v hv)
  have hmem : w ∈ s₁'.unbound (.var v) := by simp [unbound, hw, Ty.vars]
  obtain ⟨u, ⟨hu, hwu⟩, hlevel⟩ :=
    h₁.exists_level_eq ⟨hg.lt_size_of_mem_unbound hmem, hg.link_of_mem_unbound hmem⟩
  have hwimage : s₂'.resolve (.var w) = .var w' := by
    rw [← hw', hspecial _ hg, hw, Ty.subst]
  have huimage : s₂'.resolve (.var u) = s₂'.resolve (.var (s₂.choice u)) := by
    rw [h₂.touches.toExtends.resolve_eq (h.grounded' u (h.size_eq ▸ hu.1)),
      h.resolve_of_unlinked hu, Ty.subst]
  have hleads : w' ∈ s₂'.unbound (.var (s₂.choice u)) := by
    rw [unbound, ← huimage, hspecial _ (h₁.touches.grounded (h.grounded u hu.1)), Ty.vars_subst]
    exact List.mem_flatMap.mpr ⟨w, hwu, by simp [hwimage, Ty.vars]⟩
  calc s₂'.level w' ≤ s₂.level (s₂.choice u) := h₂.level_le ⟨h.choice_mem hu, hleads⟩
    _ = s₁.level u := h.sameClasses.level_eq u hu
    _ = s₁'.level w := hlevel

/-- Twins stay twins if each of them solves an equation in the most general way and solves that of
the other one too. -/
theorem unified (h : s₁.Twin s₂) (h₁ : Unified s₁ s₁' a b) (h₂ : Unified s₂ s₂' a' b')
    (ha : s₁.Grounded a) (hb : s₁.Grounded b) (ha' : s₂.Grounded a') (hb' : s₂.Grounded b')
    (hsolves : s₂'.resolve a = s₂'.resolve b) (hsolves' : s₁'.resolve a' = s₁'.resolve b') :
    s₁'.Twin s₂' := by
  have hspecial := h.specializes_unified h₁ h₂.touches.toExtends ha hb hsolves
  have hspecial' := h.symm.specializes_unified h₂ h₁.touches.toExtends ha' hb' hsolves'
  have hsize : s₂'.size = s₁'.size := by rw [h₂.size_eq, h.size_eq, h₁.size_eq]
  refine ⟨hsize, fun v hv => ?_, fun v hv => ?_, hspecial, hspecial', fun v hv w w' hw hw' => ?_⟩
  · exact h₁.touches.grounded (h.grounded v (h₁.size_eq ▸ hv))
  · exact h₂.touches.grounded (h.grounded' v (h₂.size_eq ▸ hv))
  · have hv₁ : v < s₁.size := h₁.size_eq ▸ hv
    apply Int.le_antisymm
    · exact h.level_le_unified h₁ h₂ hspecial hv₁ hw hw'
    · exact h.symm.level_le_unified h₂ h₁ hspecial' (h.size_eq ▸ hv₁) hw' hw

end Store.Twin

end LetPoly
