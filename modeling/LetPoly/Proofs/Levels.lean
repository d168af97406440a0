import LetPoly.Proofs.Change
import LetPoly.Proofs.MostGeneral
import Mathlib.Order.Bounds.Basic

/-! # Levels after unification

Each link lowers the cells behind it to the level that the linked cell has by then. In the end every
unbound cell has the lowest of the levels that the cells leading to it had at the start, in whatever
order they were linked.
-/

namespace LetPoly

open Store

variable {s s' : Store} {a b : Ty} {c d : Nat}

/-- The cells that are unbound in the first store and lead to the cell in the second one. -/
def Store.sources (s s' : Store) (c : Nat) : Set Nat :=
  {d | d ∈ s.unlinked ∧ c ∈ s'.unbound (.var d)}

theorem Unified.level_le (h : Unified s s' a b) (hd : d ∈ s.sources s' c) :
    s'.level c ≤ s.level d :=
  (h.touches.mono h.touches.active active_unlinked).level_reach d hd.1 c hd.2

/-- An unbound cell leads to itself. -/
theorem Unified.mem_sources (h : Unified s s' a b) (hc : c ∈ s'.unlinked) :
    c ∈ s.sources s' c := by
  refine ⟨⟨h.size_eq ▸ hc.1, h.touches.toExtends.free hc.2⟩, ?_⟩
  simp [unbound_of_free hc.2]

/-- The level of a cell is that of some cell leading to it. -/
theorem Unified.exists_level_eq (h : Unified s s' a b) (hc : c ∈ s'.unlinked) :
    ∃ d ∈ s.sources s' c, s.level d = s'.level c := by
  have hjust := (h.justified (s'.level c + 1)).mono h.touches h.touches.active active_unlinked
  rcases hjust c hc.1 hc.2 (.inl (h.mem_sources hc).1) with hlow | ⟨d, hd, hmem, hle⟩
  · omega
  · exact ⟨d, ⟨hd, hmem⟩, Int.le_antisymm hle (h.level_le ⟨hd, hmem⟩)⟩

/-- After unification an unbound cell has the lowest level that the cells leading to it had
before. -/
theorem unify_level_isLeast (s : Store) (a b : Ty) (hacyclic : s.Acyclic) (hclosed : s.Closed)
    (ha : ∀ v ∈ a.vars, v < s.size) (hb : ∀ v ∈ b.vars, v < s.size)
    (hca : (s.resolve a).Complete) (hcb : (s.resolve b).Complete)
    (s' : Store) (hrun : unify a b s = .ok () s') (c : Nat) (hc : c ∈ s'.unlinked) :
    c ∈ s.sources s' c ∧ IsLeast (s.level '' s.sources s' c) (s'.level c) := by
  have hunified := unified_of_unify ⟨hacyclic.grounded hclosed ha, hca⟩
    ⟨hacyclic.grounded hclosed hb, hcb⟩ hrun
  refine ⟨hunified.mem_sources hc, hunified.exists_level_eq hc, ?_⟩
  rintro _ ⟨d, hd, rfl⟩
  exact hunified.level_le hd

/-- Three unbound cells, the first one below the others. -/
def stairStore : Store :=
  { cells := #[{ id := 0, level := 1 }, { id := 1, level := 3 }, { id := 2, level := 2 }] }

theorem stairStore_grounded : ∀ v < stairStore.size, stairStore.Grounded (.var v)
  | 0, _ => .free (by decide) rfl
  | 1, _ => .free (by decide) rfl
  | 2, _ => .free (by decide) rfl

theorem stairStore_closed : stairStore.Closed := by
  rintro v w ⟨t, hlink, hw⟩
  have hcells : ∀ v < 3, stairStore.link v = none := by decide
  rw [hcells v (lt_size_of_link hlink)] at hlink
  cases hlink

/-- The second cell is lowered to the first one before it is linked to the third, which takes the
level of the first one from it. -/
theorem unify_level_isLeast_stair :
    stairStore.Acyclic ∧ stairStore.Closed ∧
    ∃ s', unify (.arrow (.var 0) (.var 1)) (.arrow (.var 1) (.var 2)) stairStore = .ok () s' ∧
      2 ∈ s'.unlinked ∧ 0 ∈ stairStore.sources s' 2 ∧ 1 ∈ stairStore.sources s' 2 ∧
      IsLeast (stairStore.level '' stairStore.sources s' 2) 1 := by
  have hacyclic := acyclic_of_grounded stairStore_grounded
  have hrun : unify (.arrow (.var 0) (.var 1)) (.arrow (.var 1) (.var 2)) stairStore =
      .ok () (leaves (unify (.arrow (.var 0) (.var 1)) (.arrow (.var 1) (.var 2)) stairStore)) :=
    rfl
  have hfree : 2 ∈ (leaves (unify (.arrow (.var 0) (.var 1)) (.arrow (.var 1) (.var 2))
      stairStore)).unlinked := ⟨by decide, by decide⟩
  obtain ⟨-, hleast⟩ := unify_level_isLeast stairStore (.arrow (.var 0) (.var 1))
    (.arrow (.var 1) (.var 2)) hacyclic stairStore_closed (by decide) (by decide) (by decide)
    (by decide) _ hrun 2 hfree
  exact ⟨hacyclic, stairStore_closed, _, hrun, hfree, ⟨⟨by decide, by decide⟩, by decide⟩,
    ⟨⟨by decide, by decide⟩, by decide⟩, hleast⟩

end LetPoly
