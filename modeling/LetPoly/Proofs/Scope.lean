import LetPoly.Proofs.Typing

/-! # Scopes over a store

What a scope stands for in a store: every scheme is read with its links followed and its quantified
variables generic. The other variables are shared, and work on the store may change them.
-/

namespace LetPoly

open Store

variable {s s' : Store} {G : Scope} {x : String} {σ σ' : Scheme} {v : Nat} {A : Set Nat}

/-! ## Shared variables -/

/-- The scope gives the scheme to some name. -/
def Scope.Has (G : Scope) (σ : Scheme) : Prop :=
  ∃ x : String, G[x]? = some σ

theorem Scope.getElem?_insert (y : String) :
    (G.insert x σ)[y]? = if y = x then some σ else G[y]? := by
  rw [Std.TreeMap.getElem?_insert]
  by_cases hy : y = x
  · simp [hy]
  · simp [hy, Ne.symm hy]

theorem Scope.has_insert (h : Scope.Has (G.insert x σ) σ') : σ' = σ ∨ G.Has σ' := by
  obtain ⟨y, hy⟩ := h
  rw [getElem?_insert] at hy
  by_cases hyx : y = x
  · exact .inl (by simpa [hyx] using hy.symm)
  · exact .inr ⟨y, by simpa [hyx] using hy⟩

/-- The scheme leads to the variable, which is unbound and not quantified. -/
def Store.Free (s : Store) (σ : Scheme) (v : Nat) : Prop :=
  s.Reaches σ.body v ∧ s.link v = none ∧ σ.quantifies (s.id v) = false

/-- Some scheme of the scope has the variable free. -/
def Scope.Free (G : Scope) (s : Store) (v : Nat) : Prop :=
  ∃ σ, G.Has σ ∧ s.Free σ v

/-- The scheme leads to a variable that is free in the scope. -/
def Scope.Shares (G : Scope) (s : Store) (σ : Scheme) : Prop :=
  ∃ u, s.Reaches σ.body u ∧ G.Free s u

/-- All schemes of the scope have types that can be read off. -/
def Scope.Proper (G : Scope) (s : Store) : Prop :=
  ∀ σ, G.Has σ → s.Proper σ.body

theorem Store.free_iff (hσ : s.Grounded σ.body) :
    s.Free σ v ↔ v ∈ s.unbound σ.body ∧ σ.quantifies (s.id v) = false := by
  rw [Free, hσ.mem_unbound, and_assoc]

theorem Store.free_iff_not_mem (hσ : s.Grounded σ.body) :
    s.Free σ v ↔ v ∈ s.unbound σ.body ∧ s.id v ∉ σ.vars := by
  rw [free_iff hσ, Scheme.quantifies, List.contains_eq_mem, decide_eq_false_iff_not]

theorem Scope.Free.active (hG : G.Proper s) (h : G.Free s v) : v < s.size ∧ s.link v = none := by
  obtain ⟨σ, hσ, hv⟩ := h
  have hmem := ((free_iff (hG σ hσ).grounded).mp hv).1
  exact ⟨(hG σ hσ).grounded.lt_size_of_mem_unbound hmem, hv.2.1⟩

theorem Scope.free_insert (h : Scope.Free (G.insert x σ) s v) : s.Free σ v ∨ G.Free s v := by
  obtain ⟨σ', hσ', hv⟩ := h
  rcases has_insert hσ' with rfl | hσ'
  · exact .inl hv
  · exact .inr ⟨σ', hσ', hv⟩

theorem Scope.Proper.insert (hG : G.Proper s) (hσ : s.Proper σ.body) (x : String) :
    Scope.Proper (G.insert x σ) s := by
  intro σ' hσ'
  rcases has_insert hσ' with rfl | hσ'
  · exact hσ
  · exact hG σ' hσ'

theorem Scope.Proper.touches (hG : G.Proper s) (h : s.Touches s' A) : G.Proper s' :=
  fun σ hσ => h.proper (hG σ hσ)

/-- A free variable was free before, or a touched variable leads to it. -/
theorem Scope.Free.of_touches (hG : G.Proper s) (ht : s.Touches s' A) (h : G.Free s' v) :
    G.Free s v ∨ ∃ u ∈ A, v ∈ s'.unbound (.var u) := by
  obtain ⟨σ, hσ, hv⟩ := h
  have hg := (hG σ hσ).grounded
  obtain ⟨hmem, hq⟩ := (free_iff (ht.grounded hg)).mp hv
  rcases ht.mem_unbound_cases hg hmem with ⟨hmem, -⟩ | ⟨u, -, hu, hmem⟩
  · rw [ht.id_eq v (hg.lt_size_of_mem_unbound hmem)] at hq
    exact .inl ⟨σ, hσ, (free_iff hg).mpr ⟨hmem, hq⟩⟩
  · exact .inr ⟨u, hu, hmem⟩

/-- Work on the free variables of a scope makes none but new ones free. -/
theorem Scope.Free.of_touches_self (hG : G.Proper s) (ht : s.Touches s' {v | G.Free s v})
    (h : G.Free s' v) : G.Free s v ∨ s.size ≤ v := by
  rcases h.of_touches hG ht with hv | ⟨u, hu, hv⟩
  · exact .inl hv
  · exact ht.reach u hu v hv

/-! ## What a scope stands for -/

/-- The scheme with its links followed and its quantified variables generic. -/
def Store.poly (s : Store) (σ : Scheme) : Poly :=
  .close (fun v => σ.quantifies (s.id v)) (s.resolve σ.body)

/-- The assumptions that the schemes of a scope are in a store. -/
def Store.assumptions (s : Store) (G : Scope) : Assumptions := fun x =>
  G[x]?.map s.poly

theorem Store.poly_mono (t : Ty) : s.poly (.mono t) = .ofTy (s.resolve t) := by
  simp [poly, Poly.ofTy, Scheme.mono, Scheme.quantifies]

theorem Store.assumptions_insert :
    s.assumptions (G.insert x σ) = (s.assumptions G).insert x (s.poly σ) := by
  funext y
  rw [assumptions, Scope.getElem?_insert]
  by_cases hy : y = x <;> simp [Assumptions.insert, assumptions, hy]

theorem Store.free_of_free_assumptions (hG : G.Proper s) (h : (s.assumptions G).Free v) :
    G.Free s v := by
  obtain ⟨x, P, hx, hv⟩ := h
  obtain ⟨σ, hσ, rfl⟩ := Option.map_eq_some_iff.mp hx
  exact ⟨σ, ⟨x, hσ⟩, (free_iff (hG σ ⟨x, hσ⟩).grounded).mpr (Poly.mem_vars_close.mp hv)⟩

theorem Store.bounded_assumptions (hG : G.Proper s) : (s.assumptions G).Bounded :=
  ⟨s.size, fun _ hv => ((free_of_free_assumptions hG hv).active hG).1⟩

/-! ## Sealed schemes -/

/-- The scheme is generic in all its variables, and none of them is in the set. -/
structure Store.Seals (s : Store) (L : Set Nat) (σ : Scheme) : Prop where
  apart : ∀ v ∈ s.unbound σ.body, v ∉ L
  quantified : ∀ v ∈ s.unbound σ.body, σ.quantifies (s.id v) = true

section Seals

variable {L : Set Nat}

theorem Store.Seals.mono {L' : Set Nat} (h : s.Seals L σ) (hL : L' ⊆ L) : s.Seals L' σ :=
  ⟨fun v hv hmem => h.apart v hv (hL hmem), h.quantified⟩

theorem Store.Seals.resolve_eq (h : s.Seals L σ) (hσ : s.Grounded σ.body) (ht : s.Touches s' A)
    (hA : ∀ v ∈ A, v ∈ L) : s'.resolve σ.body = s.resolve σ.body :=
  ht.resolve_eq_of_disjoint hσ fun v hv hmem => h.apart v hv (hA v hmem)

theorem Store.Seals.unbound_eq (h : s.Seals L σ) (hσ : s.Grounded σ.body) (ht : s.Touches s' A)
    (hA : ∀ v ∈ A, v ∈ L) : s'.unbound σ.body = s.unbound σ.body :=
  congrArg Ty.vars (h.resolve_eq hσ ht hA)

/-- Work on cells of the set leaves a sealed scheme as it is. -/
theorem Store.Seals.touches (h : s.Seals L σ) (hσ : s.Grounded σ.body) (ht : s.Touches s' A)
    (hA : ∀ v ∈ A, v ∈ L) : s'.Seals L σ := by
  have hunbound := h.unbound_eq hσ ht hA
  refine ⟨hunbound ▸ h.apart, fun v hv => ?_⟩
  rw [hunbound] at hv
  rw [ht.id_eq v (hσ.lt_size_of_mem_unbound hv)]
  exact h.quantified v hv

theorem Store.Seals.not_free (h : s.Seals L σ) (hσ : s.Grounded σ.body) : ¬ s.Free σ v := by
  intro hv
  obtain ⟨hmem, hq⟩ := (free_iff hσ).mp hv
  simp [h.quantified v hmem] at hq

theorem Store.Seals.poly_eq (h : s.Seals L σ) (hσ : s.Grounded σ.body) (ht : s.Touches s' A)
    (hA : ∀ v ∈ A, v ∈ L) (θ : Nat → Ty) : s'.poly σ = (s.poly σ).subst θ := by
  have hsealed' := h.touches hσ ht hA
  have hclosed : ∀ v ∈ (s.poly σ).vars, θ v = .var v := fun v hv =>
    absurd ((free_iff hσ).mpr (Poly.mem_vars_close.mp hv)) (h.not_free hσ)
  rw [Poly.subst_congr hclosed, poly, poly, ← Poly.close_subst, Ty.subst_var,
    h.resolve_eq hσ ht hA]
  · intro v hv _
    refine ⟨rfl, hsealed'.quantified v ?_⟩
    rwa [h.unbound_eq hσ ht hA]
  · intro v hv hq
    simp [h.quantified v hv] at hq

end Seals

/-! ## What a scope becomes -/

/-- The type that a variable stands for, where there is one. -/
def Store.image (s : Store) (v : Nat) : Ty :=
  if (s.resolve (.var v)).Complete then s.resolve (.var v) else .var v

theorem Store.complete_image (v : Nat) : (s.image v).Complete := by
  unfold image
  split
  · assumption
  · trivial

theorem Store.Touches.image_eq (ht : s.Touches s' A) {t : Ty} (hg : s.Grounded t)
    (hv : v ∈ s.unbound t) : s'.image v = s'.resolve (.var v) :=
  if_pos (ht.proper (hg.proper_of_mem_unbound hv)).complete

theorem Store.resolve_eq_subst_image (ht : s.Touches s' A) {t : Ty} (hg : s.Grounded t) :
    s'.resolve t = (s.resolve t).subst s'.image := by
  rw [ht.toExtends.resolve_eq hg]
  exact Ty.subst_congr fun v hv => (ht.image_eq hg hv).symm

/-- Work on variables that a scheme does not quantify changes its type by substitution. -/
theorem Store.poly_eq_subst_image (ht : s.Touches s' A) (hσ : s.Proper σ.body)
    (hq : ∀ v < s'.size, (v ∈ A ∨ s.size ≤ v) → σ.quantifies (s'.id v) = false) :
    s'.poly σ = (s.poly σ).subst s'.image := by
  have hσ := hσ.grounded
  rw [poly, poly, resolve_eq_subst_image ht hσ]
  refine Poly.close_subst (fun v hv hgen => ?_) fun v hv hfree w hw => ?_
  · have hlt := hσ.lt_size_of_mem_unbound hv
    rw [← ht.id_eq v hlt] at hgen
    have hA : v ∉ A := fun hA => by simp [hq v (hlt.trans_le ht.size_le) (.inl hA)] at hgen
    have hnone := ht.free_of_not_mem hlt hA (hσ.link_of_mem_unbound hv)
    exact ⟨(ht.image_eq hσ hv).trans (resolve_of_free hnone), hgen⟩
  · have hlt := hσ.lt_size_of_mem_unbound hv
    have hnone := hσ.link_of_mem_unbound hv
    rw [ht.image_eq hσ hv] at hw
    have hg := ht.grounded (Grounded.free hlt hnone)
    by_cases hA : v ∈ A
    · exact hq w (hg.lt_size_of_mem_unbound hw) (ht.reach v hA w hw)
    · have hw : w ∈ s'.unbound (.var v) := hw
      rw [unbound_of_free (ht.free_of_not_mem hlt hA hnone), List.mem_singleton] at hw
      rwa [hw, ht.id_eq v hlt]

theorem Store.assumptions_eq_subst {θ : Nat → Ty}
    (h : ∀ σ, G.Has σ → s'.poly σ = (s.poly σ).subst θ) :
    s'.assumptions G = (s.assumptions G).subst θ := by
  funext x
  cases hx : G[x]? with
  | none => simp [assumptions, Assumptions.subst, hx]
  | some σ => simpa [assumptions, Assumptions.subst, hx] using h σ ⟨x, hx⟩

end LetPoly
