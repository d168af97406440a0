import LetPoly.Proofs.Twins

/-! # Lists of equations

Unifying one pair of types after another amounts to unifying two function types that collect all of
them. Nothing but the set of its solutions then matters of a list of equations, so neither their
order nor their sides do.
-/

namespace LetPoly

open Store

variable {s s₁ : Store} {es es' : List (Ty × Ty)}

/-- Unify the two sides of each equation in turn, and stop at the first failure. -/
def unifyAll : List (Ty × Ty) → UnifyM Unit
  | [] => pure ()
  | (a, b) :: es => do
    unify a b
    unifyAll es

/-! ## Equations as one -/

/-- The left sides of the equations as parameters of a function type. -/
def lefts (es : List (Ty × Ty)) : Ty :=
  es.foldr (fun e t => .arrow e.1 t) .unit

/-- The right sides of the equations as parameters of a function type. -/
def rights (es : List (Ty × Ty)) : Ty :=
  es.foldr (fun e t => .arrow e.2 t) .unit

/-- Both sides of each equation can be read off. -/
def Store.Readable (s : Store) (es : List (Ty × Ty)) : Prop :=
  ∀ e ∈ es, s.Proper e.1 ∧ s.Proper e.2

theorem readable_cons {e : Ty × Ty} :
    s.Readable (e :: es) ↔ (s.Proper e.1 ∧ s.Proper e.2) ∧ s.Readable es :=
  List.forall_mem_cons

theorem Store.Readable.touches {A : Set Nat} (h : s.Readable es) (ht : s.Touches s₁ A) :
    s₁.Readable es :=
  fun e he => ⟨ht.proper (h e he).1, ht.proper (h e he).2⟩

theorem Store.Readable.lefts (h : s.Readable es) : s.Grounded (lefts es) := by
  induction es with
  | nil => exact .unit
  | cons e es ih =>
      obtain ⟨he, hes⟩ := readable_cons.mp h
      exact .arrow he.1.grounded (ih hes)

theorem Store.Readable.rights (h : s.Readable es) : s.Grounded (rights es) := by
  induction es with
  | nil => exact .unit
  | cons e es ih =>
      obtain ⟨he, hes⟩ := readable_cons.mp h
      exact .arrow he.2.grounded (ih hes)

theorem unifyAll_outcome (h : s.Readable es) :
    UnifyOutcome s (lefts es) (rights es) (unifyAll es s) := by
  induction es generalizing s with
  | nil => exact .ok (unified_refl .unit .unit rfl)
  | cons e es ih =>
      obtain ⟨⟨ha, hb⟩, hes⟩ := readable_cons.mp h
      apply UnifyOutcome.arrow ha.grounded hes.lefts hb.grounded hes.rights (unify_outcome ha hb)
      intro s₁ h₁
      exact ih (hes.touches h₁.touches)

/-- The substitution makes the two sides of each equation equal. -/
def Store.Solves (s : Store) (θ : Nat → Ty) (es : List (Ty × Ty)) : Prop :=
  ∀ e ∈ es, (s.resolve e.1).subst θ = (s.resolve e.2).subst θ

theorem solves_iff {θ : Nat → Ty} :
    s.Solves θ es ↔ (s.resolve (lefts es)).subst θ = (s.resolve (rights es)).subst θ := by
  induction es with
  | nil => simp [Solves, lefts, rights]
  | cons e es ih =>
      have hcons : s.Solves θ (e :: es) ↔
          (s.resolve e.1).subst θ = (s.resolve e.2).subst θ ∧ s.Solves θ es :=
        List.forall_mem_cons
      rw [hcons, ih]
      simp [lefts, rights, Ty.subst]

/-! ## Rearranged equations -/

/-- The second list comes out of the first one by a new order of the equations, by an exchange of
the sides of some, and by repetition of some. -/
inductive Rearranged : List (Ty × Ty) → List (Ty × Ty) → Prop where
  | perm {es es' : List (Ty × Ty)} (h : es.Perm es') : Rearranged es es'
  | flip (es es' : List (Ty × Ty)) (a b : Ty) :
      Rearranged (es ++ (a, b) :: es') (es ++ (b, a) :: es')
  | again {es : List (Ty × Ty)} {e : Ty × Ty} (h : e ∈ es) : Rearranged es (e :: es)
  | trans {es es' es'' : List (Ty × Ty)} (h : Rearranged es es') (h' : Rearranged es' es'') :
      Rearranged es es''

/-- A property that does not depend on sides carries over to a rearranged list and back. -/
theorem Rearranged.forall_iff (h : Rearranged es es') {P : Ty × Ty → Prop}
    (hP : ∀ e, P e.swap ↔ P e) : (∀ e ∈ es, P e) ↔ ∀ e ∈ es', P e := by
  induction h with
  | perm h => simp only [h.mem_iff]
  | flip es es' a b =>
      have hab : P (a, b) ↔ P (b, a) := hP (b, a)
      simp only [List.forall_mem_append, List.forall_mem_cons, hab]
  | @again es e he =>
      simp only [List.forall_mem_cons]
      exact ⟨fun h => ⟨h e he, h⟩, fun h => h.2⟩
  | trans _ _ ih ih' => exact ih.trans ih'

theorem Rearranged.solves_iff (h : Rearranged es es') (θ : Nat → Ty) :
    s.Solves θ es ↔ s.Solves θ es' :=
  h.forall_iff fun _ => eq_comm

/-! ## Order independence -/

/-- A later store solves the equations if it makes the function types equal that collect them. -/
theorem solves_iff_resolve_eq (hes : s.Readable es) (hext : s.Extends s₁) :
    s.Solves (fun v => s₁.resolve (.var v)) es ↔
      s₁.resolve (lefts es) = s₁.resolve (rights es) := by
  rw [solves_iff, ← hext.resolve_eq hes.lefts, ← hext.resolve_eq hes.rights]

/-- Of two lists of equations with the same solutions, either both can be solved or none. The
stores that solve them identify the same cells. -/
theorem unifyAll_agree (hs : ∀ v < s.size, s.Grounded (.var v)) (hes : s.Readable es)
    (hes' : s.Readable es') (h : ∀ θ, s.Solves θ es ↔ s.Solves θ es') :
    ((∃ f s₁, unifyAll es s = .error (.error f) s₁) ∧
      ∃ f s₂, unifyAll es' s = .error (.error f) s₂) ∨
    ∃ s₁ s₂, unifyAll es s = .ok () s₁ ∧ unifyAll es' s = .ok () s₂ ∧ s₁.SameClasses s₂ := by
  have hout := unifyAll_outcome hes
  have hout' := unifyAll_outcome hes'
  generalize unifyAll es s = result at hout
  generalize unifyAll es' s = result' at hout'
  cases hout with
  | @ok s₁ h₁ =>
      have hsolved := (solves_iff_resolve_eq hes h₁.touches.toExtends).mpr h₁.equal
      have hsolves := (solves_iff_resolve_eq hes' h₁.touches.toExtends).mp ((h _).mp hsolved)
      cases hout' with
      | @ok s₂ h₂ =>
          have hsolved' := (solves_iff_resolve_eq hes' h₂.touches.toExtends).mpr h₂.equal
          have hsolves' := (solves_iff_resolve_eq hes h₂.touches.toExtends).mp ((h _).mpr hsolved')
          exact .inr ⟨s₁, s₂, rfl, rfl, ((Twin.refl hs).unified h₁ h₂ hes.lefts hes.rights
            hes'.lefts hes'.rights hsolves' hsolves).sameClasses⟩
      | error h₂ => exact absurd (solves_iff.mp ((h _).mp hsolved)) (h₂.ne _)
  | @error s₁ f h₁ =>
      cases hout' with
      | @ok s₂ h₂ =>
          have hsolved' := (solves_iff_resolve_eq hes' h₂.touches.toExtends).mpr h₂.equal
          exact absurd (solves_iff.mp ((h _).mpr hsolved')) (h₁.ne _)
      | @error s₂ f' h₂ => exact .inl ⟨⟨f, s₁, rfl⟩, f', s₂, rfl⟩

/-- Whether equations are solved one by one as they stand or rearranged, both fail or both succeed.
If they succeed, they have identified the same cells, at the same levels. -/
theorem unifyAll_order_independent (s : Store) (hacyclic : s.Acyclic) (hclosed : s.Closed)
    (es es' : List (Ty × Ty)) (h : Rearranged es es')
    (hvars : ∀ e ∈ es, ∀ v ∈ e.1.vars ++ e.2.vars, v < s.size)
    (hcomplete : ∀ e ∈ es, (s.resolve e.1).Complete ∧ (s.resolve e.2).Complete) :
    ((∃ f s₁, unifyAll es s = .error (.error f) s₁) ∧
      ∃ f s₂, unifyAll es' s = .error (.error f) s₂) ∨
    ∃ s₁ s₂, unifyAll es s = .ok () s₁ ∧ unifyAll es' s = .ok () s₂ ∧ s₁.SameClasses s₂ := by
  have hcells : ∀ v < s.size, s.Grounded (.var v) := fun v hv =>
    hacyclic.grounded hclosed (by simpa [Ty.vars] using hv)
  have hes : s.Readable es := by
    intro e he
    obtain ⟨hleft, hright⟩ := List.forall_mem_append.mp (hvars e he)
    exact ⟨⟨hacyclic.grounded hclosed hleft, (hcomplete e he).1⟩,
      hacyclic.grounded hclosed hright, (hcomplete e he).2⟩
  have hes' : s.Readable es' := (h.forall_iff fun _ => and_comm).mp hes
  exact unifyAll_agree hcells hes hes' h.solves_iff

/-- The sides decide which of two cells is linked to the other. The lower level stays either way. -/
theorem unifyAll_order_independent_chain :
    chainStore.Acyclic ∧ chainStore.Closed ∧
    Rearranged [(.var 1, .var 2)] [(.var 2, .var 1), (.var 2, .var 1)] ∧
    ∃ s₁ s₂, unifyAll [(.var 1, .var 2)] chainStore = .ok () s₁ ∧
      unifyAll [(.var 2, .var 1), (.var 2, .var 1)] chainStore = .ok () s₂ ∧
      s₁.SameClasses s₂ ∧ s₁.link 0 = some (.var 2) ∧ s₂.link 2 = some (.var 0) ∧
      s₁.level 2 = 1 ∧ s₂.level 0 = 1 := by
  have hacyclic := acyclic_of_grounded chainStore_grounded
  have hflip : Rearranged [(.var 1, .var 2)] [(.var 2, .var 1), (.var 2, .var 1)] :=
    .trans (.flip [] [] (.var 1) (.var 2)) (.again (by simp))
  refine ⟨hacyclic, chainStore_closed, hflip, ?_⟩
  rcases unifyAll_order_independent chainStore hacyclic chainStore_closed _ _ hflip (by decide)
    (by decide) with ⟨⟨f, s₁, hfail⟩, -⟩ | ⟨s₁, s₂, h₁, h₂, hsame⟩
  · cases hfail
  · refine ⟨s₁, s₂, h₁, h₂, hsame, ?_⟩
    cases h₁
    cases h₂
    decide

end LetPoly
