import LetPoly.Proofs.Binding

/-! # Substitution for names

Expressions are put in the place of names. A binder that would bind a name of such an expression
gets another name, so none is captured. Under the typing rules an expression has the same types
before and after, if every name had the types of what is put in its place.
-/

namespace LetPoly

variable {Γ Γ' : Assumptions} {e e' : Expr} {τ : Ty} {P : Poly} {x y z : String}

/-! ## Names out of the way -/

/-- The name, or a longer one if it is among those to avoid. -/
def freshName (avoid : List String) (x : String) : String :=
  if x ∈ avoid then avoid.foldl (· ++ ·) x ++ "'" else x

theorem length_le_foldl_append (names : List String) (x : String) :
    x.length ≤ (names.foldl (· ++ ·) x).length := by
  induction names generalizing x with
  | nil => exact Nat.le_refl _
  | cons y names ih =>
      have hlength := ih (x ++ y)
      rw [String.length_append] at hlength
      rw [List.foldl_cons]
      omega

theorem length_le_foldl_append_of_mem {names : List String} (hy : y ∈ names) (x : String) :
    y.length ≤ (names.foldl (· ++ ·) x).length := by
  induction names generalizing x with
  | nil => cases hy
  | cons z names ih =>
      rw [List.foldl_cons]
      rcases List.mem_cons.mp hy with rfl | hy
      · have hlength := length_le_foldl_append names (x ++ y)
        rw [String.length_append] at hlength
        omega
      · exact ih hy (x ++ z)

theorem freshName_not_mem (avoid : List String) (x : String) : freshName avoid x ∉ avoid := by
  unfold freshName
  split
  · intro hmem
    have hlength := length_le_foldl_append_of_mem hmem x
    rw [String.length_append] at hlength
    have : ("'" : String).length = 1 := rfl
    omega
  · assumption

/-! ## Substitution -/

namespace Expr

/-- The name for a binder when expressions are put in the place of the names in its body. -/
def rebind (ρ : String → Expr) (x : String) (body : Expr) : String :=
  freshName ((body.freeNames.filter (· ≠ x)).flatMap fun y => (ρ y).freeNames) x

/-- Put expressions in the place of names. -/
def substAll (ρ : String → Expr) : Expr → Expr
  | .unit => .unit
  | .var x => ρ x
  | .lam x body =>
    let y := rebind ρ x body
    .lam y (body.substAll (Function.update ρ x (.var y)))
  | .call f a => .call (f.substAll ρ) (a.substAll ρ)
  | .letIn x value body =>
    let y := rebind ρ x body
    .letIn y (value.substAll ρ) (body.substAll (Function.update ρ x (.var y)))
  | .absent => .absent
  | .foreign form => .foreign form

/-- Put an expression in the place of a name where no binder binds the name. -/
def subst (body : Expr) (x : String) (value : Expr) : Expr :=
  body.substAll (Function.update .var x value)

variable {ρ : String → Expr}

theorem rebind_not_mem (hy : y ∈ e.freeNames) (hyx : y ≠ x) :
    rebind ρ x e ∉ (ρ y).freeNames := by
  intro hmem
  refine freshName_not_mem _ x (List.mem_flatMap.mpr ⟨y, ?_, hmem⟩)
  exact List.mem_filter.mpr ⟨hy, by simpa using hyx⟩

/-- What a binder leaves free of the substituted body is free in what was put in the place of the
other names. -/
theorem mem_freeNames_update {z : String} :
    (∃ y ∈ e.freeNames, z ∈ (Function.update ρ x (.var (rebind ρ x e)) y).freeNames) ∧
        z ≠ rebind ρ x e ↔
      ∃ y ∈ e.freeNames.filter (· ≠ x), z ∈ (ρ y).freeNames := by
  constructor
  · rintro ⟨⟨y, hy, hz⟩, hne⟩
    by_cases hyx : y = x
    · rw [hyx, Function.update_self] at hz
      exact absurd (List.mem_singleton.mp hz) hne
    · rw [Function.update_of_ne hyx] at hz
      exact ⟨y, List.mem_filter.mpr ⟨hy, by simpa using hyx⟩, hz⟩
  · rintro ⟨y, hy, hz⟩
    obtain ⟨hy, hyx⟩ := List.mem_filter.mp hy
    have hyx : y ≠ x := by simpa using hyx
    refine ⟨⟨y, hy, by rwa [Function.update_of_ne hyx]⟩, fun heq => ?_⟩
    exact rebind_not_mem hy hyx (heq ▸ hz)

/-- No name is captured: the free names are those of the expressions that were put in the place of
free names. -/
theorem mem_freeNames_substAll :
    z ∈ (e.substAll ρ).freeNames ↔ ∃ y ∈ e.freeNames, z ∈ (ρ y).freeNames := by
  induction e generalizing ρ with
  | unit | absent | foreign => simp [substAll, freeNames]
  | var x => simp [substAll, freeNames]
  | lam x body ih =>
      simp only [substAll, freeNames, List.mem_filter, ih, decide_eq_true_eq]
      exact mem_freeNames_update.trans (by simp [List.mem_filter])
  | call f a ihf iha =>
      simp only [substAll, freeNames, List.mem_append, ihf, iha, or_and_right, exists_or]
  | letIn x value body ihv ihb =>
      simp only [substAll, freeNames, List.mem_append, List.mem_filter, ihv, ihb,
        decide_eq_true_eq, or_and_right, exists_or]
      exact or_congr Iff.rfl (mem_freeNames_update.trans (by simp [List.mem_filter]))

theorem mem_freeNames_subst {value : Expr} : z ∈ (e.subst x value).freeNames ↔
    (z ∈ e.freeNames ∧ z ≠ x) ∨ (x ∈ e.freeNames ∧ z ∈ value.freeNames) := by
  rw [subst, mem_freeNames_substAll]
  constructor
  · rintro ⟨y, hy, hz⟩
    by_cases hyx : y = x
    · rw [hyx, Function.update_self] at hz
      exact .inr ⟨hyx ▸ hy, hz⟩
    · rw [Function.update_of_ne hyx] at hz
      obtain rfl : z = y := List.mem_singleton.mp hz
      exact .inl ⟨hy, hyx⟩
  · rintro (⟨hz, hzx⟩ | ⟨hx, hz⟩)
    · refine ⟨z, hz, ?_⟩
      rw [Function.update_of_ne hzx]
      exact List.mem_singleton_self z
    · exact ⟨x, hx, by rwa [Function.update_self]⟩

end Expr

/-! ## Inversion of the rules -/

theorem hasType_var_congr (h : Γ x = Γ' y) : HasType Γ (.var x) τ ↔ HasType Γ' (.var y) τ := by
  constructor
  · intro hx
    cases hx with
    | var f hx hτ hc => exact .var f (h ▸ hx) hτ hc
  · intro hy
    cases hy with
    | var f hy hτ hc => exact .var f (h ▸ hy) hτ hc

theorem hasType_unit_iff : HasType Γ .unit τ ↔ τ = .unit := by
  constructor
  · intro h
    cases h
    rfl
  · rintro rfl
    exact .unit

theorem not_hasType_absent : ¬ HasType Γ .absent τ := nofun

theorem not_hasType_foreign {form : String} : ¬ HasType Γ (.foreign form) τ := nofun

theorem hasType_lam_iff : HasType Γ (.lam x e) τ ↔
    ∃ p r, τ = .arrow p r ∧ p.Complete ∧ HasType (Γ.insert x (.ofTy p)) e r := by
  constructor
  · intro h
    cases h with
    | lam hc he => exact ⟨_, _, rfl, hc, he⟩
  · rintro ⟨p, r, rfl, hc, he⟩
    exact .lam hc he

theorem hasType_call_iff {f a : Expr} : HasType Γ (.call f a) τ ↔
    ∃ p, HasType Γ f (.arrow p τ) ∧ HasType Γ a p := by
  constructor
  · intro h
    cases h with
    | call hf ha => exact ⟨_, hf, ha⟩
  · rintro ⟨p, hf, ha⟩
    exact .call hf ha

/-- The variables that a local definition is generic in can be taken as far up as one likes. -/
theorem hasType_letIn_iff {n : Nat} (hn : ∀ v, Γ.Free v → v < n) :
    HasType Γ (.letIn x e e') τ ↔ ∃ m ρ, n ≤ m ∧ HasType Γ e ρ ∧
      HasType (Γ.insert x (.close (fun v => decide (m ≤ v)) ρ)) e' τ := by
  constructor
  · intro h
    cases h with
    | @letIn _ _ _ _ ρ _ q hq he he' =>
        obtain ⟨k, hk⟩ := (Poly.close q ρ).exists_bound
        let m := max n k
        let θ : Nat → Ty := fun v => if q v then .var (m + v) else .var v
        have hθ : ∀ v, (θ v).Complete := by
          intro v
          simp only [θ]
          split <;> trivial
        have hΓ : Γ.subst θ = Γ :=
          (Assumptions.subst_congr fun v hv => by simp [θ, hq v hv]).trans Assumptions.subst_var
        have hrename : ∀ v ∈ ρ.vars, q v = false → ∀ w ∈ (Ty.var v).vars, w < m := by
          intro v hv hqv w hw
          obtain rfl : w = v := List.mem_singleton.mp hw
          exact lt_max_of_lt_right (hk w (Poly.mem_vars_close.mpr ⟨hv, hqv⟩))
        have hvalue := he.subst hθ (hΓ.symm ▸ ⟨n, hn⟩)
        have hgeneral := Poly.moreGeneral_rename hrename
        rw [hΓ] at hvalue
        rw [Poly.subst_var] at hgeneral
        exact ⟨m, ρ.subst θ, Nat.le_max_left n k, hvalue,
          he'.mono ((Assumptions.MoreGeneral.refl Γ).insert hgeneral)⟩
  · rintro ⟨m, ρ, hm, he, he'⟩
    refine .letIn _ (fun v hv => ?_) he he'
    have hlt := hn v hv
    exact decide_eq_false (by omega)

theorem Assumptions.Bounded.both (h : Γ.Bounded) (h' : Γ'.Bounded) :
    ∃ n, (∀ v, Γ.Free v → v < n) ∧ ∀ v, Γ'.Free v → v < n := by
  obtain ⟨n, hn⟩ := h
  obtain ⟨m, hm⟩ := h'
  exact ⟨max n m, fun v hv => lt_max_of_lt_left (hn v hv), fun v hv => lt_max_of_lt_right (hm v hv)⟩

/-! ## Types and names -/

theorem Assumptions.insert_congr {names : List String}
    (h : ∀ y ∈ names.filter (· ≠ x), Γ y = Γ' y) (P : Poly) :
    ∀ y ∈ names, Γ.insert x P y = Γ'.insert x P y := by
  intro y hy
  by_cases hyx : y = x
  · simp [insert, hyx]
  · simpa [insert, hyx] using h y (List.mem_filter.mpr ⟨hy, by simpa using hyx⟩)

/-- The types of an expression depend on what is assumed of its free names. -/
theorem hasType_congr (hΓ : Γ.Bounded) (hΓ' : Γ'.Bounded)
    (h : ∀ y ∈ e.freeNames, Γ y = Γ' y) : HasType Γ e τ ↔ HasType Γ' e τ := by
  induction e generalizing Γ Γ' τ with
  | unit => rw [hasType_unit_iff, hasType_unit_iff]
  | absent => exact iff_of_false not_hasType_absent not_hasType_absent
  | foreign => exact iff_of_false not_hasType_foreign not_hasType_foreign
  | var x => exact hasType_var_congr (h x (by simp [Expr.freeNames]))
  | lam x body ih =>
      rw [hasType_lam_iff, hasType_lam_iff]
      refine exists_congr fun p => exists_congr fun r => ?_
      rw [ih (hΓ.insert x _) (hΓ'.insert x _) (Assumptions.insert_congr h _)]
  | call f a ihf iha =>
      rw [hasType_call_iff, hasType_call_iff]
      refine exists_congr fun p => ?_
      rw [ihf hΓ hΓ' fun y hy => h y (List.mem_append_left _ hy),
        iha hΓ hΓ' fun y hy => h y (List.mem_append_right _ hy)]
  | letIn x value body ihv ihb =>
      obtain ⟨n, hn, hn'⟩ := hΓ.both hΓ'
      have hbody : ∀ y ∈ body.freeNames.filter (· ≠ x), Γ y = Γ' y := fun y hy =>
        h y (List.mem_append_right _ hy)
      rw [hasType_letIn_iff hn, hasType_letIn_iff hn']
      refine exists_congr fun m => exists_congr fun ρ => ?_
      rw [ihv hΓ hΓ' fun y hy => h y (List.mem_append_left _ hy),
        ihb (hΓ.insert x _) (hΓ'.insert x _) (Assumptions.insert_congr hbody _)]

/-- Under `Γ` the names have the types that under `Γ'` the expressions in their place have. -/
def Realizes (Γ Γ' : Assumptions) (ρ : String → Expr) (names : List String) : Prop :=
  ∀ y ∈ names, ∀ τ, HasType Γ (.var y) τ ↔ HasType Γ' (ρ y) τ

theorem Realizes.update {ρ : String → Expr}
    (h : Realizes Γ Γ' ρ (e.freeNames.filter (· ≠ x))) (hΓ' : Γ'.Bounded) (P : Poly) :
    Realizes (Γ.insert x P) (Γ'.insert (e.rebind ρ x) P)
      (Function.update ρ x (.var (e.rebind ρ x))) e.freeNames := by
  intro y hy τ
  by_cases hyx : y = x
  · rw [hyx, Function.update_self]
    exact hasType_var_congr (by simp [Assumptions.insert])
  · have hfree : y ∈ e.freeNames.filter (· ≠ x) := List.mem_filter.mpr ⟨hy, by simpa using hyx⟩
    have hvar : HasType (Γ.insert x P) (.var y) τ ↔ HasType Γ (.var y) τ :=
      hasType_var_congr (by simp [Assumptions.insert, hyx])
    rw [Function.update_of_ne hyx, hvar, h y hfree τ]
    refine hasType_congr hΓ' (hΓ'.insert _ P) fun z hz => ?_
    have hne : z ≠ e.rebind ρ x := fun heq => Expr.rebind_not_mem hy hyx (heq ▸ hz)
    simp [Assumptions.insert, hne]

/-- Substitution keeps the types of an expression. -/
theorem hasType_substAll {ρ : String → Expr} (hΓ : Γ.Bounded) (hΓ' : Γ'.Bounded)
    (h : Realizes Γ Γ' ρ e.freeNames) : HasType Γ e τ ↔ HasType Γ' (e.substAll ρ) τ := by
  induction e generalizing Γ Γ' ρ τ with
  | unit => rw [Expr.substAll, hasType_unit_iff, hasType_unit_iff]
  | absent => exact iff_of_false not_hasType_absent not_hasType_absent
  | foreign => exact iff_of_false not_hasType_foreign not_hasType_foreign
  | var x => exact h x (by simp [Expr.freeNames]) τ
  | lam x body ih =>
      rw [Expr.substAll, hasType_lam_iff, hasType_lam_iff]
      refine exists_congr fun p => exists_congr fun r => ?_
      rw [ih (hΓ.insert x _) (hΓ'.insert _ _) (h.update hΓ' _)]
  | call f a ihf iha =>
      rw [Expr.substAll, hasType_call_iff, hasType_call_iff]
      refine exists_congr fun p => ?_
      rw [ihf hΓ hΓ' fun y hy => h y (List.mem_append_left _ hy),
        iha hΓ hΓ' fun y hy => h y (List.mem_append_right _ hy)]
  | letIn x value body ihv ihb =>
      obtain ⟨n, hn, hn'⟩ := hΓ.both hΓ'
      have hbody : Realizes Γ Γ' ρ (body.freeNames.filter (· ≠ x)) := fun y hy =>
        h y (List.mem_append_right _ hy)
      rw [Expr.substAll, hasType_letIn_iff hn, hasType_letIn_iff hn']
      refine exists_congr fun m => exists_congr fun q => ?_
      rw [ihv hΓ hΓ' fun y hy => h y (List.mem_append_left _ hy),
        ihb (hΓ.insert x _) (hΓ'.insert _ _) (hbody.update hΓ' _)]

/-- An expression may be put in the place of a name that has the same types. -/
theorem hasType_subst {value body : Expr} (hΓ : Γ.Bounded)
    (h : ∀ τ, HasType (Γ.insert x P) (.var x) τ ↔ HasType Γ value τ) :
    HasType (Γ.insert x P) body τ ↔ HasType Γ (body.subst x value) τ := by
  refine hasType_substAll (hΓ.insert x P) hΓ fun y _ ρ => ?_
  by_cases hyx : y = x
  · rw [hyx, Function.update_self]
    exact h ρ
  · rw [Function.update_of_ne hyx]
    exact hasType_var_congr (by simp [Assumptions.insert, hyx])

end LetPoly
