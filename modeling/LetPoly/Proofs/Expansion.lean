import LetPoly.Proofs.ClosedRuns
import LetPoly.Proofs.Frame
import LetPoly.Proofs.Substitution

/-! # Local definitions stand for their expansion

A name that is bound to a value may be used at several types, just as the value itself could if it
were written out in all those places. Over a closed environment, inference of the definition and
inference of its expansion succeed together, and the types that they find have the same text.
-/

namespace LetPoly

open Store

variable {Γ : Assumptions} {env : Env} {s : Store} {e e' value body : Expr} {t t' τ : Ty}
  {x : String} {c : Context}

/-! ## Principal types -/

theorem Assumptions.bounded_of_closed (hclosed : ∀ v, ¬ Γ.Free v) : Γ.Bounded :=
  ⟨0, fun v hv => absurd hv (hclosed v)⟩

/-- Under closed assumptions all instances of a type are types of the expression. -/
theorem HasType.instance_of_closed (h : HasType Γ e t) (hclosed : ∀ v, ¬ Γ.Free v)
    {f : Nat → Ty} (hc : (t.subst f).Complete) : HasType Γ e (t.subst f) := by
  let ψ : Nat → Ty := fun v => if (f v).Complete then f v else .unit
  have hψ : ∀ v, (ψ v).Complete := by
    intro v
    simp only [ψ]
    split
    · assumption
    · trivial
  have hΓ : Γ.subst ψ = Γ :=
    (Assumptions.subst_congr fun v hv => absurd hv (hclosed v)).trans Assumptions.subst_var
  have htype := h.subst hψ (hΓ.symm ▸ Assumptions.bounded_of_closed hclosed)
  rwa [hΓ, Ty.subst_complete_part hc] at htype

/-- A name with a principal type, generic in all its variables, has the types of the expression. -/
theorem Principal.hasType_var_iff (h : Principal Γ e t) (hclosed : ∀ v, ¬ Γ.Free v) :
    HasType (Γ.insert x (.close (fun _ => true) t)) (.var x) τ ↔ HasType Γ e τ := by
  have hinst : ∀ f : Nat → Ty, (Poly.close (fun _ => true) t).inst f = t.subst f := fun f => by
    simp [Poly.inst_close]
  constructor
  · intro hx
    cases hx with
    | @var _ _ P _ f hx hτ hc =>
        obtain rfl : Poly.close (fun _ => true) t = P := by simpa [Assumptions.insert] using hx
        rw [hinst] at hτ
        subst hτ
        exact h.hasType.instance_of_closed hclosed hc
  · intro hτ
    obtain ⟨ψ, rfl⟩ := h.general τ hτ
    exact .var ψ (by simp [Assumptions.insert]) (hinst ψ) hτ.complete

/-- A definition that is generic in all its variables allows all that any definition allows. -/
theorem Principal.hasType_letIn (h : Principal Γ value t) (hclosed : ∀ v, ¬ Γ.Free v) :
    HasType Γ (.letIn x value body) τ ↔
      HasType (Γ.insert x (.close (fun _ => true) t)) body τ := by
  constructor
  · intro hlet
    cases hlet with
    | @letIn _ _ _ _ ρ _ q hq hvalue hbody =>
        obtain ⟨ψ, rfl⟩ := h.general ρ hvalue
        refine hbody.mono ((Assumptions.MoreGeneral.refl Γ).insert ⟨fun v hv => ?_, fun f => ?_⟩)
        · simpa using (Poly.mem_vars_close.mp hv).2
        · refine ⟨fun v => (ψ v).subst fun w => if q w then f w else .var w, ?_⟩
          simp [Poly.inst_close, Ty.subst_subst]
  · exact .letIn _ (fun v hv => absurd hv (hclosed v)) h.hasType

theorem Principal.hasType_expansion (h : Principal Γ value t) (hclosed : ∀ v, ¬ Γ.Free v) :
    HasType Γ (.letIn x value body) τ ↔ HasType Γ (body.subst x value) τ := by
  rw [h.hasType_letIn hclosed]
  exact hasType_subst (Assumptions.bounded_of_closed hclosed) fun τ => h.hasType_var_iff hclosed

/-- Principal types of expressions with the same types differ by a renaming. -/
theorem Principal.exists_rename (h : Principal Γ e t) (h' : Principal Γ e' t')
    (hiff : ∀ τ, HasType Γ e τ ↔ HasType Γ e' τ) :
    ∃ f : Nat → Nat, t' = t.rename f ∧ Set.InjOn f {v | v ∈ t.vars} := by
  obtain ⟨ψ, hψ⟩ := h.general t' ((hiff t').mpr h'.hasType)
  obtain ⟨ψ', hψ'⟩ := h'.general t ((hiff t).mp h.hasType)
  exact Ty.exists_rename hψ hψ'

/-! ## Runs -/

theorem Context.infer_succeeds_iff :
    (∃ t, (c.infer (some env) s e).result = .ok t) ↔ env.Accepts s e := by
  constructor
  · intro h
    obtain ⟨t, ht⟩ := h
    obtain ⟨-, st, hrun⟩ := c.run_result_eq_ok.mp ht
    exact ⟨t, st, hrun⟩
  · intro h
    obtain ⟨t, st, hrun⟩ := h
    have he : e ≠ .absent := by
      rintro rfl
      cases hrun
    exact ⟨t, c.run_result_eq_ok.mpr ⟨he, st, hrun⟩⟩

theorem Context.idsSuffice (h : (c.infer (some env) s e).store.size ≤ s.size + 2 ^ 64) :
    env.IdsSuffice s e := by
  have hstore : (c.infer (some env) s e).store = (leaves (env.inference s e false)).store :=
    c.run_store (some env) s e false
  rwa [hstore] at h

section Closed

variable (hclosed : env.Closed s) (henv : env.Readable s)
  (hlet : env.IdsSuffice s (.letIn x value body))
include hclosed henv hlet

theorem Env.Closed.hasType_expansion (hvalue : env.Accepts s value) :
    HasType (env.assumptions s) (.letIn x value body) τ ↔
      HasType (env.assumptions s) (body.subst x value) τ := by
  obtain ⟨t, hprincipal⟩ := hclosed.principal_value henv hlet hvalue
  exact hprincipal.hasType_expansion (hclosed.not_free_assumptions henv)

theorem Env.Closed.accepts_expansion (hexpansion : env.IdsSuffice s (body.subst x value)) :
    env.Accepts s (.letIn x value body) ↔
      env.Accepts s value ∧ env.Accepts s (body.subst x value) := by
  constructor
  · intro h
    obtain ⟨t, st, hrun⟩ := h
    have htype := (hclosed.principal henv hlet hrun).hasType
    have hvalue : env.Accepts s value := by
      cases htype with
      | letIn _ _ hvalue _ => exact hclosed.accepts_value henv hlet hvalue
    exact ⟨hvalue, hclosed.accepts henv hexpansion
      ((hclosed.hasType_expansion henv hlet hvalue).mp htype)⟩
  · intro h
    obtain ⟨hvalue, t, st, hrun⟩ := h
    have htype := (hclosed.principal henv hexpansion hrun).hasType
    exact hclosed.accepts henv hlet ((hclosed.hasType_expansion henv hlet hvalue).mpr htype)

end Closed

/-- Over a closed environment, inference of a local definition succeeds just if inference of the
value and inference of the body with the value in the place of the name succeed. Then the definition
and its expansion have types with the same text. Neither run may make more cells than there are
identifiers. -/
theorem infer_letIn_eq_expansion (c₁ c₂ c₃ : Context) (env : Env) (s : Store) (x : String)
    (value body : Expr) (henv : env.Readable s) (hclosed : env.Closed s)
    (hlet : (c₁.infer (some env) s (.letIn x value body)).store.size ≤ s.size + 2 ^ 64)
    (hexpansion : (c₃.infer (some env) s (body.subst x value)).store.size ≤ s.size + 2 ^ 64) :
    ((∃ t, (c₁.infer (some env) s (.letIn x value body)).result = .ok t) ↔
      (∃ t, (c₂.infer (some env) s value).result = .ok t) ∧
        ∃ t, (c₃.infer (some env) s (body.subst x value)).result = .ok t) ∧
    ∀ t t', (c₁.infer (some env) s (.letIn x value body)).result = .ok t →
      (c₃.infer (some env) s (body.subst x value)).result = .ok t' →
      (c₁.infer (some env) s (.letIn x value body)).store.renderTy t =
        (c₃.infer (some env) s (body.subst x value)).store.renderTy t' := by
  have hids := c₁.idsSuffice hlet
  have hids' := c₃.idsSuffice hexpansion
  have hiff := hclosed.accepts_expansion henv hids hids'
  simp only [Context.infer_succeeds_iff]
  refine ⟨hiff, fun t t' ht ht' => ?_⟩
  obtain ⟨he, st, hrun⟩ := c₁.run_result_eq_ok.mp ht
  obtain ⟨he', st', hrun'⟩ := c₃.run_result_eq_ok.mp ht'
  have hstore : (c₁.infer (some env) s (.letIn x value body)).store = st.store :=
    (c₁.run_of_ok he hrun).1
  have hstore' : (c₃.infer (some env) s (body.subst x value)).store = st'.store :=
    (c₃.run_of_ok he' hrun').1
  have hvalue := (hiff.mp ⟨t, st, hrun⟩).1
  obtain ⟨f, hrename, hf⟩ := (hclosed.principal henv hids hrun).exists_rename
    (hclosed.principal henv hids' hrun') fun τ => hclosed.hasType_expansion henv hids hvalue
  rw [hstore, hstore']
  exact (renderTy_eq_of_rename (hclosed.id_injOn henv hids hrun)
    (hclosed.id_injOn henv hids' hrun') hf hrename).symm

/-- The value `f ()`, for a name that has all types. -/
def calledValue : Expr :=
  .call (.var "f") .unit

/-- The body `fun f -> x x f`, which binds the name that the value mentions. -/
def capturingBody : Expr :=
  .lam "f" (.call (.call (.var "x") (.var "x")) (.var "f"))

/-- The binder gets out of the way of the name in the value, and the value is used at two types. -/
theorem infer_letIn_eq_expansion_captured :
    let defined := ({} : Context).infer (some (idleEnv 0)) idleStore
      (.letIn "x" calledValue capturingBody)
    let expanded := ({} : Context).infer (some (idleEnv 0)) idleStore
      (capturingBody.subst "x" calledValue)
    (idleEnv 0).Readable idleStore ∧ (idleEnv 0).Closed idleStore ∧
    capturingBody.subst "x" calledValue =
      .lam "fff'" (.call (.call calledValue calledValue) (.var "fff'")) ∧
    defined.store.size ≤ idleStore.size + 2 ^ 64 ∧
    expanded.store.size ≤ idleStore.size + 2 ^ 64 ∧
    defined.result = .ok (.arrow (.var 3) (.var 7)) ∧
    expanded.result = .ok (.arrow (.var 1) (.var 7)) ∧
    (∃ t, (({} : Context).infer (some (idleEnv 0)) idleStore calledValue).result = .ok t) ∧
    defined.store.renderTy (.arrow (.var 3) (.var 7)) =
      expanded.store.renderTy (.arrow (.var 1) (.var 7)) := by
  intro defined expanded
  have henv : (idleEnv 0).Readable idleStore := (idleEnv_wellFormed 0).readable
  have hdefined : defined.store.size ≤ idleStore.size + 2 ^ 64 := by decide +kernel
  have hexpanded : expanded.store.size ≤ idleStore.size + 2 ^ 64 := by decide +kernel
  have hresult : defined.result = .ok (.arrow (.var 3) (.var 7)) := by decide +kernel
  have hresult' : expanded.result = .ok (.arrow (.var 1) (.var 7)) := by decide +kernel
  obtain ⟨hiff, htext⟩ := infer_letIn_eq_expansion {} {} {} (idleEnv 0) idleStore "x" calledValue
    capturingBody henv idleEnv_closed hdefined hexpanded
  exact ⟨henv, idleEnv_closed, by decide, hdefined, hexpanded, hresult, hresult',
    (hiff.mp ⟨_, hresult⟩).1, htext _ _ hresult hresult'⟩

end LetPoly
