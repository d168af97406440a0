import LetPoly.Env
import LetPoly.Expr.Basic
import LetPoly.Proofs.Evolution

/-! # The typing judgement

The rules of let-polymorphism, independent of how types are inferred: a name has any instance of
its type, and a `let` makes generic whatever variables the assumptions do not mention.
-/

namespace LetPoly

/-- A type with some of its variables generic. -/
inductive Poly where
  | unit
  | absent
  | free (v : Nat)
  | generic (v : Nat)
  | arrow (param ret : Poly)
  deriving DecidableEq

namespace Poly

/-- The type with the chosen variables made generic. -/
def close (q : Nat → Bool) : Ty → Poly
  | .unit => unit
  | .absent => absent
  | .var v => if q v then generic v else free v
  | .arrow p r => arrow (close q p) (close q r)

/-- The type with no generic variables. -/
def ofTy (t : Ty) : Poly :=
  close (fun _ => false) t

/-- The instance that puts types in the place of the generic variables. -/
def inst (f : Nat → Ty) : Poly → Ty
  | unit => .unit
  | absent => .absent
  | free v => .var v
  | generic v => f v
  | arrow p r => .arrow (p.inst f) (r.inst f)

/-- Replace the variables that are not generic. -/
def subst (θ : Nat → Ty) : Poly → Poly
  | unit => unit
  | absent => absent
  | free v => ofTy (θ v)
  | generic v => generic v
  | arrow p r => arrow (p.subst θ) (r.subst θ)

/-- The variables that are not generic. -/
def vars : Poly → List Nat
  | unit | absent | generic _ => []
  | free v => [v]
  | arrow p r => p.vars ++ r.vars

variable {P P' : Poly} {q q' : Nat → Bool} {t : Ty} {f θ θ' : Nat → Ty}

theorem mem_vars_close {v : Nat} : v ∈ (close q t).vars ↔ v ∈ t.vars ∧ q v = false := by
  induction t with
  | unit | absent => simp [close, vars, Ty.vars]
  | var w =>
      cases hw : q w with
      | true =>
          simp only [close, hw, if_true, vars, Ty.vars, List.mem_singleton, List.not_mem_nil]
          exact ⟨False.elim, fun h => by simp [h.1, hw] at h⟩
      | false =>
          simp only [close, hw, Bool.false_eq_true, if_false, vars, Ty.vars, List.mem_singleton]
          exact ⟨fun h => ⟨h, h ▸ hw⟩, And.left⟩
  | arrow p r hp hr =>
      simp only [close, vars, Ty.vars, List.mem_append, hp, hr]
      exact or_and_right.symm

theorem inst_close : (close q t).inst f = t.subst fun v => if q v then f v else .var v := by
  induction t with
  | unit | absent => rfl
  | var v => by_cases hv : q v = true <;> simp [close, inst, Ty.subst, hv]
  | arrow p r hp hr => simp only [close, inst, Ty.subst, hp, hr]

@[simp]
theorem inst_ofTy : (ofTy t).inst f = t := by
  simp [ofTy, inst_close]

@[simp]
theorem vars_ofTy {v : Nat} : v ∈ (ofTy t).vars ↔ v ∈ t.vars := by
  simp [ofTy, mem_vars_close]

@[simp]
theorem subst_ofTy : (ofTy t).subst θ = ofTy (t.subst θ) := by
  unfold ofTy
  induction t with
  | unit | absent => rfl
  | var v => simp [close, subst, Ty.subst, ofTy]
  | arrow p r hp hr => simp only [close, subst, Ty.subst, hp, hr]

theorem mem_vars_subst {w : Nat} : w ∈ (P.subst θ).vars ↔ ∃ v ∈ P.vars, w ∈ (θ v).vars := by
  induction P with
  | unit | absent | generic => simp [subst, vars]
  | free v => simp [subst, vars]
  | arrow p r hp hr =>
      simp only [subst, vars, List.mem_append, hp, hr]
      simp only [or_and_right, exists_or]

theorem subst_congr (h : ∀ v ∈ P.vars, θ v = θ' v) : P.subst θ = P.subst θ' := by
  induction P with
  | unit | absent | generic => rfl
  | free v => simp [subst, h v (by simp [vars])]
  | arrow p r hp hr =>
      simp only [subst]
      rw [hp fun v hv => h v (List.mem_append_left _ hv),
        hr fun v hv => h v (List.mem_append_right _ hv)]

@[simp]
theorem subst_var : P.subst .var = P := by
  induction P with
  | unit | absent | generic => rfl
  | free v => simp [subst, ofTy, close]
  | arrow p r hp hr => simp only [subst, hp, hr]

theorem subst_inst : (P.inst f).subst θ = (P.subst θ).inst fun v => (f v).subst θ := by
  induction P with
  | unit | absent | generic => rfl
  | free v => simp [inst, subst, Ty.subst]
  | arrow p r hp hr => simp only [inst, subst, Ty.subst, hp, hr]

theorem inst_subst_close :
    ((close q t).subst θ).inst f = t.subst fun v => if q v then f v else θ v := by
  induction t with
  | unit | absent => rfl
  | var v => by_cases hv : q v = true <;> simp [close, inst, subst, Ty.subst, hv]
  | arrow p r hp hr => simp only [close, inst, subst, Ty.subst, hp, hr]

theorem close_eq_ofTy (h : ∀ v ∈ t.vars, q v = false) : close q t = ofTy t := by
  unfold ofTy
  induction t with
  | unit | absent => rfl
  | var v => simp [close, h v (by simp [Ty.vars])]
  | arrow p r hp hr =>
      simp only [close]
      rw [hp fun v hv => h v (List.mem_append_left _ hv),
        hr fun v hv => h v (List.mem_append_right _ hv)]

/-- Generic variables that are left alone stay apart from what is put in the place of the others. -/
theorem close_subst (hgeneric : ∀ v ∈ t.vars, q v = true → f v = .var v ∧ q' v = true)
    (hfree : ∀ v ∈ t.vars, q v = false → ∀ w ∈ (f v).vars, q' w = false) :
    close q' (t.subst f) = (close q t).subst f := by
  induction t with
  | unit | absent => rfl
  | var v =>
      by_cases hv : q v = true
      · obtain ⟨hf, hq⟩ := hgeneric v (by simp [Ty.vars]) hv
        simp [Ty.subst, close, subst, hv, hf, hq]
      · have hv : q v = false := by simpa using hv
        have hnone := hfree v (by simp [Ty.vars]) hv
        simp [Ty.subst, close, subst, hv, close_eq_ofTy hnone]
  | arrow p r hp hr =>
      simp only [Ty.subst, close, subst]
      rw [hp (fun v hv => hgeneric v (List.mem_append_left _ hv))
          fun v hv => hfree v (List.mem_append_left _ hv),
        hr (fun v hv => hgeneric v (List.mem_append_right _ hv))
          fun v hv => hfree v (List.mem_append_right _ hv)]

theorem exists_bound (P : Poly) : ∃ n, ∀ v ∈ P.vars, v < n := by
  induction P with
  | unit | absent | generic => exact ⟨0, by simp [vars]⟩
  | free v => exact ⟨v + 1, by simp [vars]⟩
  | arrow p r hp hr =>
      obtain ⟨n, hn⟩ := hp
      obtain ⟨m, hm⟩ := hr
      refine ⟨max n m, fun v hv => ?_⟩
      rcases List.mem_append.mp hv with hv | hv
      · exact lt_max_of_lt_left (hn v hv)
      · exact lt_max_of_lt_right (hm v hv)

/-- Every instance of `P` is an instance of `P'`, which mentions no other variables. -/
structure MoreGeneral (P' P : Poly) : Prop where
  vars_subset : ∀ v ∈ P'.vars, v ∈ P.vars
  inst : ∀ f, ∃ f', P'.inst f' = P.inst f

theorem MoreGeneral.refl (P : Poly) : P.MoreGeneral P :=
  ⟨fun _ hv => hv, fun f => ⟨f, rfl⟩⟩

/-- Generic variables may be moved out of the way of a substitution: from `n` on, where nothing that
is put in the place of the other variables can meet them. -/
theorem moreGeneral_rename {n : Nat} (hn : ∀ v ∈ t.vars, q v = false → ∀ w ∈ (θ v).vars, w < n) :
    MoreGeneral
      (close (fun w => decide (n ≤ w)) (t.subst fun v => if q v then .var (n + v) else θ v))
      ((close q t).subst θ) where
  vars_subset w hw := by
    obtain ⟨hw, hlt⟩ := mem_vars_close.mp hw
    rw [Ty.vars_subst, List.mem_flatMap] at hw
    obtain ⟨v, hv, hw⟩ := hw
    have hlt : w < n := by simpa using hlt
    cases hq : q v with
    | true =>
        simp only [hq, if_true, Ty.vars, List.mem_singleton] at hw
        omega
    | false =>
        simp only [hq, Bool.false_eq_true, if_false] at hw
        exact mem_vars_subst.mpr ⟨v, mem_vars_close.mpr ⟨hv, hq⟩, hw⟩
  inst f := by
    refine ⟨fun w => f (w - n), ?_⟩
    rw [inst_close, inst_subst_close, Ty.subst_subst]
    refine Ty.subst_congr fun v hv => ?_
    cases hq : q v with
    | true => simp [Ty.subst]
    | false =>
        simp only [Bool.false_eq_true, if_false]
        refine Ty.subst_eq_self fun w hw => ?_
        have := hn v hv hq w hw
        simp [Nat.not_le_of_lt this]

end Poly

/-! ## Assumptions -/

/-- What is assumed of the types of names. -/
def Assumptions := String → Option Poly

namespace Assumptions

variable {Γ Γ' : Assumptions} {x : String} {P P' : Poly} {θ θ' : Nat → Ty}

/-- Assume a type of a name, instead of what was assumed of it. -/
def insert (Γ : Assumptions) (x : String) (P : Poly) : Assumptions := fun y =>
  if y = x then some P else Γ y

/-- Replace the variables in every assumption. -/
def subst (θ : Nat → Ty) (Γ : Assumptions) : Assumptions := fun x =>
  (Γ x).map (Poly.subst θ)

/-- The variable is free in some assumption. -/
def Free (Γ : Assumptions) (v : Nat) : Prop :=
  ∃ x P, Γ x = some P ∧ v ∈ P.vars

/-- There are variables that no assumption mentions. -/
def Bounded (Γ : Assumptions) : Prop :=
  ∃ n, ∀ v, Γ.Free v → v < n

/-- The same names, with types that are more general. -/
def MoreGeneral (Γ' Γ : Assumptions) : Prop :=
  ∀ x, Option.Rel Poly.MoreGeneral (Γ' x) (Γ x)

theorem subst_insert : (Γ.insert x P).subst θ = (Γ.subst θ).insert x (P.subst θ) := by
  funext y
  by_cases hy : y = x <;> simp [subst, insert, hy]

theorem subst_congr (h : ∀ v, Γ.Free v → θ v = θ' v) : Γ.subst θ = Γ.subst θ' := by
  funext x
  cases hx : Γ x with
  | none => simp [subst, hx]
  | some P =>
      simp only [subst, hx, Option.map_some, Option.some_inj]
      exact Poly.subst_congr fun v hv => h v ⟨x, P, hx, hv⟩

@[simp]
theorem subst_var : Γ.subst .var = Γ := by
  funext x
  cases hx : Γ x <;> simp [subst, hx]

theorem free_insert {v : Nat} (h : (Γ.insert x P).Free v) : v ∈ P.vars ∨ Γ.Free v := by
  obtain ⟨y, Q, hy, hv⟩ := h
  by_cases hyx : y = x
  · obtain rfl : P = Q := by simpa [insert, hyx] using hy
    exact .inl hv
  · exact .inr ⟨y, Q, by simpa [insert, hyx] using hy, hv⟩

theorem Bounded.insert (h : Γ.Bounded) (x : String) (P : Poly) : (Γ.insert x P).Bounded := by
  obtain ⟨n, hn⟩ := h
  obtain ⟨m, hm⟩ := P.exists_bound
  refine ⟨max n m, fun v hv => ?_⟩
  rcases free_insert hv with hv | hv
  · exact lt_max_of_lt_right (hm v hv)
  · exact lt_max_of_lt_left (hn v hv)

theorem MoreGeneral.refl (Γ : Assumptions) : Γ.MoreGeneral Γ := by
  intro x
  cases Γ x with
  | none => exact .none
  | some P => exact .some (.refl P)

theorem MoreGeneral.insert (h : Γ'.MoreGeneral Γ) (hP : P'.MoreGeneral P) :
    (Γ'.insert x P').MoreGeneral (Γ.insert x P) := by
  intro y
  by_cases hy : y = x
  · simpa [Assumptions.insert, hy] using Option.Rel.some hP
  · simpa [Assumptions.insert, hy] using h y

theorem MoreGeneral.exists_left (h : Γ'.MoreGeneral Γ) (hx : Γ x = some P) :
    ∃ P', Γ' x = some P' ∧ P'.MoreGeneral P := by
  have hrel := h x
  rw [hx] at hrel
  generalize Γ' x = left at hrel
  cases hrel with
  | some hrel => exact ⟨_, rfl, hrel⟩

theorem MoreGeneral.exists_right (h : Γ'.MoreGeneral Γ) (hx : Γ' x = some P') :
    ∃ P, Γ x = some P ∧ P'.MoreGeneral P := by
  have hrel := h x
  rw [hx] at hrel
  generalize Γ x = right at hrel
  cases hrel with
  | some hrel => exact ⟨_, rfl, hrel⟩

theorem MoreGeneral.free (h : Γ'.MoreGeneral Γ) {v : Nat} (hv : Γ'.Free v) : Γ.Free v := by
  obtain ⟨x, P', hx, hv⟩ := hv
  obtain ⟨P, hP, hrel⟩ := h.exists_right hx
  exact ⟨x, P, hP, hrel.vars_subset v hv⟩

end Assumptions

/-! ## The rules -/

/-- The expression has the type under the assumptions. -/
inductive HasType : Assumptions → Expr → Ty → Prop where
  | unit {Γ} : HasType Γ .unit .unit
  | var {Γ x P τ} (f : Nat → Ty) (hx : Γ x = some P) (hτ : P.inst f = τ) (hc : τ.Complete) :
      HasType Γ (.var x) τ
  | lam {Γ x e τ ρ} (hc : τ.Complete) (he : HasType (Γ.insert x (.ofTy τ)) e ρ) :
      HasType Γ (.lam x e) (.arrow τ ρ)
  | call {Γ f a τ ρ} (hf : HasType Γ f (.arrow τ ρ)) (ha : HasType Γ a τ) :
      HasType Γ (.call f a) ρ
  | letIn {Γ x e e' τ ρ} (q : Nat → Bool) (hq : ∀ v, Γ.Free v → q v = false)
      (he : HasType Γ e τ) (he' : HasType (Γ.insert x (.close q τ)) e' ρ) :
      HasType Γ (.letIn x e e') ρ

variable {Γ Γ' : Assumptions} {e : Expr} {τ : Ty}

theorem HasType.complete (h : HasType Γ e τ) : τ.Complete := by
  induction h with
  | unit => trivial
  | var _ _ _ hc => exact hc
  | lam hc _ ih => exact ⟨hc, ih⟩
  | call _ _ ihf _ => exact ihf.2
  | letIn _ _ _ _ _ ih => exact ih

/-- More general assumptions allow all that the assumptions allow. -/
theorem HasType.mono (h : HasType Γ e τ) (hle : Γ'.MoreGeneral Γ) : HasType Γ' e τ := by
  induction h generalizing Γ' with
  | unit => exact .unit
  | @var Γ x P τ f hx hτ hc =>
      obtain ⟨P', hP', hrel⟩ := hle.exists_left hx
      obtain ⟨f', hf'⟩ := hrel.inst f
      exact .var f' hP' (hf'.trans hτ) hc
  | lam hc _ ih => exact .lam hc (ih (hle.insert (.refl _)))
  | call _ _ ihf iha => exact .call (ihf hle) (iha hle)
  | letIn q hq _ _ ihe ihe' =>
      exact .letIn q (fun v hv => hq v (hle.free hv)) (ihe hle) (ihe' (hle.insert (.refl _)))

/-- A derivation stays one when types are put in the place of variables. -/
theorem HasType.subst (h : HasType Γ e τ) {θ : Nat → Ty} (hθ : ∀ v, (θ v).Complete)
    (hb : (Γ.subst θ).Bounded) : HasType (Γ.subst θ) e (τ.subst θ) := by
  induction h generalizing θ with
  | unit => exact .unit
  | @var Γ x P τ f hx hτ hc =>
      refine .var (fun v => (f v).subst θ) (P := P.subst θ) (by simp [Assumptions.subst, hx]) ?_ ?_
      · rw [← Poly.subst_inst, hτ]
      · exact Ty.complete_subst.mpr ⟨hc, fun v _ => hθ v⟩
  | @lam Γ x e τ ρ hc _ ih =>
      refine .lam (Ty.complete_subst.mpr ⟨hc, fun v _ => hθ v⟩) ?_
      rw [← Poly.subst_ofTy, ← Assumptions.subst_insert]
      exact ih hθ (Assumptions.subst_insert ▸ hb.insert _ _)
  | call _ _ ihf iha => exact .call (ihf hθ hb) (iha hθ hb)
  | @letIn Γ x e e' τ ρ q hq _ _ ihe ihe' =>
      -- the generic variables move above all variables of the new assumptions and of the type
      have ⟨n₁, hn₁⟩ := hb
      obtain ⟨n₂, hn₂⟩ := ((Poly.close q τ).subst θ).exists_bound
      let n := max n₁ n₂
      let θ' : Nat → Ty := fun v => if q v then .var (n + v) else θ v
      have hθ' : ∀ v, (θ' v).Complete := by
        intro v
        cases hv : q v with
        | true => simp [θ', hv, Ty.Complete]
        | false => simpa [θ', hv] using hθ v
      have hΓ : Γ.subst θ' = Γ.subst θ :=
        Assumptions.subst_congr fun v hv => by simp [θ', hq v hv]
      have hrename : ∀ v ∈ τ.vars, q v = false → ∀ w ∈ (θ v).vars, w < n := by
        intro v hv hqv w hw
        refine lt_max_of_lt_right (hn₂ w ?_)
        exact Poly.mem_vars_subst.mpr ⟨v, Poly.mem_vars_close.mpr ⟨hv, hqv⟩, hw⟩
      have hvalue := ihe hθ' (hΓ.symm ▸ hb)
      have hbody := ihe' hθ (Assumptions.subst_insert ▸ hb.insert _ _)
      rw [hΓ] at hvalue
      rw [Assumptions.subst_insert] at hbody
      refine .letIn (fun w => decide (n ≤ w)) (fun v hv => ?_) hvalue
        (hbody.mono ((Assumptions.MoreGeneral.refl _).insert (Poly.moreGeneral_rename hrename)))
      have hlt : v < n := lt_max_of_lt_left (hn₁ v hv)
      simpa using hlt

end LetPoly
