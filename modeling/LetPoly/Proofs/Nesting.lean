import LetPoly.Proofs.Lockstep
import LetPoly.Proofs.Session

/-! # Types and schemes agree

The type of an expression is inferred at the level of the environment, its scheme one level below.
The levels of the two runs differ, but every decision that is made by levels is the same.
-/

namespace LetPoly

open Store

variable {f : Nat → Nat} {env : Env} {s : Store} {e : Expr} {t : Ty} {st st' : State}

/-! ## Renaming nothing -/

theorem twin_self (n v : Nat) : twin n n v = v := by
  unfold twin
  split <;> omega

theorem Ty.rename_id (h : ∀ v, f v = v) (t : Ty) : t.rename f = t :=
  subst_eq_self fun v _ => by rw [h v]

theorem UnifyError.rename_id (h : ∀ v, f v = v) (error : UnifyError) : error.rename f = error := by
  cases error <;> simp [rename, Ty.rename_id h, h]

theorem InferError.rename_id (h : ∀ v, f v = v) (error : InferError) : error.rename f = error := by
  cases error <;> simp [rename, Ty.rename_id h, UnifyError.rename_id h]

/-! ## One level below -/

/-- A level as it is in a run that starts at the level of the environment, for a run that starts one
level below. The environment is at the first level in both. -/
def flatLevel (ℓ : Int) : Int :=
  if 2 ≤ ℓ then ℓ - 1 else ℓ

/-- How a run at the level of the environment answers to a run one level below. -/
def Env.nesting (env : Env) (s : Store) : Pairing where
  first := s.size
  first' := s.size
  live := Set.univ
  active := {v | env.scope.Free s v ∨ s.size ≤ v}
  shift := 0
  level := flatLevel
  base := 2
  active_live := Set.subset_univ _
  new_active _ hv := .inr hv
  lt_first _ _ hv := hv
  level_mono ℓ m h := by
    unfold flatLevel
    split <;> split <;> omega
  level_succ ℓ h := by
    rw [flatLevel, flatLevel, if_pos h, if_pos (by omega)]
    omega

theorem Env.nesting_cell (v : Nat) : (env.nesting s).cell v = v :=
  twin_self s.size v

theorem Env.nesting_shift : (env.nesting s).shift = 0 := rfl

theorem Env.nesting_rename (t : Ty) : t.rename (env.nesting s).cell = t :=
  Ty.rename_id nesting_cell t

theorem Env.nesting_schemes {σ : Scheme} (hσ : env.scope.Has σ) :
    (env.nesting s).Schemes s s σ σ where
  body_eq := (nesting_rename σ.body).symm
  live _ _ := trivial
  active _ hv := .inl ⟨σ, hσ, hv⟩
  vars_eq := ⟨0, by simp, fun v _ => by simp [nesting_cell]⟩

theorem Env.nesting_paired (hlevel : ∀ v, env.scope.Free s v → s.level v ≤ 1) :
    (env.nesting s).Paired s s where
  first_le := Nat.le_refl _
  size_eq := (nesting_cell s.size).symm
  link_eq v _ := by simp [nesting_cell, funext nesting_rename]
  live_link _ _ _ _ _ _ := trivial
  id_eq v _ _ := by rw [nesting_cell, nesting_shift, Int64.add_zero]
  level_eq v hv hlt := by
    have hfree : env.scope.Free s v := hv.resolve_right (Nat.not_le_of_lt hlt)
    have hle := hlevel v hfree
    rw [nesting_cell]
    exact (if_neg (by omega)).symm

theorem Env.nesting_starts (henv : env.Readable s)
    (hlevel : ∀ v, env.scope.Free s v → s.level v ≤ 1) :
    (env.nesting s).Starts env.scope ((env.start s).atLevel 2) env.scope (env.start s) where
  states := ⟨nesting_paired hlevel, by simp [State.atLevel, nesting], rfl, Int.le_refl 2, rfl⟩
  scopes x := by
    cases hx : env.scope[x]? with
    | none => exact .none
    | some σ => exact .some (nesting_schemes ⟨x, hx⟩)
  usable := henv.proper.usable.nextLevel
  usable' := henv.proper.usable

/-- The run one level below and the run at the level of the environment stay in step. -/
theorem Env.nesting_inStep (henv : env.Readable s)
    (hlevel : ∀ v, env.scope.Free s v → s.level v ≤ 1) (e : Expr) :
    InStep (env.nesting s).Infers (env.nesting s).InferStops
      (infer e env.scope ((env.start s).atLevel 2)) (infer e env.scope (env.start s)) := by
  refine Pairing.infer_inStep e (nesting_starts henv hlevel) ?_
  intro v _ w _ _ _ _ _
  simp [nesting]

/-! ## Runs -/

/-- The same cells with the same identifiers and links, and the same identifier to come. -/
structure State.SameCells (st st' : State) : Prop where
  size_eq : st'.store.size = st.store.size
  id_eq : ∀ v < st.store.size, st'.store.id v = st.store.id v
  link_eq : ∀ v, st'.store.link v = st.store.link v
  nextId_eq : st'.supply.nextId = st.supply.nextId

theorem State.SameCells.atLevel (h : st.SameCells st') (ℓ : Int) : (st.atLevel ℓ).SameCells st' :=
  ⟨h.size_eq, h.id_eq, h.link_eq, h.nextId_eq⟩

theorem Env.nesting_sameCells (h : (env.nesting s).States st st')
    (hissues : Issues (env.start s) st) (hissues' : Issues (env.start s) st') :
    st.SameCells st' where
  size_eq := by rw [h.stores.size_eq, nesting_cell]
  id_eq v hv := by
    by_cases hlt : v < s.size
    · rw [hissues.id_eq v hlt, hissues'.id_eq v hlt]
    · have hid := h.stores.id_eq v (.inr (Nat.le_of_not_lt hlt)) hv
      rwa [nesting_cell, nesting_shift, Int64.add_zero] at hid
  link_eq v := by
    have hlink := h.stores.link_eq v trivial
    simpa [nesting_cell, funext nesting_rename] using hlink
  nextId_eq := by rw [h.nextId_eq, nesting_shift, Int64.add_zero]

/-- Both computations came to the same type, or failed in the same way, with the same cells. -/
def SameAnswer (nested flat : EStateM.Result (Stop Failure) State Ty) : Prop :=
  InStep
    (fun t st t' st' => t = t' ∧ st.SameCells st' ∧ st'.store.resolve t = st.store.resolve t)
    (fun stop st stop' st' => stop = stop' ∧ st.SameCells st' ∧ ∃ failure, stop = .error failure)
    nested flat

theorem Env.inference_nested (henv : env.Readable s) (e : Expr) :
    env.inference s e true =
      match infer e env.scope ((env.start s).atLevel 2) with
      | .ok t st => .ok t (st.atLevel 1)
      | .error stop st => .error stop (st.atLevel 1) :=
  atNextLevel_of_outcome henv.proper.usable.positive
    (infer_outcome e henv.proper.usable.nextLevel)

theorem Env.inference_agree (henv : env.Readable s)
    (hlevel : ∀ v, env.scope.Free s v → s.level v ≤ 1) (e : Expr) :
    SameAnswer (env.inference s e true) (env.inference s e false) := by
  have hstep := nesting_inStep henv hlevel e
  have hout : InferOutcome env.scope ((env.start s).atLevel 2) _ :=
    infer_outcome e henv.proper.usable.nextLevel
  have hissues := (issues_atLevel (env.start s) 2).trans (infer_issues e env.scope _)
  have hissues' := infer_issues e env.scope (env.start s)
  have hflat : env.inference s e false = infer e env.scope (env.start s) := rfl
  rw [inference_nested henv, hflat]
  generalize infer e env.scope ((env.start s).atLevel 2) = nested at hstep hout hissues
  generalize infer e env.scope (env.start s) = flat at hstep hissues'
  cases hstep with
  | @ok t st t' st' h =>
      obtain ⟨hstates, hty, -⟩ := h
      rw [nesting_rename] at hty
      have hsame := (nesting_sameCells hstates hissues hissues').atLevel 1
      cases hout with
      | ok hinf =>
          have hresolve := resolve_of_link_eq hsame.size_eq.ge hsame.link_eq hinf.proper.grounded
          exact .ok ⟨hty.symm, hsame, hresolve⟩
  | error h =>
      cases h with
      | @error err x st st' hstates _ =>
          refine .error ⟨?_, (nesting_sameCells hstates hissues hissues').atLevel 1, _, rfl⟩
          rw [InferError.rename_id nesting_cell]

/-- An expression has a type exactly if it has a scheme, and the scheme is over that type. Both runs
fail in the same way, give out the same identifiers and link the same cells. -/
theorem infer_agrees_inferScheme (c c' : Context) (env : Env) (s : Store) (e : Expr)
    (henv : env.Readable s) (hlevel : ∀ v, env.scope.Free s v → s.level v ≤ 1) :
    let flat := c.infer (some env) s e
    let nested := c'.inferScheme (some env) s e
    ((∃ t, flat.result = .ok t) ↔ ∃ σ, nested.result = .ok σ) ∧
    (∀ t σ, flat.result = .ok t → nested.result = .ok σ →
      flat.store.resolve t = nested.store.resolve σ.body) ∧
    (∀ stop, flat.result = .error stop ↔ nested.result = .error stop) ∧
    (e ≠ .absent → flat.context.failure = nested.context.failure) ∧
    flat.env.map Env.nextId = nested.env.map Env.nextId ∧
    flat.store.size = nested.store.size ∧
    (∀ v < flat.store.size, flat.store.id v = nested.store.id v) ∧
    ∀ v, flat.store.link v = nested.store.link v := by
  intro flat nested
  by_cases he : e = .absent
  · simp [flat, nested, Context.infer, Context.inferScheme, Context.run, he, Except.map]
  · have hagree := env.inference_agree henv hlevel e
    simp only [flat, nested, Context.infer, Context.inferScheme, c.run_of_ne_absent he,
      c'.run_of_ne_absent he]
    generalize env.inference s e true = x at hagree
    generalize env.inference s e false = y at hagree
    cases hagree with
    | ok h =>
        obtain ⟨rfl, hsame, hresolve⟩ := h
        refine ⟨by simp [Except.map], ?_, by simp [Except.map], fun _ => rfl, ?_, hsame.size_eq,
          ?_, hsame.link_eq⟩
        · rintro _ _ ⟨⟩ ⟨⟩
          exact hresolve
        · exact congrArg some hsame.nextId_eq
        · exact fun v hv => hsame.id_eq v (hsame.size_eq ▸ hv)
    | error h =>
        obtain ⟨rfl, hsame, failure, rfl⟩ := h
        refine ⟨by simp [Except.map], by simp, by simp [Except.map], fun _ => rfl, ?_,
          hsame.size_eq, ?_, hsame.link_eq⟩
        · exact congrArg some hsame.nextId_eq
        · exact fun v hv => hsame.id_eq v (hsame.size_eq ▸ hv)

/-- The expression `let g = fun x -> f x in fun y -> g`. -/
def sharedFunction : Expr :=
  .letIn "g" (.lam "x" (.call (.var "f") (.var "x"))) (.lam "y" (.var "g"))

/-- The argument `y` is at the level of the environment in the one run and above it in the other,
where it is quantified. The cells of `f` and `g` are at the first level in both. -/
theorem infer_agrees_inferScheme_shared :
    let flat := ({} : Context).infer (some (idleEnv 5)) idleStore sharedFunction
    let nested := ({} : Context).inferScheme (some (idleEnv 5)) idleStore sharedFunction
    (idleEnv 5).WellFormed idleStore ∧
    flat.result = .ok (.arrow (.var 4) (.arrow (.var 1) (.var 3))) ∧
    nested.result = .ok { vars := [4], body := .arrow (.var 4) (.arrow (.var 1) (.var 3)) } ∧
    flat.store.level 4 = 1 ∧ nested.store.level 4 = 2 ∧
    flat.env.map Env.nextId = nested.env.map Env.nextId ∧
    ∀ v, flat.store.link v = nested.store.link v := by
  intro flat nested
  have henv := idleEnv_wellFormed 5
  have hagree := infer_agrees_inferScheme {} {} (idleEnv 5) idleStore sharedFunction henv.readable
    henv.level_le
  obtain ⟨-, -, -, -, hnext, -, -, hlink⟩ := hagree
  exact ⟨henv, by decide +kernel, by decide +kernel, by decide +kernel, by decide +kernel, hnext,
    hlink⟩

end LetPoly
