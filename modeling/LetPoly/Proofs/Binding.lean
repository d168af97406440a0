import LetPoly.Proofs.WellFormed

/-! # Names and their binders

What a name stands for is settled by the binder around it. Expressions that differ in the names of
their binders only are inferred in the same way, cell by cell.
-/

namespace LetPoly

variable {names : List (String × String)} {x y : String} {e e' : Expr} {G G' : Scope}
  {σ : Scheme}

/-! ## Expressions up to the names of binders -/

/-- The names that occur in an expression where no binder in it binds them. -/
def Expr.freeNames : Expr → List String
  | .unit | .absent | .foreign _ => []
  | .var x => [x]
  | .lam x body => body.freeNames.filter (· ≠ x)
  | .call f a => f.freeNames ++ a.freeNames
  | .letIn x value body => value.freeNames ++ body.freeNames.filter (· ≠ x)

/-- Under binders in pairs, the nearest first, two names are bound by the same pair, or they are one
name that no binder binds. -/
inductive SameName : List (String × String) → String → String → Prop where
  | free (x : String) : SameName [] x x
  | here {names : List (String × String)} {x y : String} : SameName ((x, y) :: names) x y
  | there {names : List (String × String)} {x y a b : String} (hx : a ≠ x) (hy : b ≠ y)
      (h : SameName names a b) : SameName ((x, y) :: names) a b

/-- Two expressions are the same up to the names of their binders. The name of a local definition is
bound in its body only. -/
inductive Expr.Alike : List (String × String) → Expr → Expr → Prop where
  | unit {names : List (String × String)} : Alike names .unit .unit
  | var {names : List (String × String)} {x y : String} (h : SameName names x y) :
      Alike names (.var x) (.var y)
  | lam {names : List (String × String)} {x y : String} {body body' : Expr}
      (h : Alike ((x, y) :: names) body body') : Alike names (.lam x body) (.lam y body')
  | call {names : List (String × String)} {f f' a a' : Expr} (hf : Alike names f f')
      (ha : Alike names a a') : Alike names (.call f a) (.call f' a')
  | letIn {names : List (String × String)} {x y : String} {value value' body body' : Expr}
      (hvalue : Alike names value value') (hbody : Alike ((x, y) :: names) body body') :
      Alike names (.letIn x value body) (.letIn y value' body')
  | absent {names : List (String × String)} : Alike names .absent .absent
  | foreign {names : List (String × String)} {form : String} :
      Alike names (.foreign form) (.foreign form)

/-! ## Scopes -/

/-- Names of the list that are the same have the same scheme in both scopes, or none and no
binder. -/
def Scope.Agree (names : List (String × String)) (free : List String) (G G' : Scope) : Prop :=
  ∀ x ∈ free, ∀ y, SameName names x y → G'[y]? = G[x]? ∧ (G[x]? = none → x = y)

theorem Scope.Agree.mono {free free' : List String} (h : Scope.Agree names free G G')
    (hsub : ∀ x ∈ free', x ∈ free) : Scope.Agree names free' G G' :=
  fun x hx => h x (hsub x hx)

theorem Scope.Agree.insert {free : List String} (h : Scope.Agree names (free.filter (· ≠ x)) G G')
    (y : String) (σ : Scheme) :
    Scope.Agree ((x, y) :: names) free (G.insert x σ) (G'.insert y σ) := by
  intro a ha b hab
  cases hab with
  | here => simp
  | there hx hy hab =>
      have hfree : a ∈ free.filter (· ≠ x) := List.mem_filter.mpr ⟨ha, by simpa using hx⟩
      simpa [Scope.getElem?_insert, hx, hy] using h a hfree b hab

/-! ## Inference -/

/-- Both computations come to the same result and the same state. -/
def SameResult {α : Type} (a : α) (st : State) (a' : α) (st' : State) : Prop :=
  a = a' ∧ st = st'

/-- Both computations stop for the same reason in the same state. Only the expressions that they
blame may differ. -/
inductive SameStop : Stop Failure → State → Stop Failure → State → Prop where
  | error {f f' : Failure} {st : State} (h : f.error = f'.error) :
      SameStop (.error f) st (.error f') st
  | fault {f : Fault} {st : State} : SameStop (.fault f) st (.fault f) st

theorem inStep_refl {α : Type} (r : EStateM.Result (Stop Failure) State α) :
    InStep SameResult SameStop r r := by
  cases r with
  | ok a st => exact .ok ⟨rfl, rfl⟩
  | error stop st =>
      cases stop with
      | error f => exact .error (.error rfl)
      | fault f => exact .error .fault

theorem InStep.atNextLevel {act act' : InferM Ty}
    (h : ∀ st, InStep SameResult SameStop (act st) (act' st)) (st : State) :
    InStep SameResult SameStop (atNextLevel act st) (atNextLevel act' st) := by
  have hact := h (st.atLevel (st.supply.level + 1))
  rw [atNextLevel_apply, atNextLevel_apply]
  generalize act (st.atLevel (st.supply.level + 1)) = r at hact
  generalize act' (st.atLevel (st.supply.level + 1)) = r' at hact
  cases hact with
  | @ok t st₁ t' st₁' hsame =>
      obtain ⟨rfl, rfl⟩ := hsame
      exact inStep_refl _
  | error hsame =>
      cases hsame with
      | fault => exact inStep_refl _
      | error hf =>
          refine .bind (inStep_refl _) ?_
          rintro _ st₂ _ _ - - ⟨rfl, rfl⟩
          exact .error (.error hf)

theorem unifyOr_inStep {failure failure' : UnifyError → Failure}
    (h : ∀ e, (failure e).error = (failure' e).error) (a b : Ty) (st : State) :
    InStep SameResult SameStop (unifyOr failure a b st) (unifyOr failure' a b st) := by
  rw [unifyOr_apply, unifyOr_apply]
  match unify a b st.store with
  | .ok _ s => exact .ok ⟨rfl, rfl⟩
  | .error (.error e) s => exact .error (.error (h e))
  | .error (.fault f) s => exact .error .fault

/-- Expressions that are the same up to the names of their binders are inferred in step, cell by
cell. -/
theorem infer_alike (h : e.Alike names e') (hG : Scope.Agree names e.freeNames G G') (st : State) :
    InStep SameResult SameStop (infer e G st) (infer e' G' st) := by
  induction h generalizing G G' st with
  | unit | absent | foreign => exact inStep_refl _
  | @var names x y h =>
      obtain ⟨hlookup, hnone⟩ := hG x (by simp [Expr.freeNames]) y h
      simp only [infer, hlookup]
      cases hx : G[x]? with
      | some σ => exact inStep_refl _
      | none =>
          obtain rfl := hnone hx
          exact inStep_refl _
  | @lam names x y body body' _ ih =>
      refine .bind (inStep_refl _) ?_
      rintro v st₁ _ _ - - ⟨rfl, rfl⟩
      refine .bind (ih (hG.insert y _) st₁) ?_
      rintro t st₂ _ _ - - ⟨rfl, rfl⟩
      exact inStep_refl _
  | @call names f f' a a' _ _ ihf iha =>
      have hfree : ∀ x, x ∈ f.freeNames ∨ x ∈ a.freeNames → x ∈ (f.call a).freeNames := fun x hx =>
        List.mem_append.mpr hx
      refine .bind (ihf (hG.mono fun x hx => hfree x (.inl hx)) st) ?_
      rintro func st₁ _ _ - - ⟨rfl, rfl⟩
      refine .bind (iha (hG.mono fun x hx => hfree x (.inr hx)) st₁) ?_
      rintro arg st₂ _ _ - - ⟨rfl, rfl⟩
      refine .bind (inStep_refl _) ?_
      rintro ret st₃ _ _ - - ⟨rfl, rfl⟩
      refine .bind (unifyOr_inStep ?_ func (.arrow arg (.var ret)) st₃) ?_
      · intro _
        rfl
      · rintro _ st₄ _ _ - - ⟨rfl, rfl⟩
        exact inStep_refl _
  | @letIn names x y value value' body body' _ _ ihvalue ihbody =>
      have hfree : ∀ z, z ∈ value.freeNames ∨ z ∈ body.freeNames.filter (· ≠ x) →
        z ∈ (Expr.letIn x value body).freeNames := fun z hz => List.mem_append.mpr hz
      refine .bind (InStep.atNextLevel (ihvalue (hG.mono fun z hz => hfree z (.inl hz))) st) ?_
      rintro t st₁ _ _ - - ⟨rfl, rfl⟩
      refine .bind (inStep_refl _) ?_
      rintro σ st₂ _ _ - - ⟨rfl, rfl⟩
      exact ihbody ((hG.mono fun z hz => hfree z (.inr hz)).insert y σ) st₂

/-! ## Runs -/

theorem Expr.Alike.absent_iff (h : e.Alike names e') : e' = .absent ↔ e = .absent := by
  cases h <;> simp

/-- Only the structure of binding matters to inference: not the names of the binders, and not what
else is declared. -/
theorem infer_of_alike (c c' : Context) (env env' : Env) (s : Store) (e e' : Expr)
    (he : e.Alike [] e') (hnext : env'.nextId = env.nextId)
    (hlookup : ∀ x ∈ e.freeNames, env'.lookup? x = env.lookup? x) :
    (c'.infer (some env') s e').result = (c.infer (some env) s e).result ∧
    (c'.infer (some env') s e').store = (c.infer (some env) s e).store ∧
    (c'.infer (some env') s e').env.map Env.nextId =
      (c.infer (some env) s e).env.map Env.nextId := by
  by_cases habsent : e = .absent
  · have habsent' := he.absent_iff.mpr habsent
    simp [Context.infer, Context.run, habsent, habsent', hnext]
  · have habsent' : e' ≠ .absent := fun h => habsent (he.absent_iff.mp h)
    have hagree : Scope.Agree [] e.freeNames env.scope env'.scope := by
      intro x hx y hxy
      cases hxy
      exact ⟨hlookup x hx, fun _ => rfl⟩
    have hstart : env'.start s = env.start s := by simp [Env.start, hnext]
    have hstep := infer_alike he hagree (env.start s)
    rw [Context.infer, Context.infer, c.run_of_ne_absent habsent, c'.run_of_ne_absent habsent']
    simp only [Env.inference, hstart, Bool.false_eq_true, if_false]
    generalize infer e env.scope (env.start s) = r at hstep
    generalize infer e' env'.scope (env.start s) = r' at hstep
    cases hstep with
    | ok hsame =>
        obtain ⟨rfl, rfl⟩ := hsame
        exact ⟨rfl, rfl, rfl⟩
    | error hsame =>
        cases hsame with
        | error herror => exact ⟨by simp [herror], rfl, rfl⟩
        | fault => exact ⟨rfl, rfl, by simp [hnext]⟩

/-- The expression `fun x -> let x = fun y -> f x in x ()`. The local `x` takes the place of the
argument only after its own value. -/
def shadowedArgument : Expr :=
  .lam "x" (.letIn "x" (.lam "y" (.call (.var "f") (.var "x"))) (.call (.var "x") .unit))

/-- The expression `fun a -> let f = fun b -> f a in f ()`. The local `f` takes the place of the
declared one only after its own value. -/
def shadowedDeclaration : Expr :=
  .lam "a" (.letIn "f" (.lam "b" (.call (.var "f") (.var "a"))) (.call (.var "f") .unit))

theorem alike_shadowed : shadowedArgument.Alike [] shadowedDeclaration := by
  refine .lam (.letIn (.lam (.call (.var ?_) (.var ?_))) (.call (.var .here) .unit))
  · exact .there (by decide) (by decide) (.there (by decide) (by decide) (.free "f"))
  · exact .there (by decide) (by decide) .here

/-- A declaration of `x` makes no difference to an expression without a free `x`. -/
theorem infer_of_alike_shadowed :
    shadowedArgument.Alike [] shadowedDeclaration ∧
    shadowedArgument.freeNames = ["f"] ∧
    ((idleEnv 5).declareInvariant "x" .unit).lookup? "f" = (idleEnv 5).lookup? "f" ∧
    (({} : Context).infer (some (idleEnv 5)) idleStore shadowedArgument).result =
      .ok (.arrow (.var 1) (.var 6)) ∧
    (({} : Context).infer (some ((idleEnv 5).declareInvariant "x" .unit)) idleStore
      shadowedDeclaration).result = .ok (.arrow (.var 1) (.var 6)) ∧
    (({} : Context).infer (some ((idleEnv 5).declareInvariant "x" .unit)) idleStore
        shadowedDeclaration).store =
      (({} : Context).infer (some (idleEnv 5)) idleStore shadowedArgument).store := by
  have hfree : shadowedArgument.freeNames = ["f"] := by decide
  have hlookup : ((idleEnv 5).declareInvariant "x" .unit).lookup? "f" =
      (idleEnv 5).lookup? "f" := by decide
  have hresult : (({} : Context).infer (some (idleEnv 5)) idleStore shadowedArgument).result =
      .ok (.arrow (.var 1) (.var 6)) := by decide +kernel
  obtain ⟨hresult', hstore, -⟩ := infer_of_alike {} {} (idleEnv 5)
    ((idleEnv 5).declareInvariant "x" .unit) idleStore shadowedArgument shadowedDeclaration
    alike_shadowed rfl (by simpa [hfree] using hlookup)
  exact ⟨alike_shadowed, hfree, hlookup, hresult, hresult'.trans hresult, hstore⟩

end LetPoly
