import LetPoly.Proofs.WellFormed

/-! # Inferred types are types of the expression

What the scope stands for changes during inference, since its free variables are worked on. In the
store that inference leaves, the expression has the inferred type.
-/

namespace LetPoly

open Store

variable {G : Scope} {s s' s₁ s₂ : Store} {st st' : State} {e : Expr} {t : Ty} {N : Numbering}
  {k k' : Query} {A : Set Nat} {p : Nat → Prop}

/-! ## Derivations in a later store -/

theorem HasType.of_touches (h : HasType (s.assumptions G) e (s.resolve t)) (ht : s.Touches s' A)
    (hG : G.Proper s) (hproper : s.Proper t)
    (hpoly : ∀ σ, G.Has σ → s'.poly σ = (s.poly σ).subst s'.image) :
    HasType (s'.assumptions G) e (s'.resolve t) := by
  have hassumptions := assumptions_eq_subst hpoly
  have hbounded := bounded_assumptions (hG.touches ht)
  rw [hassumptions] at hbounded ⊢
  rw [resolve_eq_subst_image ht hproper.grounded]
  exact h.subst complete_image hbounded

/-- The unbound cells with a property. -/
def Store.opened (s : Store) (p : Nat → Prop) : Set Nat :=
  {v | v < s.size ∧ s.link v = none ∧ p v}

theorem Store.Touches.opened (h : s.Touches s' A) (hA : ∀ v ∈ A, p v) :
    s.Touches s' (s.opened p) :=
  h.mono (fun v hv => ⟨(h.active v hv).1, (h.active v hv).2, hA v hv⟩)
    fun _ hv => ⟨hv.1, hv.2.1⟩

theorem Store.Touches.trans_opened (h : s.Touches s₁ (s.opened p))
    (h₁ : s₁.Touches s₂ (s₁.opened p)) : s.Touches s₂ (s.opened p) := by
  refine h.trans h₁ fun v hv => ?_
  by_cases hlt : v < s.size
  · exact .inl ⟨hlt, h.toExtends.free hv.2.1, hv.2.2⟩
  · exact .inr (Nat.le_of_not_lt hlt)

/-! ## Quantified variables stay apart -/

/-- Every scheme of the scope is sealed against what is open, or it quantifies the identifier of no
cell that is open. -/
def Query.Guarded (k : Query) (N : Numbering) : Prop :=
  ∀ σ, k.scope.Has σ → k.state.store.Seals {v | k.Open v} σ ∨
    ∀ v < N.bound, k.Open v → σ.quantifies (N.id v) = false

theorem Query.Guarded.starts (hguarded : k.Guarded N) (h : k.Tracked N) (hk : k.Starts k') :
    k'.Guarded N := by
  have husable := h.fits.toUsable
  have hopen : ∀ v, k'.Open v → k.Open v := fun v hv => hv.of_starts hk husable
  have hkeep : ∀ σ, k.scope.Has σ → k'.state.store.Seals {v | k'.Open v} σ ∨
      ∀ v < N.bound, k'.Open v → σ.quantifies (N.id v) = false := by
    intro σ hσ
    rcases hguarded σ hσ with hsealed | havoids
    · have hg := (h.fits.proper σ hσ).grounded
      have hsealed' := hsealed.touches hg (hk.touches husable) fun _ hv => .inl hv
      exact .inl (hsealed'.mono hopen)
    · exact .inr fun v hlt hv => havoids v hlt (hopen v hv)
  intro σ hσ
  cases hk with
  | func | arg | value => exact hkeep σ hσ
  | lam =>
      rcases Scope.has_insert hσ with rfl | hσ
      · exact .inr fun _ _ _ => rfl
      · exact hkeep σ hσ
  | body he =>
      rcases Scope.has_insert hσ with rfl | hσ
      · exact .inr fun v hlt hv => h.not_quantifies_of_open he hv hlt
      · exact hkeep σ hσ

/-- Work on open cells changes what a guarded scope stands for by substitution. -/
theorem Query.Guarded.poly_eq {σ : Scheme} (hguarded : k.Guarded N) (h : k.Tracked N)
    (hN : N.Covers st') (ht₁ : k.state.store.Touches s₁ (k.state.store.opened k.Open))
    (ht : s₁.Touches st'.store (s₁.opened k.Open)) (hσ : k.scope.Has σ) :
    st'.store.poly σ = (s₁.poly σ).subst st'.store.image := by
  have hproper := h.fits.proper σ hσ
  rcases hguarded σ hσ with hsealed | havoids
  · have hsealed₁ := hsealed.touches hproper.grounded ht₁ fun v hv => hv.2.2
    exact hsealed₁.poly_eq (ht₁.grounded hproper.grounded) ht (fun v hv => hv.2.2) _
  · refine poly_eq_subst_image ht (ht₁.proper hproper) fun v hlt hv => ?_
    rw [hN.id_eq v hlt]
    exact havoids v (hlt.trans_le hN.size_le)
      (hv.elim (fun hv => hv.2.2) fun hv => .inr (ht₁.size_le.trans hv))

/-! ## The rules -/

theorem hasType_var {x : String} (h : G.Fits st) (hrun : infer (.var x) G st = .ok t st') :
    HasType (st'.store.assumptions G) (.var x) (st'.store.resolve t) := by
  cases hx : G[x]? with
  | none => simp [infer, hx, throw_apply] at hrun
  | some σ =>
      obtain ⟨u, st₁, w, hinst, hinstance⟩ :=
        instantiate_ok (ε := Failure) h.ready (h.proper σ ⟨x, hx⟩)
      simp only [infer, hx, hinst, EStateM.Result.ok.injEq] at hrun
      obtain ⟨rfl, rfl⟩ := hrun
      exact .var _ (by simp [assumptions, hx]) hinstance.resolve_eq.symm hinstance.proper.complete

theorem hasType_call {f a : Expr} {func arg : Ty} {st₁ st₂ : State}
    (h : Query.Tracked ⟨.call f a, G, st⟩ N) (hguarded : Query.Guarded ⟨.call f a, G, st⟩ N)
    (hN : N.Covers { st₂.afterFresh with store := s' })
    (hf : Inferred G st func st₁) (ha : Inferred G st₁ arg st₂)
    (hunify : unify func (.arrow arg (.var st₂.store.size)) st₂.afterFresh.store = .ok () s')
    (ihf : HasType (st₁.store.assumptions G) f (st₁.store.resolve func))
    (iha : HasType (st₂.store.assumptions G) a (st₂.store.resolve arg)) :
    HasType (s'.assumptions G) (.call f a) (s'.resolve (.var st₂.store.size)) := by
  have hfits : G.Fits st := h.fits
  have hops := hf.operands hfits.toUsable ha
  have hunified := unified_of_unify hops.proper_func hops.proper_arg hunify
  let p : Nat → Prop := Query.Open ⟨.call f a, G, st⟩
  have hproper₁ := hfits.proper.touches hf.touches
  -- all the work, before and after each of the operands is inferred, is on cells with property `p`
  have hfirst : st.store.Touches st₁.store (st.store.opened p) := hf.touches.opened fun _ => .inl
  have hfree₁ : ∀ v, G.Free st₁.store v → p v := fun v hv =>
    hv.of_touches_self hfits.proper hf.touches
  have hsecond : st₁.store.Touches st₂.store (st₁.store.opened p) := ha.touches.opened hfree₁
  have hlast : st₂.store.Touches s' (st₂.store.opened p) :=
    (((allocated_fresh st₂).touches active_empty).opened (by simp)).trans_opened
      (hunified.touches.opened hops.within)
  have hfunc : HasType (s'.assumptions G) f (s'.resolve func) :=
    ihf.of_touches (hsecond.trans_opened hlast) hproper₁ hf.proper fun σ hσ =>
      hguarded.poly_eq h hN hfirst (hsecond.trans_opened hlast) hσ
  have harg : HasType (s'.assumptions G) a (s'.resolve arg) :=
    iha.of_touches hlast (hproper₁.touches ha.touches) ha.proper fun σ hσ =>
      hguarded.poly_eq h hN (hfirst.trans_opened hsecond) hlast hσ
  rw [hunified.equal, resolve_arrow] at hfunc
  exact .call hfunc harg

/-- No variable that the body of a local definition leaves free in the scope is one that the
definition is generic in. -/
theorem not_quantifies_of_free {x : String} {u : Ty} {st₁ : State} {v : Nat} (hfits : G.Fits st)
    (hlive : G.Live N st.store) (hN : N.Covers st) (hN₁ : N.Covers st₁) (hN' : N.Covers st')
    (hvalue : Inferred G st u st₁)
    (hbody : Inferred (G.insert x (st₁.store.generalizeAt st₁.supply.level u)) st₁ t st')
    (hv : G.Free st'.store v) :
    (st₁.store.generalizeAt st₁.supply.level u).quantifies (st'.store.id v) = false := by
  obtain ⟨hlive₁, hvars⟩ := hvalue.live hfits hlive hN hN₁
  have hfits₁ : G.Fits st₁ := hfits.inferred hvalue
  have hfits' := hfits.insert_generalize hvalue x
  have hlt : v < st'.store.size := (hv.active (hfits₁.proper.touches hbody.touches)).1
  have hcases : (v ∈ N.live ∧ st₁.store.level v ≤ st₁.supply.level) ∨ st₁.store.size ≤ v := by
    rcases hv.of_touches hfits₁.proper hbody.touches with hv | ⟨w, hw, hv⟩
    · exact .inl ⟨hlive₁.of_free hfits₁.proper hv, hfits₁.level_le v hv⟩
    · rcases hbody.touches.reach w hw v hv with hv | hv
      · exact .inl ⟨(hlive₁.insert hvars x).of_free hfits'.proper hv, hfits'.level_le v hv⟩
      · exact .inr hv
  have hvlive : v ∈ N.live :=
    hcases.elim And.left fun hle => hN₁.live v hle (hlt.trans_le hN'.size_le)
  by_contra hq
  rw [hN'.id_eq v hlt] at hq
  obtain ⟨hlt₁, hlevel⟩ :=
    hN₁.level_of_quantifies hvalue.proper.grounded hvars hvlive (by simpa using hq)
  rcases hcases with ⟨-, hle⟩ | hle
  · exact Int.not_lt.mpr hle hlevel
  · exact Nat.not_lt_of_le hle hlt₁

/-- In the store that inference leaves, the expression has the inferred type. -/
theorem infer_hasType (h : Query.Tracked ⟨e, G, st⟩ N)
    (hguarded : Query.Guarded ⟨e, G, st⟩ N) (hrun : infer e G st = .ok t st') :
    HasType (st'.store.assumptions G) e (st'.store.resolve t) := by
  induction e generalizing G st t st' with
  | unit =>
      cases hrun
      rw [resolve_unit]
      exact .unit
  | var x => exact hasType_var h.fits hrun
  | lam x e ih =>
      obtain ⟨r, hbody, rfl⟩ := infer_lam_eq_ok.mp hrun
      have hproper := (infer_ok h.fits.toUsable hrun).proper
      have hstarts : Query.Starts ⟨.lam x e, G, st⟩ _ := .lam
      have ht := ih (h.starts hstarts) (hguarded.starts h hstarts) hbody
      rw [assumptions_insert, poly_mono] at ht
      rw [resolve_arrow]
      exact .lam (proper_arrow.mp hproper).1.complete ht
  | call f a ihf iha =>
      obtain ⟨func, st₁, arg, st₂, s', hf, ha, hunify, rfl, rfl⟩ := infer_call_eq_ok.mp hrun
      have hfunc : Query.Starts ⟨.call f a, G, st⟩ _ := .func
      have harg : Query.Starts ⟨.call f a, G, st⟩ _ := .arg hf
      have hcovers := h.covers.2
      rw [Query.final, hrun] at hcovers
      exact hasType_call h hguarded hcovers (infer_ok h.fits.toUsable hf)
        (infer_ok (h.starts harg).fits.toUsable ha) hunify
        (ihf (h.starts hfunc) (hguarded.starts h hfunc) hf)
        (iha (h.starts harg) (hguarded.starts h harg) ha)
  | letIn x e e' ihe ihe' =>
      obtain ⟨u, st₁, hvalue, hbody⟩ := infer_letIn_eq_ok.mp hrun
      have hinf := inferred_of_atNextLevel h.fits.toUsable hvalue
      obtain ⟨st₀, hvalue₀, rfl⟩ := (atNextLevel_infer_eq_ok h.fits.toUsable).mp hvalue
      have hstarts : Query.Starts ⟨.letIn x e e', G, st⟩ _ := .value
      have hstarts' : Query.Starts ⟨.letIn x e e', G, st⟩ _ := .body hvalue
      have ht := ihe (h.starts hstarts) (hguarded.starts h hstarts) hvalue₀
      have ht' := ihe' (h.starts hstarts') (hguarded.starts h hstarts') hbody
      have hinf' := infer_ok (h.starts hstarts').fits.toUsable hbody
      have hcovers := h.covers.2
      rw [Query.final, hrun] at hcovers
      rw [assumptions_insert] at ht'
      have hproper := h.fits.proper.touches hinf.touches
      -- the body still works on what the value shares with the scope, so the derivation for the
      -- value has to be carried over to the store that the body leaves
      refine .letIn _ (fun v hv => ?_)
        (ht.of_touches hinf'.touches hproper hinf.proper fun σ hσ => ?_) ht'
      · exact not_quantifies_of_free h.fits h.live h.covers.1 (h.starts hstarts').covers.1 hcovers
          hinf hinf' (free_of_free_assumptions (hproper.touches hinf'.touches) hv)
      · exact hguarded.poly_eq h hcovers (hinf.touches.opened fun _ => .inl)
          (hinf'.touches.opened fun v hv => Query.Open.of_starts (.inl hv) hstarts' h.fits.toUsable)
          hσ
  | absent | foreign => cases hrun

/-! ## Runs -/

/-- No scheme of the environment quantifies the identifier of a cell that is free in it. -/
def Env.Separate (env : Env) (s : Store) : Prop :=
  ∀ σ, env.scope.Has σ → ∀ v, env.scope.Free s v → σ.quantifies (s.id v) = false

/-- A scheme that leads to no free cell of the scope is sealed against what is open. -/
theorem Query.seals_of_not_shares {σ : Scheme} (h : k.scope.Proper k.state.store)
    (hσ : k.scope.Has σ) (hnot : ¬ k.scope.Shares k.state.store σ) :
    k.state.store.Seals {v | k.Open v} σ := by
  have hg := (h σ hσ).grounded
  refine ⟨fun v hv hopen => ?_, fun v hv => ?_⟩
  · rcases hopen with hfree | hle
    · exact hnot ⟨v, (hg.mem_unbound.mp hv).1, hfree⟩
    · exact Nat.not_lt_of_le hle (hg.lt_size_of_mem_unbound hv)
  · by_contra hq
    have hfree : k.state.store.Free σ v := (free_iff hg).mpr ⟨hv, by simpa using hq⟩
    exact hnot ⟨v, hfree.1, σ, hσ, hfree⟩

/-- A type that a run infers is a type of the expression, under the assumptions that the environment
stands for after the run. -/
theorem infer_sound (c : Context) (env : Env) (s : Store) (e : Expr) (t : Ty)
    (hwf : env.WellFormed s) (hseparate : env.Separate s)
    (hwrap : (c.infer (some env) s e).NoWrap env)
    (huncaptured : (c.infer (some env) s e).Uncaptured env s)
    (hresult : (c.infer (some env) s e).result = .ok t) :
    HasType ((c.infer (some env) s e).store.assumptions env.scope) e
      ((c.infer (some env) s e).store.resolve t) := by
  obtain ⟨he, st, hrun⟩ := c.run_result_eq_ok.mp hresult
  have hstore : (c.infer (some env) s e).store = st.store := (c.run_of_ok he hrun).1
  have htracked := hwf.tracked (Run.NoWrap.inference hwrap he)
  have hissues := env.inference_issues s e false
  rw [Run.Uncaptured, hstore] at huncaptured
  rw [hstore]
  refine infer_hasType htracked (fun σ hσ => ?_) hrun
  by_cases hshares : env.scope.Shares s σ
  swap
  · exact .inl (Query.seals_of_not_shares htracked.fits.proper hσ hshares)
  refine .inr fun v hlt hv => ?_
  change v < (leaves (env.inference s e false)).store.size at hlt
  change σ.quantifies ((leaves (env.inference s e false)).store.id v) = false
  rcases hv with hv | hv
  · have hlt : v < s.size := (hv.active hwf.proper).1
    rw [hissues.id_eq v hlt]
    exact hseparate σ hσ v hv
  · rw [hrun] at hlt ⊢
    exact huncaptured σ hσ hshares v hv hlt

theorem idleEnv_separate {i : Int64} (hi : i ≠ 0) : (idleEnv i).Separate idleStore := by
  rintro σ hσ v ⟨σ', hσ', hreach, -⟩
  rw [has_idleEnv hσ, reaches_idleEnv ⟨σ', hσ', hreach⟩]
  simpa [Scheme.quantifies, idleStore, Store.id, Store.cell] using hi.symm

/-- The cell of the environment is linked inside of a local definition, which is generic in its own
argument only. -/
theorem infer_sound_idle :
    (idleEnv 9).WellFormed idleStore ∧ (idleEnv 9).Separate idleStore ∧
    (({} : Context).infer (some (idleEnv 9)) idleStore sharingExpr).NoWrap (idleEnv 9) ∧
    (({} : Context).infer (some (idleEnv 9)) idleStore sharingExpr).Uncaptured (idleEnv 9)
      idleStore ∧
    (({} : Context).infer (some (idleEnv 9)) idleStore sharingExpr).result =
      .ok (.arrow (.var 1) (.var 6)) ∧
    HasType
      ((({} : Context).infer (some (idleEnv 9)) idleStore sharingExpr).store.assumptions
        (idleEnv 9).scope)
      sharingExpr
      ((({} : Context).infer (some (idleEnv 9)) idleStore sharingExpr).store.resolve
        (.arrow (.var 1) (.var 6))) := by
  have hresult : (({} : Context).infer (some (idleEnv 9)) idleStore sharingExpr).result =
      .ok (.arrow (.var 1) (.var 6)) := by decide +kernel
  have hsize : (({} : Context).infer (some (idleEnv 9)) idleStore sharingExpr).store.size = 7 := by
    decide +kernel
  have hids : ∀ v < 7, 1 ≤ v → ({ vars := [9], body := .var 0 } : Scheme).quantifies
      ((({} : Context).infer (some (idleEnv 9)) idleStore sharingExpr).store.id v) = false := by
    decide +kernel
  have hwrap : (({} : Context).infer (some (idleEnv 9)) idleStore sharingExpr).NoWrap
      (idleEnv 9) := by decide +kernel
  have huncaptured : (({} : Context).infer (some (idleEnv 9)) idleStore sharingExpr).Uncaptured
      (idleEnv 9) idleStore := by
    intro σ hσ _ v hv hlt
    rw [has_idleEnv hσ]
    exact hids v (hsize ▸ hlt) hv
  exact ⟨idleEnv_wellFormed 9, idleEnv_separate (by decide), hwrap, huncaptured, hresult,
    infer_sound {} (idleEnv 9) idleStore sharingExpr _ (idleEnv_wellFormed 9)
      (idleEnv_separate (by decide)) hwrap huncaptured hresult⟩

theorem not_hasType_call_unit {Γ : Assumptions} {f : String} {p q r : Poly} {τ : Ty}
    (hf : Γ f = some (.arrow (.arrow p q) r)) : ¬ HasType Γ (.call (.var f) .unit) τ := by
  intro h
  cases h with
  | call hfunc harg =>
      cases harg
      cases hfunc with
      | var g hx hτ =>
          rw [hf] at hx
          cases hx
          cases hτ

/-- The expression `fun x -> let y = f x in let z = f () in x ()`. -/
def capturingExpr : Expr :=
  .lam "x" (.letIn "y" (.call (.var "f") (.var "x"))
    (.letIn "z" (.call (.var "f") .unit) (.call (.var "x") .unit)))

theorem not_hasType_capturingExpr {Γ : Assumptions} {p q r : Poly} {τ : Ty}
    (hf : Γ "f" = some (.arrow (.arrow p q) r)) : ¬ HasType Γ capturingExpr τ := by
  intro h
  cases h with
  | lam _ h =>
      cases h with
      | letIn _ _ _ h =>
          cases h with
          | letIn _ _ h _ => exact not_hasType_call_unit (by simpa [Assumptions.insert] using hf) h

/-- The argument gets the quantified identifier, and the call of `f` links the cell of the
environment to a type that has it for a parameter. So `f` passes for a generic function, which it
does not turn out to be when the argument is called. -/
theorem infer_unsound_captured :
    (idleEnv 1).WellFormed idleStore ∧ (idleEnv 1).Separate idleStore ∧
    (({} : Context).infer (some (idleEnv 1)) idleStore capturingExpr).NoWrap (idleEnv 1) ∧
    (({} : Context).infer (some (idleEnv 1)) idleStore capturingExpr).result =
      .ok (.arrow (.var 1) (.var 6)) ∧
    ¬ HasType
      ((({} : Context).infer (some (idleEnv 1)) idleStore capturingExpr).store.assumptions
        (idleEnv 1).scope)
      capturingExpr
      ((({} : Context).infer (some (idleEnv 1)) idleStore capturingExpr).store.resolve
        (.arrow (.var 1) (.var 6))) := by
  have hf : (({} : Context).infer (some (idleEnv 1)) idleStore capturingExpr).store.assumptions
      (idleEnv 1).scope "f" = some (.arrow (.arrow .unit (.free 6)) (.free 5)) := by
    decide +kernel
  exact ⟨idleEnv_wellFormed 1, idleEnv_separate (by decide), by decide +kernel, by decide +kernel,
    not_hasType_capturingExpr hf⟩

end LetPoly
