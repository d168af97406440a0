import LetPoly.Proofs.WellFormed

/-! # Levels find the generic variables

The textbook makes a variable generic unless the scope has it free. Inference does not look at the
scope but at the variable's level, and quantifies the same variables.
-/

namespace LetPoly

open Store

variable {G : Scope} {st st₁ : State} {t : Ty} {N : Numbering} {k k' : Query}

/-- The identifier is that of an unbound variable of the type that the scope does not have free. -/
def Scope.Generic (G : Scope) (s : Store) (t : Ty) (i : Int64) : Prop :=
  ∃ v, s.Reaches t v ∧ s.link v = none ∧ ¬ G.Free s v ∧ s.id v = i

/-- A variable that a free variable leads to is free, unless its identifier is captured. -/
theorem Scope.Free.of_reach {s s' : Store} {u v : Nat} (hG : G.Proper s)
    (ht : s.Touches s' {v | G.Free s v}) (hu : G.Free s u) (hv : v ∈ s'.unbound (.var u))
    (huncaptured : ∀ σ, G.Has σ → G.Shares s σ → s.size ≤ v → σ.quantifies (s'.id v) = false) :
    G.Free s' v := by
  have hfree : s'.link v = none :=
    (ht.grounded (ht.active.grounded hu)).link_of_mem_unbound hv
  rcases ht.reach u hu v hv with hold | hnew
  · -- the variable was free from the start, by way of some other scheme perhaps
    obtain ⟨σ, hσ, hv⟩ := hold
    have hg := (hG σ hσ).grounded
    obtain ⟨hmem, hq⟩ := (free_iff hg).mp hv
    rw [← ht.id_eq v (hg.lt_size_of_mem_unbound hmem)] at hq
    exact ⟨σ, hσ, (free_iff (ht.grounded hg)).mpr
      ⟨ht.toExtends.mem_unbound_of_free hg hmem hfree, hq⟩⟩
  · obtain ⟨σ, hσ, hu⟩ := hu
    have hg := (hG σ hσ).grounded
    have hmem := ((free_iff hg).mp hu).1
    have hshares : G.Shares s σ := ⟨u, hu.1, σ, hσ, hu⟩
    exact ⟨σ, hσ, (free_iff (ht.grounded hg)).mpr
      ⟨(ht.toExtends.mem_unbound hg).mpr ⟨u, hmem, hv⟩, huncaptured σ hσ hshares hnew⟩⟩

/-- A variable of the value is above the level of the scope just if the scope does not have it
free. -/
theorem Inferred.level_lt_iff {v : Nat} (hG : G.Fits st)
    (h : Inferred G (st.atLevel (st.supply.level + 1)) t st₁)
    (huncaptured : ∀ σ, G.Has σ → G.Shares st.store σ → ∀ v, st.store.size ≤ v →
      v < st₁.store.size → σ.quantifies (st₁.store.id v) = false)
    (hv : v ∈ st₁.store.unbound t) :
    st.supply.level < st₁.store.level v ↔ ¬ G.Free st₁.store v := by
  have hlt := h.proper.grounded.lt_size_of_mem_unbound hv
  have hfits := hG.progress h.toProgress.leave hG.level_le
  constructor
  · intro hlevel hfree
    exact Int.not_lt.mpr (hfits.level_le v hfree) hlevel
  · intro hnot
    rcases h.justified v hlt (h.proper.grounded.link_of_mem_unbound hv) (h.within v hv) with
      hlevel | ⟨u, hu, hmem, -⟩
    · exact hlevel
    · exact absurd (Scope.Free.of_reach hG.proper h.touches hu hmem
        fun σ hσ hshares hle => huncaptured σ hσ hshares v hle hlt) hnot

theorem mem_generalizeAt_iff_generic {e : Expr} (hG : G.Fits st)
    (hrun : atNextLevel (infer e G) st = .ok t st₁)
    (huncaptured : ∀ σ, G.Has σ → G.Shares st.store σ → ∀ v, st.store.size ≤ v →
      v < st₁.store.size → σ.quantifies (st₁.store.id v) = false) (i : Int64) :
    i ∈ (st₁.store.generalizeAt st₁.supply.level t).vars ↔ G.Generic st₁.store t i := by
  obtain ⟨st₀, hvalue, rfl⟩ := (atNextLevel_infer_eq_ok hG.toUsable).mp hrun
  have hinf := infer_ok hG.toUsable.nextLevel hvalue
  have hlevel := fun v hv => hinf.level_lt_iff (v := v) hG huncaptured hv
  refine mem_vars_generalizeAt.trans ⟨?_, ?_⟩
  · rintro ⟨v, hv, hlt, hid⟩
    obtain ⟨hreach, hfree⟩ := hinf.proper.grounded.mem_unbound.mp hv
    exact ⟨v, hreach, hfree, (hlevel v hv).mp hlt, hid⟩
  · rintro ⟨v, hreach, hfree, hnot, hid⟩
    have hv := hinf.proper.grounded.mem_unbound.mpr ⟨hreach, hfree⟩
    exact ⟨v, hv, (hlevel v hv).mpr hnot, hid⟩

/-! ## All parts of a run -/

theorem Query.Tracked.visits (h : k.Tracked N) (huncaptured : k.scope.Uncaptured N k.state.store)
    (hk : Relation.ReflTransGen Query.Starts k k') :
    k'.Tracked N ∧ k'.scope.Uncaptured N k'.state.store := by
  induction hk with
  | refl => exact ⟨h, huncaptured⟩
  | tail _ hstep ih => exact ⟨ih.1.starts hstep, ih.1.uncaptured_starts ih.2 hstep⟩

theorem Query.eq_of_visits_absent (hk : Relation.ReflTransGen Query.Starts ⟨.absent, G, st⟩ k) :
    k = ⟨.absent, G, st⟩ := by
  rcases Relation.ReflTransGen.cases_head hk with rfl | ⟨_, hstep, -⟩
  · rfl
  · cases hstep

theorem Context.inferScheme_result_eq_ok {c : Context} {env : Env} {s : Store} {e : Expr}
    {σ : Scheme} : (c.inferScheme (some env) s e).result = .ok σ ↔
      ∃ t, (c.run (some env) s e true).result = .ok t ∧
        σ = (c.run (some env) s e true).store.generalizeAt
          (c.run (some env) s e true).context.supply.level t := by
  simp only [inferScheme]
  cases (c.run (some env) s e true).result with
  | ok t => simp [Except.map, eq_comm]
  | error f => simp [Except.map]

/-- In a run over a well-formed environment, every local definition and the result are generic in
the variables that a look at the scope would find. -/
theorem generalization_eq_scan (c : Context) (env : Env) (s : Store) (e : Expr) (nested : Bool)
    (hwf : env.WellFormed s) (hwrap : (c.run (some env) s e nested).NoWrap env)
    (huncaptured : (c.run (some env) s e nested).Uncaptured env s) :
    (∀ x value body G st t st₁,
      Relation.ReflTransGen Query.Starts (env.query s e nested) ⟨.letIn x value body, G, st⟩ →
      atNextLevel (infer value G) st = .ok t st₁ →
      ∀ i, i ∈ (st₁.store.generalizeAt st₁.supply.level t).vars ↔ G.Generic st₁.store t i) ∧
    (nested = true → ∀ σ, (c.inferScheme (some env) s e).result = .ok σ →
      ∀ i, i ∈ σ.vars ↔ env.scope.Generic (c.inferScheme (some env) s e).store σ.body i) := by
  by_cases he : e = .absent
  · subst he
    refine ⟨fun x value body G st t st₁ hk => ?_, fun _ σ hσ => ?_⟩
    · cases Query.eq_of_visits_absent hk
    · obtain ⟨t, ht, -⟩ := Context.inferScheme_result_eq_ok.mp hσ
      exact absurd rfl (c.run_result_eq_ok.mp ht).1
  have hstore : (c.run (some env) s e nested).store = (leaves (env.inference s e nested)).store :=
    (c.run_leaves he).1
  refine ⟨fun x value body G st t st₁ hk hrun => ?_, ?_⟩
  · have hstart := hwf.tracked (hwrap.inference he)
    obtain ⟨htracked, hcaptured⟩ := hstart.visits (fun σ hσ hshares v hv hlt => by
      have hnone := huncaptured σ hσ hshares v hv (hstore ▸ hlt)
      rwa [hstore] at hnone) hk
    have hcovers := (htracked.covers.starts (.body hrun)).1
    refine mem_generalizeAt_iff_generic htracked.fits hrun fun σ hσ hshares v hv hlt => ?_
    rw [hcovers.id_eq v hlt]
    exact hcaptured σ hσ hshares v hv (hlt.trans_le hcovers.size_le)
  · rintro rfl σ hσ
    obtain ⟨t, ht, rfl⟩ := Context.inferScheme_result_eq_ok.mp hσ
    obtain ⟨-, st, hrun⟩ := c.run_result_eq_ok.mp ht
    have hleaves := c.run_of_ok he hrun
    change ∀ i, i ∈ ((c.run (some env) s e true).store.generalizeAt _ t).vars ↔
      env.scope.Generic (c.run (some env) s e true).store t i
    rw [Run.Uncaptured, hleaves.1] at huncaptured
    rw [hleaves.1, hleaves.2]
    exact mem_generalizeAt_iff_generic hwf.fits hrun huncaptured

/-- The expression `let y = fun x -> f in y`. -/
def constantExpr : Expr :=
  .letIn "y" (.lam "x" (.var "f")) (.var "y")

/-- A function whose result is shared with the environment is generic in its argument only, where it
is defined and as the result. -/
theorem generalization_eq_scan_idle :
    (idleEnv 5).WellFormed idleStore ∧
    (({} : Context).run (some (idleEnv 5)) idleStore constantExpr true).NoWrap (idleEnv 5) ∧
    (({} : Context).run (some (idleEnv 5)) idleStore constantExpr true).Uncaptured (idleEnv 5)
      idleStore ∧
    (∃ t st₁, atNextLevel (infer (.lam "x" (.var "f")) (idleEnv 5).scope)
        ((idleEnv 5).query idleStore constantExpr true).state = .ok t st₁ ∧
      (st₁.store.generalizeAt st₁.supply.level t).vars = [1] ∧
      ∀ i, i ∈ (st₁.store.generalizeAt st₁.supply.level t).vars ↔
        (idleEnv 5).scope.Generic st₁.store t i) ∧
    ∃ σ, (({} : Context).inferScheme (some (idleEnv 5)) idleStore constantExpr).result = .ok σ ∧
      σ.vars = [3] ∧
      ∀ i, i ∈ σ.vars ↔ (idleEnv 5).scope.Generic
        (({} : Context).inferScheme (some (idleEnv 5)) idleStore constantExpr).store σ.body i := by
  have hids : ∀ v < 4, 1 ≤ v → ({ vars := [5], body := .var 0 } : Scheme).quantifies
      ((({} : Context).run (some (idleEnv 5)) idleStore constantExpr true).store.id v) = false := by
    decide
  have hwrap : (({} : Context).run (some (idleEnv 5)) idleStore constantExpr true).NoWrap
      (idleEnv 5) := by decide
  have huncaptured : (({} : Context).run (some (idleEnv 5)) idleStore constantExpr
      true).Uncaptured (idleEnv 5) idleStore := by
    intro σ hσ _ v hv hlt
    rw [has_idleEnv hσ]
    exact hids v hlt hv
  obtain ⟨hlet, hresult⟩ := generalization_eq_scan {} (idleEnv 5) idleStore constantExpr true
    (idleEnv_wellFormed 5) hwrap huncaptured
  refine ⟨idleEnv_wellFormed 5, hwrap, huncaptured, ⟨_, _, rfl, rfl, ?_⟩, _, rfl, rfl,
    hresult rfl _ rfl⟩
  exact hlet "y" (.lam "x" (.var "f")) (.var "y") _ _ _ _ .refl rfl

/-- The call links the cell of the environment to a function type whose result gets the quantified
identifier. It is generic for a look at the scope, and not for its level. -/
theorem generalization_ne_scan_captured :
    (idleEnv 2).WellFormed idleStore ∧
    (({} : Context).inferScheme (some (idleEnv 2)) idleStore (.call (.var "f") .unit)).NoWrap
      (idleEnv 2) ∧
    ∃ σ, (({} : Context).inferScheme (some (idleEnv 2)) idleStore
        (.call (.var "f") .unit)).result = .ok σ ∧
      ¬ ∀ i, i ∈ σ.vars ↔ (idleEnv 2).scope.Generic (({} : Context).inferScheme (some (idleEnv 2))
        idleStore (.call (.var "f") .unit)).store σ.body i := by
  refine ⟨idleEnv_wellFormed 2, by decide, _, rfl, fun h => ?_⟩
  have hfree : ¬ (idleEnv 2).scope.Free (({} : Context).inferScheme (some (idleEnv 2)) idleStore
      (.call (.var "f") .unit)).store 2 := by
    rintro ⟨σ, hσ, -, -, hq⟩
    rw [has_idleEnv hσ] at hq
    exact absurd hq (by decide)
  have hmem := (h 2).mpr ⟨2, .here 2, rfl, hfree, rfl⟩
  exact absurd hmem (by decide)

end LetPoly
