import LetPoly.Proofs.Session

/-! # Declarations that stay as they are

A name can be declared with a type whose variables are not quantified. Whether they stay so in all
that is inferred later is a matter of their levels at the time of the declaration.
-/

namespace LetPoly

open Store

variable {S : Session} {s : Store} {t u : Ty} {k k' : Query}

/-! ## Parts of a run and the store -/

theorem Query.Starts.usable (h : k.Starts k') (hk : k.scope.Usable k.state) :
    k'.scope.Usable k'.state ∧ k.state.store.Changes k'.state.store := by
  cases h with
  | @lam x e G st => exact ⟨Scope.Usable.insert_fresh hk x, changes_afterFresh hk.positive⟩
  | func => exact ⟨hk, .refl⟩
  | @arg f a G st t st₁ hf =>
      have hchanges := infer_changes f hk
      simp only [hf, leaves] at hchanges
      exact ⟨hk.progress (infer_ok hk hf).toProgress, hchanges⟩
  | value => exact ⟨hk.nextLevel, .refl⟩
  | @body x e e' G st t st₁ he =>
      have hchanges := infer_changes e hk.nextLevel
      rw [← store_atNextLevel, he] at hchanges
      exact ⟨Scope.Usable.insert_generalize hk (inferred_of_atNextLevel hk he) x, hchanges⟩

theorem Query.usable_of_visits (h : Relation.ReflTransGen Query.Starts k k')
    (hk : k.scope.Usable k.state) :
    k'.scope.Usable k'.state ∧ k.state.store.Changes k'.state.store := by
  induction h with
  | refl => exact ⟨hk, .refl⟩
  | tail _ hstep ih =>
      obtain ⟨husable, hchanges⟩ := hstep.usable ih.1
      exact ⟨husable, ih.2.trans hchanges⟩

theorem Query.issues_of_visits (h : Relation.ReflTransGen Query.Starts k k') :
    Issues k.state k'.state ∧ Issues k'.final k.final := by
  induction h with
  | refl => exact ⟨.refl _, .refl _⟩
  | tail _ hstep ih =>
      obtain ⟨hstate, hfinal⟩ := hstep.issues
      exact ⟨ih.1.trans hstate, hfinal.trans ih.2⟩

theorem Scope.Proper.usable_query {env : Env} (hG : env.scope.Proper s) (e : Expr) (nested : Bool) :
    env.scope.Usable (env.query s e nested).state := by
  apply hG.usable.atLevel
  cases nested <;> simp [Env.start, Supply.startingAt]

/-! ## What a run generalizes -/

/-- The scheme quantifies an unbound cell that the type leads to. -/
def Store.Captures (s : Store) (σ : Scheme) (t : Ty) : Prop :=
  ∃ v, s.Reaches t v ∧ s.link v = none ∧ σ.quantifies (s.id v) = true

/-- A run generalizes an unbound cell that the type leads to, where a name is defined or in the
scheme that it returns. -/
inductive Session.Generalizes (S : Session) (t : Ty) (c : Context) (e : Expr) : Bool → Prop where
  | definition {nested : Bool} {x : String} {value body : Expr} {G : Scope} {st st₁ : State}
      {u : Ty}
      (hvisit : Relation.ReflTransGen Query.Starts (S.env.query S.store e nested)
        ⟨.letIn x value body, G, st⟩)
      (hvalue : atNextLevel (infer value G) st = .ok u st₁)
      (h : st₁.store.Captures (st₁.store.generalizeAt st₁.supply.level u) t) :
      Generalizes S t c e nested
  | result {σ : Scheme} (hresult : (c.inferScheme (some S.env) S.store e).result = .ok σ)
      (h : (c.inferScheme (some S.env) S.store e).store.Captures σ t) :
      Generalizes S t c e true

/-- Where identifiers tell all cells apart, no scheme that generalizes at a positive level captures
a cell of the first level. -/
theorem Store.Counted.not_captures {i : Int64} {ℓ : Int} (hs : s.Counted i)
    (hsize : s.size < 2 ^ 63) (ht : s.Grounded t) (hlow : ∀ v ∈ s.unbound t, s.level v ≤ 1)
    (hu : s.Grounded u) (hℓ : 1 ≤ ℓ) :
    ¬ s.Captures (s.generalizeAt ℓ u) t := by
  rintro ⟨v, hreach, hfree, hq⟩
  have hv : v ∈ s.unbound t := ht.mem_unbound.mpr ⟨hreach, hfree⟩
  have hvars : s.id v ∈ (s.generalizeAt ℓ u).vars := by simpa [Scheme.quantifies] using hq
  obtain ⟨w, hw, hlevel, hid⟩ := mem_vars_generalizeAt.mp hvars
  obtain rfl : w = v := hs.id_inj hsize (hu.lt_size_of_mem_unbound hw)
    (ht.lt_size_of_mem_unbound hv) hid
  have hle := hlow w hv
  omega

/-- A run over a sound session generalizes no cell of a type that is at the first level when the
run starts. -/
theorem Session.Sound.not_generalizes (hS : S.Sound) (ht : S.store.Grounded t)
    (hlow : ∀ v ∈ S.store.unbound t, S.store.level v ≤ 1) (c : Context) (e : Expr) (nested : Bool)
    (hsize : (c.run (some S.env) S.store e nested).store.size < 2 ^ 63) :
    ¬ S.Generalizes t c e nested := by
  -- the same holds of every store that the run comes to
  have hlater : ∀ {s : Store}, S.store.Changes s →
      s.Grounded t ∧ ∀ v ∈ s.unbound t, s.level v ≤ 1 := fun h =>
    ⟨h.touches.grounded ht, h.touches.level_le_of_unbound ht hlow⟩
  intro h
  cases h with
  | @definition _ x value body G st st₁ u hvisit hvalue h =>
      have he : e ≠ .absent := by
        rintro rfl
        cases Query.eq_of_visits_absent hvisit
      have hquery := hS.scope.usable_query e nested
      have hvisit' := hvisit.tail (.body hvalue)
      have husable := (Query.usable_of_visits hvisit hquery).1
      obtain ⟨husable', hchanges⟩ := Query.usable_of_visits hvisit' hquery
      obtain ⟨hbefore, hafter⟩ := S.env.query_issues S.store e nested
      obtain ⟨hstate, hfinal⟩ := Query.issues_of_visits hvisit'
      have hrest := (infer_issues body _ st₁).trans (hfinal.trans hafter)
      have hsize₁ : st₁.store.size < 2 ^ 63 := by
        rw [(c.run_leaves he).1] at hsize
        exact hrest.size_le.trans_lt hsize
      obtain ⟨ht', hlow'⟩ := hlater hchanges
      have hcounted := hS.counted.issues (hbefore.trans hstate)
      have hu := (inferred_of_atNextLevel husable hvalue).proper.grounded
      exact hcounted.not_captures hsize₁ ht' hlow' hu husable'.positive h
  | @result σ hresult h =>
      obtain ⟨u, hu, rfl⟩ := Context.inferScheme_result_eq_ok.mp hresult
      obtain ⟨st, hrun⟩ := c.run_ended e true hS.scope
      obtain ⟨ht', hlow'⟩ := hlater hrun.changes
      have hcounted := hS.counted.issues hrun.issues
      rw [hrun.store_eq] at hsize
      rw [hrun.level_eq u hu, Context.inferScheme, hrun.store_eq] at h
      exact hcounted.not_captures hsize ht' hlow' (hrun.proper u hu).grounded (Int.le_refl 1) h

/-- The scheme of a name that was declared without quantifiers is the generalization of its type. -/
theorem Context.inferScheme_invariant (c : Context) (env : Env) (s : Store) (x : String) (t : Ty) :
    (c.inferScheme (some (env.declareInvariant x t)) s (.var x)).store = s ∧
    (c.inferScheme (some (env.declareInvariant x t)) s (.var x)).result =
      .ok (s.generalizeAt 1 t) := by
  have hlookup : (env.declareInvariant x t).scope[x]? = some (.mono t) := by
    simp [Env.declareInvariant, Env.declareScheme]
  have hinst : LetPoly.infer (.var x) (env.declareInvariant x t).scope = (pure t : InferM Ty) := by
    rw [LetPoly.infer, hlookup]
    rfl
  simp only [inferScheme, run, restart_eq, Option.getD_some, hinst]
  exact ⟨rfl, rfl⟩

/-- What a name is declared with, without quantifiers, is never generalized by a run over the
environment just if no unbound cell of it is above the first level when it is declared. -/
theorem invariant_never_generalized_iff (S : Session) (hS : Relation.ReflTransGen Session.Step {} S)
    (hsize : S.store.size < 2 ^ 63) (x : String) (t : Ty) (ht : S.store.Builds t) :
    (∀ S', Relation.ReflTransGen Session.Step ((Command.declareInvariant x t).perform S) S' →
      ∀ (c : Context) e nested, (c.run (some S'.env) S'.store e nested).store.size < 2 ^ 63 →
        ¬ S'.Generalizes t c e nested) ↔
    ∀ v, S.store.Reaches t v → S.store.link v = none → S.store.level v ≤ 1 := by
  have hsound := (Session.sound_empty.steps hS).1
  have hground := (hsound.store.proper_of_builds ht).grounded
  constructor
  · -- a run of the name alone generalizes whatever is above the first level
    intro hnever v hreach hfree
    obtain ⟨hstore, hresult⟩ := ({} : Context).inferScheme_invariant S.env S.store x t
    by_contra hlevel
    have hvars : S.store.id v ∈ (S.store.generalizeAt 1 t).vars :=
      mem_vars_generalizeAt.mpr
        ⟨v, hground.mem_unbound.mpr ⟨hreach, hfree⟩, Int.not_le.mp hlevel, rfl⟩
    rw [← hstore] at hsize
    refine hnever _ .refl {} (.var x) true hsize (.result hresult ?_)
    change Captures (({} : Context).inferScheme (some (S.env.declareInvariant x t)) S.store
      (.var x)).store _ t
    rw [hstore]
    exact ⟨v, hreach, hfree, by simpa [Scheme.quantifies] using hvars⟩
  · intro hlow S' hS' c e nested hsize'
    have hdeclared := (hsound.perform (.declareInvariant x t) ht).1
    obtain ⟨hsound', hchanges⟩ := hdeclared.steps hS'
    have hlow' := hchanges.touches.level_le_of_unbound hground (ℓ := 1) fun v hv =>
      hlow v (hground.mem_unbound.mp hv).1 (hground.mem_unbound.mp hv).2
    exact hsound'.not_generalizes (hchanges.touches.grounded hground) hlow' c e nested hsize'

/-- The cell that a failed run has linked leads to a new cell, and a definition that shares it is
generic in its own argument only. -/
theorem invariant_never_generalized_iff_halted :
    Relation.ReflTransGen Session.Step {} (Command.newVar.perform {}) ∧
    (Command.newVar.perform {}).store.Builds (.var 0) ∧
    Relation.ReflTransGen Session.Step sharedSession haltedSession ∧
    haltedSession.store.Reaches (.var 0) 1 ∧
    (({} : Context).inferScheme (some haltedSession.env) haltedSession.store constantExpr).result =
      .ok { vars := [4], body := .arrow (.var 4) (.arrow .unit (.var 1)) } ∧
    ¬ haltedSession.Generalizes (.var 0) {} constantExpr true := by
  have hstart : Session.Step {} (Command.newVar.perform {}) := ⟨.newVar, trivial, rfl⟩
  have hbuilds : (Command.newVar.perform {}).store.Builds (.var 0) := by decide
  have hhalted : Session.Step sharedSession haltedSession := ⟨.infer {} _, trivial, rfl⟩
  have hlow : ∀ v, (Command.newVar.perform {}).store.Reaches (.var 0) v →
      (Command.newVar.perform {}).store.link v = none →
      (Command.newVar.perform {}).store.level v ≤ 1 := by
    intro v hv _
    obtain rfl := (reaches_var_of_free rfl).mp hv
    decide
  have hnever := (invariant_never_generalized_iff _ (.single hstart) (by decide) "f" _ hbuilds).mpr
    hlow haltedSession (.single hhalted)
  refine ⟨.single hstart, hbuilds, .single hhalted, ?_, by decide, ?_⟩
  · exact .link (t := .arrow .unit (.var 1)) (by decide) (.ret (.here 1))
  · exact hnever {} constantExpr true (by decide)

/-- The session after a run of `fun x -> x` for its scheme. -/
def returnedSession : Session :=
  (Command.inferScheme {} (.lam "x" (.var "x"))).perform {}

/-- The body of a returned scheme is above the first level. Declared without quantifiers, it is
generalized again as soon as its name is used. -/
theorem invariant_generalized_returned :
    Relation.ReflTransGen Session.Step {} returnedSession ∧
    returnedSession.schemes = [{ vars := [0], body := .arrow (.var 0) (.var 0) }] ∧
    returnedSession.store.Builds (.arrow (.var 0) (.var 0)) ∧
    ((Command.declareInvariant "m" (.arrow (.var 0) (.var 0))).perform returnedSession).Generalizes
      (.arrow (.var 0) (.var 0)) {} (.var "m") true := by
  have hstep : Session.Step {} returnedSession := ⟨.inferScheme {} _, trivial, rfl⟩
  refine ⟨.single hstep, by decide, by decide, ?_⟩
  apply Session.Generalizes.result (σ := { vars := [0], body := .arrow (.var 0) (.var 0) })
  · decide
  · exact ⟨0, .param (.here 0), by decide, by decide⟩

end LetPoly
