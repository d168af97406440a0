import LetPoly.Proofs.Invariance
import LetPoly.Proofs.MostGeneral

/-! # Every run ends, and at the level where it began

Whatever is inferred over an environment that can be read off, no rule of the library is broken on
the way. Each call of inference, nested as it may be, comes back with a type or an error to the
level at which it was made.
-/

namespace LetPoly

open Store

variable {α : Type} {s : Store} {e : Expr} {c : Context} {k : Query}

/-! ## One call -/

/-- A call of inference comes back with a type or an error, at the level at which it was made. The
walks on the way come to an end: what the call finds in its scope and the type that it returns can
be followed to their ends, and the unification of a call of a function needs no more links than
there are cells. -/
structure Query.Settled (k : Query) : Prop where
  ends : (∃ t, infer k.expr k.scope k.state = .ok t k.final) ∨
    ∃ f, infer k.expr k.scope k.state = .error (.error f) k.final
  level_eq : k.final.supply.level = k.state.supply.level
  scope : ∀ σ, k.scope.Has σ → k.state.store.Grounded σ.body
  result : ∀ t, infer k.expr k.scope k.state = .ok t k.final → k.final.store.Grounded t
  unify : ∀ f a func st₁ arg st₂, k.expr = .call f a → infer f k.scope k.state = .ok func st₁ →
    infer a k.scope st₁ = .ok arg st₂ → ∀ n, st₂.afterFresh.store.size ≤ n →
      unifyUpTo n func (.arrow arg (.var st₂.store.size)) st₂.afterFresh.store =
        LetPoly.unify func (.arrow arg (.var st₂.store.size)) st₂.afterFresh.store

theorem Query.settled (hk : k.scope.Usable k.state) : k.Settled := by
  have hout := infer_outcome k.expr hk
  refine ⟨?_, ?_, ?_, ?_, ?_⟩
  · unfold Query.final
    generalize infer k.expr k.scope k.state = r at hout
    cases hout with
    | ok h => exact .inl ⟨_, rfl⟩
    | error h => exact .inr ⟨_, rfl⟩
  · unfold Query.final
    generalize infer k.expr k.scope k.state = r at hout
    cases hout with
    | ok h => exact h.level_eq
    | error h => exact h.level_eq
  · intro σ hσ
    exact (hk.proper σ hσ).grounded
  · intro t hrun
    exact (infer_ok hk hrun).proper.grounded
  · intro f a func st₁ arg st₂ _ hf ha n hn
    have hf := infer_ok hk hf
    have hops := hf.operands hk (infer_ok (hk.progress hf.toProgress) ha)
    exact unifyUpTo_eq_unify hops.proper_func hops.proper_arg hn

/-! ## One run -/

/-- The run came to a result or to an error, and not to a fault. -/
def Run.Answered (r : Run α) : Prop :=
  (∃ a, r.result = .ok a) ∨ ∃ error, r.result = .error (.error error)

theorem Env.readable_empty (s : Store) : ({} : Env).Readable s := by
  have hnone : ∀ σ, ¬ ({} : Env).scope.Has σ := by
    rintro σ ⟨x, hx⟩
    simp at hx
  refine ⟨?_, ?_, ?_, ?_⟩
  · rintro v ⟨σ, hσ, -⟩
    exact absurd hσ (hnone σ)
  · rintro v ⟨σ, hσ, -⟩
    exact absurd hσ (hnone σ)
  · intro σ hσ
    exact absurd hσ (hnone σ)
  · rintro v t ⟨σ, hσ, -⟩
    exact absurd hσ (hnone σ)

theorem Env.readable_getD {env : Option Env} (henv : ∀ E ∈ env, E.Readable s) :
    (env.getD {}).Readable s := by
  cases env with
  | none => exact readable_empty s
  | some env => exact henv env rfl

/-- The run comes to an answer, and leaves the context at the first level if it found it there. -/
theorem Context.run_balanced (c : Context) {env : Option Env} (henv : ∀ E ∈ env, E.Readable s)
    (e : Expr) (nested : Bool) :
    (c.run env s e nested).Answered ∧
      (c.supply.level = 1 → (c.run env s e nested).context.supply.level = 1) := by
  by_cases he : e = .absent
  · simp only [run, he, if_true]
    exact ⟨.inr ⟨.empty, rfl⟩, id⟩
  · have hout := Env.inference_outcome (Env.readable_getD henv).proper e nested
    unfold Env.inference Env.start at hout
    simp only [run, he, if_false, restart_eq]
    generalize (if nested then _ else _ : InferM Ty) _ = r at hout ⊢
    cases hout with
    | ok h => exact ⟨.inl ⟨_, rfl⟩, fun _ => h.level_eq⟩
    | error h => exact ⟨.inr ⟨_, rfl⟩, fun _ => h.level_eq⟩

theorem Context.inferScheme_answered {env : Option Env} (h : (c.run env s e true).Answered) :
    (c.inferScheme env s e).Answered := by
  simp only [Run.Answered, inferScheme]
  rcases h with ⟨t, ht⟩ | ⟨error, herror⟩
  · rw [ht]
    exact .inl ⟨_, rfl⟩
  · rw [herror]
    exact .inr ⟨error, rfl⟩

/-! ## All runs of a context -/

/-- A context that was made anew and has since been reset or used for runs over environments that
can be read off, in any order. -/
inductive Context.Used : Context → Prop where
  | new : Used {}
  | reset {c : Context} (h : c.Used) : Used c.reset
  | run {c : Context} {env : Option Env} {s : Store} (h : c.Used)
      (henv : ∀ E ∈ env, E.Readable s) (e : Expr) (nested : Bool) :
      Used (c.run env s e nested).context

theorem Context.Used.level_eq (h : c.Used) : c.supply.level = 1 := by
  induction h with
  | new => rfl
  | @reset c _ ih =>
      unfold Context.reset
      split
      · rfl
      · exact ih
  | run _ henv e nested ih => exact (Context.run_balanced _ henv e nested).2 ih

/-- Over an environment that can be read off, or none, inference of any expression ends with a
result or an error. It leaves the context at the first level, and each of its calls comes back at
the level at which it was made. -/
theorem inference_ends_balanced (c : Context) (hc : c.Used) (env : Option Env) (s : Store)
    (henv : ∀ E ∈ env, E.Readable s) (e : Expr) :
    (c.infer env s e).Answered ∧ (c.inferScheme env s e).Answered ∧
    (c.infer env s e).context.supply.level = 1 ∧
    (c.inferScheme env s e).context.supply.level = 1 ∧
    ∀ nested k, Relation.ReflTransGen Query.Starts ((env.getD {}).query s e nested) k →
      k.Settled := by
  obtain ⟨hflat, hflatLevel⟩ := c.run_balanced henv e false
  obtain ⟨hnested, hnestedLevel⟩ := c.run_balanced henv e true
  refine ⟨hflat, Context.inferScheme_answered hnested, hflatLevel hc.level_eq,
    hnestedLevel hc.level_eq, ?_⟩
  intro nested k hk
  have hquery := (Env.readable_getD henv).proper.usable_query e nested
  exact Query.settled (Query.usable_of_visits hk hquery).1

/-- The expression `let b = f () in ?`, with a form that the calculus does not know. -/
def brokenBody : Expr :=
  .letIn "b" (.call (.var "f") .unit) (.foreign "Custom")

/-- A context that has failed on the expression. -/
def failedContext : Context :=
  (({} : Context).infer (some (idleEnv 5)) idleStore brokenBody).context

/-- The value of a local definition fails two levels down, in a context that has failed before. The
level is left again all the same. -/
theorem inference_ends_balanced_failed :
    failedContext.Used ∧ (∀ E ∈ some (idleEnv 5), E.Readable idleStore) ∧
    failedContext.failure = some ⟨.unhandled (some "Custom"), .foreign "Custom"⟩ ∧
    (failedContext.inferScheme (some (idleEnv 5)) idleStore
      (.letIn "a" brokenBody (.var "a"))).result = .error (.error (.unhandled (some "Custom"))) ∧
    (failedContext.inferScheme (some (idleEnv 5)) idleStore
      (.letIn "a" brokenBody (.var "a"))).context.supply.level = 1 ∧
    ∃ k, Relation.ReflTransGen Query.Starts
        ((idleEnv 5).query idleStore (.letIn "a" brokenBody (.var "a")) true) k ∧
      k.expr = brokenBody ∧ k.state.supply.level = 3 ∧ k.final.supply.level = 3 := by
  have henv : ∀ E ∈ some (idleEnv 5), E.Readable idleStore := by
    rintro _ ⟨⟩
    exact (idleEnv_wellFormed 5).readable
  have hused : failedContext.Used := .run .new henv brokenBody false
  obtain ⟨-, -, -, hlevel, hcalls⟩ := inference_ends_balanced failedContext hused
    (some (idleEnv 5)) idleStore henv (.letIn "a" brokenBody (.var "a"))
  have hvisit : Relation.ReflTransGen Query.Starts
      ((idleEnv 5).query idleStore (.letIn "a" brokenBody (.var "a")) true)
      ⟨brokenBody, (idleEnv 5).scope, ((idleEnv 5).start idleStore).atLevel 3⟩ := .single .value
  exact ⟨hused, henv, by decide, by decide +kernel, hlevel, _, hvisit, rfl, rfl,
    (hcalls true _ hvisit).level_eq⟩

end LetPoly
