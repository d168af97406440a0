import LetPoly.Proofs.Balance

/-! # What a run leaves alone

A run works on the unbound cells that the schemes of its environment share, and on new cells. The
environment and all other cells are as they were, and a link that is made is there for good.
-/

namespace LetPoly

open Store

variable {α : Type} {s s' s₁ : Store} {k k' : Query} {e : Expr} {nested : Bool} {c : Context}
  {env : Option Env} {v : Nat}

/-! ## Stores on the way -/

theorem Query.changes (hk : k.scope.Usable k.state) : k.state.store.Changes k.final.store :=
  infer_changes k.expr hk

/-- After a part of a query comes what is left of the query. -/
theorem Query.Starts.changes (h : k.Starts k') (hk : k.scope.Usable k.state) :
    k'.final.store.Changes k.final.store := by
  cases h with
  | @lam x e G st =>
      exact changes_bind_right fun _ _ _ => .refl
  | @func f a G st =>
      apply changes_bind_right
      intro func st₁ hf
      have hf := infer_ok hk hf
      have hk₁ := hk.progress hf.toProgress
      apply changes_bind (infer_changes a hk₁)
      intro arg st₂ ha
      exact (hf.operands hk (infer_ok hk₁ ha)).changes hk.positive _
  | @arg f a G st func st₁ hf =>
      unfold Query.final
      rw [infer, bind_apply, hf]
      have hf := infer_ok hk hf
      apply changes_bind_right
      intro arg st₂ ha
      exact (hf.operands hk (infer_ok (hk.progress hf.toProgress) ha)).changes hk.positive _
  | @value x e e' G st =>
      have hvalue : (leaves (atNextLevel (infer e G) st)).store.Changes
          (Query.final ⟨.letIn x e e', G, st⟩).store := by
        apply changes_bind_right
        intro t st₁ hrun
        exact infer_changes e' (hk.insert_generalize (inferred_of_atNextLevel hk hrun) x)
      rwa [store_atNextLevel] at hvalue
  | @body x e e' G st t st₁ he =>
      unfold Query.final
      rw [infer, bind_apply, he]
      exact .refl

theorem Query.changes_of_visits (h : Relation.ReflTransGen Query.Starts k k')
    (hk : k.scope.Usable k.state) : k'.final.store.Changes k.final.store := by
  induction h with
  | refl => exact .refl
  | tail hvisit hstep ih =>
      exact (hstep.changes (Query.usable_of_visits hvisit hk).1).trans ih

/-- The store stands at the start or at the end of some call of the run. -/
def Env.Passes (env : Env) (s : Store) (e : Expr) (nested : Bool) (s₁ : Store) : Prop :=
  ∃ k, Relation.ReflTransGen Query.Starts (env.query s e nested) k ∧
    (s₁ = k.state.store ∨ s₁ = k.final.store)

/-- What a run passes through is made of the first store by changes, and changed to the last. -/
theorem Env.Passes.changes {env : Env} (h : env.Passes s e nested s₁) (hG : env.scope.Proper s) :
    s.Changes s₁ ∧ s₁.Changes (env.query s e nested).final.store := by
  obtain ⟨k, hvisit, hs₁⟩ := h
  obtain ⟨husable, hbefore⟩ := Query.usable_of_visits hvisit (hG.usable_query e nested)
  have hcall := Query.changes husable
  have hafter := Query.changes_of_visits hvisit (hG.usable_query e nested)
  rcases hs₁ with rfl | rfl
  · exact ⟨hbefore, hcall.trans hafter⟩
  · exact ⟨hbefore.trans hcall, hafter⟩

/-! ## Runs -/

theorem Env.store_inference (env : Env) (s : Store) (e : Expr) (nested : Bool) :
    (leaves (env.inference s e nested)).store = (env.query s e nested).final.store := by
  cases nested with
  | false => rfl
  | true => exact store_atNextLevel (infer e env.scope) (env.start s)

theorem Context.run_store (c : Context) (env : Option Env) (s : Store) (e : Expr) (nested : Bool) :
    (c.run env s e nested).store = ((env.getD {}).query s e nested).final.store := by
  by_cases he : e = .absent
  · simp only [run, he, if_true]
    rfl
  · rw [← Env.store_inference]
    unfold Env.inference Env.start
    simp only [run, he, if_false, restart_eq]
    generalize (if nested then _ else _ : InferM Ty) _ = r
    cases r with
    | ok t st => rfl
    | error stop st => cases stop <;> rfl

theorem Context.run_scope (c : Context) (env : Option Env) (s : Store) (e : Expr) (nested : Bool) :
    (c.run env s e nested).env.map Env.scope = env.map Env.scope := by
  by_cases he : e = .absent
  · simp only [run, he, if_true]
  · simp only [run, he, if_false, restart_eq]
    split
    · rw [Option.map_map]
      rfl
    · rw [Option.map_map]
      rfl
    · rfl

/-- A run from the store leaves the environment its names and schemes. It leaves alone the cells
that were there before, but for the unbound ones that some scheme does not quantify: these may be
lowered, and linked once. -/
structure Run.Frames (r : Run α) (env : Option Env) (s : Store) (passed : Store → Prop) : Prop where
  scope_eq : r.env.map Env.scope = env.map Env.scope
  cell_eq : ∀ v < s.size, ¬ (env.getD {}).scope.Free s v → r.store.cell v = s.cell v
  id_eq : ∀ v < s.size, r.store.id v = s.id v
  level_le : ∀ v < s.size, r.store.level v ≤ s.level v
  /-- A link is final from the first store on in which it is seen. -/
  linked_once : ∀ s₁, passed s₁ → ∀ v t, s₁.link v = some t → r.store.link v = some t
  /-- A cell that is quantified wherever it is reached is at no time linked. -/
  quantified : ∀ v < s.size,
    (∀ σ, (env.getD {}).scope.Has σ → s.Reaches σ.body v → σ.quantifies (s.id v) = true) →
      r.store.link v = s.link v ∧ ∀ s₁, passed s₁ → s₁.link v = s.link v

theorem Context.run_frames (c : Context) (henv : ∀ E ∈ env, E.Readable s) (e : Expr)
    (nested : Bool) :
    (c.run env s e nested).Frames env s ((env.getD {}).Passes s e nested) := by
  have hG := (Env.readable_getD henv).proper
  have hstore := c.run_store env s e nested
  have htouches : s.Touches (c.run env s e nested).store {v | (env.getD {}).scope.Free s v} := by
    have hout := Env.inference_outcome hG e nested
    rw [hstore, ← Env.store_inference]
    generalize (env.getD {}).inference s e nested = result at hout
    cases hout with
    | ok h => exact h.touches
    | error h => exact h.touches
  have honce : ∀ s₁, (env.getD {}).Passes s e nested s₁ → ∀ v t, s₁.link v = some t →
      (c.run env s e nested).store.link v = some t := by
    intro s₁ hs₁ v t hlink
    rw [hstore]
    exact (hs₁.changes hG).2.touches.toExtends.link_eq hlink
  refine ⟨c.run_scope env s e nested, htouches.frame, htouches.id_eq, htouches.level_le, honce, ?_⟩
  intro v hv hquantified
  have hfree : ¬ (env.getD {}).scope.Free s v := by
    rintro ⟨σ, hσ, hreach, -, hq⟩
    simp [hquantified σ hσ hreach] at hq
  have hlast : (c.run env s e nested).store.link v = s.link v := by
    rw [Store.link, htouches.frame v hv hfree, Store.link]
  refine ⟨hlast, fun s₁ hs₁ => ?_⟩
  cases hlink : s.link v with
  | some t => exact (hs₁.changes hG).1.touches.toExtends.link_eq hlink
  | none =>
      rw [hlink] at hlast
      cases hlink₁ : s₁.link v with
      | none => rfl
      | some t => simp [honce s₁ hs₁ v t hlink₁] at hlast

theorem Context.inferScheme_frames {passed : Store → Prop}
    (h : (c.run env s e true).Frames env s passed) :
    (c.inferScheme env s e).Frames env s passed :=
  ⟨h.scope_eq, h.cell_eq, h.id_eq, h.level_le, h.linked_once, h.quantified⟩

/-- However inference ends, it leaves the environment its names and schemes. Of the cells that were
there before it changes only those that some scheme of the environment reaches and does not
quantify: it links them at most once, and never raises them. -/
theorem inference_frame (c : Context) (env : Option Env) (s : Store)
    (henv : ∀ E ∈ env, E.Readable s) (e : Expr) :
    (c.infer env s e).Frames env s ((env.getD {}).Passes s e false) ∧
    (c.inferScheme env s e).Frames env s ((env.getD {}).Passes s e true) :=
  ⟨c.run_frames henv e false, Context.inferScheme_frames (c.run_frames henv e true)⟩

/-- Two unbound cells. -/
def splitStore : Store :=
  { cells := #[{ id := 0, level := 1 }, { id := 5, level := 1 }] }

/-- A function that is generic in its argument and shares its result. -/
def splitEnv : Env :=
  { nextId := 6
    scope := (∅ : Scope).insert "f" { vars := [5], body := .arrow (.var 1) (.var 0) } }

theorem has_splitEnv {σ : Scheme} (h : splitEnv.scope.Has σ) :
    σ = { vars := [5], body := .arrow (.var 1) (.var 0) } := by
  rcases Scope.has_insert h with hσ | ⟨x, hx⟩
  · exact hσ
  · simp at hx

theorem link_splitStore (v : Nat) : splitStore.link v = none :=
  match v with
  | 0 | 1 | _ + 2 => rfl

theorem splitEnv_readable : splitEnv.Readable splitStore where
  acyclic v _ hcircle := by
    obtain ⟨w, ⟨t, hlink, -⟩, -⟩ := Relation.TransGen.head'_iff.mp hcircle
    simp [link_splitStore] at hlink
  allocated v hv := by
    obtain ⟨σ, hσ, hv⟩ := hv
    rw [has_splitEnv hσ, reaches_arrow, reaches_var_of_free (link_splitStore 1),
      reaches_var_of_free (link_splitStore 0)] at hv
    have hsize : splitStore.size = 2 := rfl
    omega
  complete_body σ hσ := by
    rw [has_splitEnv hσ]
    exact ⟨trivial, trivial⟩
  complete_link v t _ hlink := by
    simp [link_splitStore] at hlink

/-- A run that fails has linked the shared result, and left the generic argument alone. -/
theorem inference_frame_split :
    let r := ({} : Context).infer (some splitEnv) splitStore
      (.call (.call (.call (.var "f") .unit) .unit) (.var "g"))
    (∀ E ∈ some splitEnv, E.Readable splitStore) ∧
    r.result = .error (.error (.unbound "g")) ∧
    r.store.link 0 = some (.var 3) ∧ r.store.link 1 = none ∧
    r.store.level 1 = 1 ∧ r.env.map Env.scope = some splitEnv.scope := by
  intro r
  have henv : ∀ E ∈ some splitEnv, E.Readable splitStore := by
    rintro _ ⟨⟩
    exact splitEnv_readable
  have hframe := (inference_frame {} (some splitEnv) splitStore henv
    (.call (.call (.call (.var "f") .unit) .unit) (.var "g"))).1
  have hnotFree : ¬ splitEnv.scope.Free splitStore 1 := by
    rintro ⟨σ, hσ, -, -, hq⟩
    rw [has_splitEnv hσ] at hq
    revert hq
    decide
  have hcell : r.store.cell 1 = splitStore.cell 1 := hframe.cell_eq 1 (by decide) hnotFree
  refine ⟨henv, by decide +kernel, by decide +kernel, ?_, ?_, hframe.scope_eq⟩
  · rw [Store.link, hcell]
    rfl
  · rw [Store.level, hcell]
    rfl

end LetPoly
