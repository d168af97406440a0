import LetPoly.Context
import LetPoly.Proofs.Query

/-! # Well-formed environments and their runs -/

namespace LetPoly

open Store

variable {α : Type} {env : Env} {s : Store} {e : Expr} {t : Ty} {nested : Bool} {c : Context}

/-- Some scheme of the environment leads to the cell. -/
def Env.Reaches (env : Env) (s : Store) (v : Nat) : Prop :=
  ∃ σ, env.scope.Has σ ∧ s.Reaches σ.body v

/-- The cells of the environment run in no circle and lead to no absent type. -/
structure Env.Readable (env : Env) (s : Store) : Prop where
  acyclic : ∀ v, env.Reaches s v → ¬ Relation.TransGen s.Points v v
  allocated : ∀ v, env.Reaches s v → v < s.size
  complete_body : ∀ σ, env.scope.Has σ → σ.body.Complete
  complete_link : ∀ v t, env.Reaches s v → s.link v = some t → t.Complete

/-- The cells of the environment run in no circle and lead to no absent type, the cells that its
schemes share are at the first level, and the identifiers of its cells are different and below the
next one. -/
structure Env.WellFormed (env : Env) (s : Store) : Prop where
  acyclic : ∀ v, env.Reaches s v → ¬ Relation.TransGen s.Points v v
  allocated : ∀ v, env.Reaches s v → v < s.size
  complete_body : ∀ σ, env.scope.Has σ → σ.body.Complete
  complete_link : ∀ v t, env.Reaches s v → s.link v = some t → t.Complete
  level_le : ∀ v, env.scope.Free s v → s.level v ≤ 1
  distinct : ∀ v w, env.Reaches s v → env.Reaches s w → s.id v = s.id w → v = w
  below : ∀ v, env.Reaches s v → s.id v < env.nextId

/-- So many identifiers can be given from a first one on before they wrap around. -/
def Unwrapped (first : Int64) (count : Nat) : Prop :=
  first.toInt + count ≤ Int64.maxValue.toInt + 1

/-- The run did not come to the end of the identifiers. -/
def Run.NoWrap (r : Run α) (env : Env) : Prop :=
  Unwrapped env.nextId r.context.supply.count

instance (r : Run α) (env : Env) : Decidable (r.NoWrap env) :=
  inferInstanceAs (Decidable (_ ≤ _))

/-- The run gave no new cell an identifier that is quantified by a scheme of the environment which
leads to a free cell. -/
def Run.Uncaptured (r : Run α) (env : Env) (s : Store) : Prop :=
  ∀ σ, env.scope.Has σ → env.scope.Shares s σ →
    ∀ v, s.size ≤ v → v < r.store.size → σ.quantifies (r.store.id v) = false

/-! ## Starting a run -/

theorem Store.Grounded.complete_resolve (hg : s.Grounded t) (hc : t.Complete)
    (hlinks : ∀ v u, s.Reaches t v → s.link v = some u → u.Complete) :
    (s.resolve t).Complete := by
  induction hg with
  | unit => simp [Ty.Complete]
  | absent => exact hc.elim
  | free _ hnone => simp [resolve_of_free hnone, Ty.Complete]
  | @link v u hlink hg ih =>
      rw [resolve_of_link hlink hg]
      exact ih (hlinks v u (.here v) hlink) fun w u' hw => hlinks w u' (.link hlink hw)
  | arrow _ _ ihp ihr =>
      rw [resolve_arrow]
      exact ⟨ihp hc.1 fun v u hv => hlinks v u (.param hv),
        ihr hc.2 fun v u hv => hlinks v u (.ret hv)⟩

/-- The state from which a run over the environment starts. -/
def Env.start (env : Env) (s : Store) : State :=
  ⟨s, .startingAt env.nextId⟩

theorem Env.Readable.proper (h : env.Readable s) : env.scope.Proper s := by
  intro σ hσ
  have hg : s.Grounded σ.body := grounded_of_no_circle fun v hv =>
    ⟨h.allocated v ⟨σ, hσ, hv⟩, h.acyclic v ⟨σ, hσ, hv⟩⟩
  exact ⟨hg, hg.complete_resolve (h.complete_body σ hσ)
    fun v u hv => h.complete_link v u ⟨σ, hσ, hv⟩⟩

theorem Env.WellFormed.readable (h : env.WellFormed s) : env.Readable s where
  acyclic := h.acyclic
  allocated := h.allocated
  complete_body := h.complete_body
  complete_link := h.complete_link

theorem Env.WellFormed.proper (h : env.WellFormed s) : env.scope.Proper s :=
  h.readable.proper

theorem Env.WellFormed.fits (h : env.WellFormed s) : env.scope.Fits (env.start s) where
  proper := h.proper
  level_le := h.level_le
  positive := Int.le_refl 1
  ready := rfl

/-- What a run infers: the expression in the scope of the environment, one level down if the run is
nested. -/
def Env.query (env : Env) (s : Store) (e : Expr) (nested : Bool) : Query :=
  ⟨e, env.scope, (env.start s).atLevel (if nested then 2 else 1)⟩

theorem Env.WellFormed.fits_query (h : env.WellFormed s) (e : Expr) (nested : Bool) :
    env.scope.Fits (env.query s e nested).state := by
  refine h.fits.atLevel ?_
  cases nested <;> simp [start, Supply.startingAt]

/-- The computation of a run. -/
def Env.inference (env : Env) (s : Store) (e : Expr) (nested : Bool) :
    EStateM.Result (Stop Failure) State Ty :=
  (if nested then atNextLevel (infer e env.scope) else infer e env.scope) (env.start s)

/-- Nothing of what the context was is left in a restarted one. -/
theorem Context.restart_eq (c : Context) (first : Int64) :
    c.restart first = { supply := .startingAt first } := rfl

/-- A run does not depend on the context it is made with. -/
theorem Context.run_eq (c c' : Context) (env : Option Env) (he : e ≠ .absent) :
    c.run env s e nested = c'.run env s e nested := by
  simp only [run, he, if_false, restart_eq]

theorem Context.run_of_ne_absent (c : Context) (he : e ≠ .absent) :
    c.run (some env) s e nested =
      match env.inference s e nested with
      | .ok t st =>
        { result := .ok t
          context := { supply := st.supply, needsReset := true }
          env := some { env with nextId := st.supply.nextId }
          store := st.store }
      | .error (.error failure) st =>
        { result := .error (.error failure.error)
          context := { supply := st.supply, failure := some failure, needsReset := true }
          env := some { env with nextId := st.supply.nextId }
          store := st.store }
      | .error (.fault f) st =>
        { result := .error (.fault f), context := { supply := st.supply }, env := some env,
          store := st.store } := by
  simp only [run, he, if_false, restart_eq]
  rfl

theorem Context.run_leaves (c : Context) (he : e ≠ .absent) :
    (c.run (some env) s e nested).store = (leaves (env.inference s e nested)).store ∧
      (c.run (some env) s e nested).context.supply =
        (leaves (env.inference s e nested)).supply := by
  rw [run_of_ne_absent c he]
  match env.inference s e nested with
  | .ok t st => exact ⟨rfl, rfl⟩
  | .error (.error failure) st => exact ⟨rfl, rfl⟩
  | .error (.fault f) st => exact ⟨rfl, rfl⟩

theorem Context.run_of_ok (c : Context) (he : e ≠ .absent) {st : State}
    (hrun : env.inference s e nested = .ok t st) :
    (c.run (some env) s e nested).store = st.store ∧
      (c.run (some env) s e nested).context.supply = st.supply := by
  rw [run_of_ne_absent c he, hrun]
  exact ⟨rfl, rfl⟩

theorem Run.NoWrap.inference (h : (c.run (some env) s e nested).NoWrap env) (he : e ≠ .absent) :
    Unwrapped env.nextId (leaves (env.inference s e nested)).supply.count := by
  rw [← (c.run_leaves he).2]
  exact h

theorem Context.run_result_eq_ok (c : Context) :
    (c.run (some env) s e nested).result = .ok t ↔
      e ≠ .absent ∧ ∃ st, env.inference s e nested = .ok t st := by
  by_cases he : e = .absent
  · simp [run, he]
  · rw [run_of_ne_absent c he]
    match env.inference s e nested with
    | .ok t st => simp [he]
    | .error (.error failure) st => simp
    | .error (.fault f) st => simp

/-! ## The identifiers of a run -/

theorem Unwrapped.toInt_add {first : Int64} {count k : Nat} (h : Unwrapped first count)
    (hk : k < count) : (first + Int64.ofNat k).toInt = first.toInt + k := by
  have hle := first.le_toInt
  have hsize : Int64.size = 18446744073709551616 := rfl
  have hmax : Int64.maxValue.toInt = 9223372036854775807 := rfl
  rw [Unwrapped, hmax] at h
  rw [Int64.toInt_add, Int64.toInt_ofNat', Int.add_bmod_bmod, hsize]
  apply Int.bmod_eq_of_le <;> omega

theorem Env.start_numbered (env : Env) (s : Store) :
    Numbered s.size env.nextId (env.start s) where
  size_le := Nat.le_refl _
  id_eq v hv hlt := absurd hlt (Nat.not_lt_of_le hv)
  nextId_eq := by simp [start, Supply.startingAt]
  count_eq := by simp [start, Supply.startingAt]

theorem Env.inference_issues (env : Env) (s : Store) (e : Expr) (nested : Bool) :
    Issues (env.start s) (leaves (env.inference s e nested)) := by
  cases nested with
  | false => exact infer_issues e env.scope (env.start s)
  | true => exact atNextLevel_issues (infer_issues e env.scope) (env.start s)

theorem Env.query_issues (env : Env) (s : Store) (e : Expr) (nested : Bool) :
    Issues (env.start s) (env.query s e nested).state ∧
      Issues (env.query s e nested).final (leaves (env.inference s e nested)) := by
  refine ⟨issues_atLevel _ _, ?_⟩
  cases nested with
  | false => exact .refl _
  | true => exact issues_atNextLevel (infer e env.scope) (env.start s)

/-- The cells of a well-formed environment and the new cells of a run over it have different
identifiers, up to the end of the identifiers. -/
theorem Env.WellFormed.id_injOn (h : env.WellFormed s) {st : State}
    (hissues : Issues (env.start s) st) (hwrap : Unwrapped env.nextId st.supply.count) :
    Set.InjOn st.store.id {v | env.Reaches s v ∨ s.size ≤ v ∧ v < st.store.size} := by
  have hnum := hissues.numbered (env.start_numbered s)
  have hold : ∀ v, env.Reaches s v → st.store.id v = s.id v := fun v hv =>
    hissues.id_eq v (h.allocated v hv)
  have hnew : ∀ v, s.size ≤ v → v < st.store.size →
      (st.store.id v).toInt = env.nextId.toInt + (v - s.size : Nat) := by
    intro v hv hlt
    have hcount := hnum.count_eq
    rw [hnum.id_eq v hv hlt]
    exact hwrap.toInt_add (by omega)
  -- new identifiers start where those of the environment have ended
  have hbelow : ∀ v, env.Reaches s v → (st.store.id v).toInt < env.nextId.toInt := fun v hv =>
    Int64.lt_iff_toInt_lt.mp (hold v hv ▸ h.below v hv)
  rintro v hv w hw heq
  have htoInt := congrArg Int64.toInt heq
  rcases hv with hv | ⟨hv, hvlt⟩ <;> rcases hw with hw | ⟨hw, hwlt⟩
  · exact h.distinct v w hv hw (by rw [← hold v hv, ← hold w hw, heq])
  · have := hbelow v hv
    rw [htoInt, hnew w hw hwlt] at this
    omega
  · have := hbelow w hw
    rw [← htoInt, hnew v hv hvlt] at this
    omega
  · rw [hnew v hv hvlt, hnew w hw hwlt] at htoInt
    omega

/-- The numbering by the identifiers that a run leaves. -/
def Env.WellFormed.numbering (h : env.WellFormed s) {st : State} (hissues : Issues (env.start s) st)
    (hwrap : Unwrapped env.nextId st.supply.count) : Numbering where
  id := st.store.id
  live := {v | env.Reaches s v ∨ s.size ≤ v ∧ v < st.store.size}
  bound := st.store.size
  inj := h.id_injOn hissues hwrap

/-- A numbering by the identifiers that a run leaves covers the run, if all new cells matter. -/
theorem Env.covers_query {N : Numbering}
    (hid : N.id = (leaves (env.inference s e nested)).store.id)
    (hbound : N.bound = (leaves (env.inference s e nested)).store.size)
    (hlive : ∀ v, s.size ≤ v → v < N.bound → v ∈ N.live) :
    N.CoversQuery (env.query s e nested) := by
  have hissues := env.inference_issues s e nested
  obtain ⟨hstate, hfinal⟩ := env.query_issues s e nested
  have hrun : Issues (env.query s e nested).state (env.query s e nested).final :=
    infer_issues e env.scope _
  have hcovers : N.Covers (env.start s) :=
    ⟨fun v hv => hid ▸ (hissues.id_eq v hv).symm, hbound ▸ hissues.size_le, hlive⟩
  have hcovers' : N.Covers (leaves (env.inference s e nested)) :=
    ⟨fun v _ => by rw [hid], hbound.ge, fun v hv hlt => absurd (hbound ▸ hlt) (Nat.not_lt_of_le hv)⟩
  exact ⟨hcovers.between hcovers' hstate (hrun.trans hfinal),
    hcovers.between hcovers' (hstate.trans hrun) hfinal⟩

theorem Env.WellFormed.tracked (h : env.WellFormed s)
    (hwrap : Unwrapped env.nextId (leaves (env.inference s e nested)).supply.count) :
    (env.query s e nested).Tracked (h.numbering (env.inference_issues s e nested) hwrap) where
  fits := h.fits_query e nested
  covers := env.covers_query rfl rfl fun _ hv hlt => .inr ⟨hv, hlt⟩
  live σ hσ := .inr fun _ hv => .inl ⟨σ, hσ, ((h.proper σ hσ).grounded.mem_unbound.mp hv).1⟩

/-! ## An environment with an idle quantifier -/

/-- One unbound cell at the first level. -/
def idleStore : Store :=
  { cells := #[{ id := 0, level := 1 }] }

/-- One name for the cell, in a scheme that quantifies an identifier of choice. -/
def idleEnv (i : Int64) : Env :=
  { nextId := 1, scope := (∅ : Scope).insert "f" { vars := [i], body := .var 0 } }

/-- The expression `fun x -> let y = fun z -> f x in y ()`. -/
def sharingExpr : Expr :=
  .lam "x" (.letIn "y" (.lam "z" (.call (.var "f") (.var "x"))) (.call (.var "y") .unit))

theorem has_idleEnv {i : Int64} {σ : Scheme} (h : (idleEnv i).scope.Has σ) :
    σ = { vars := [i], body := .var 0 } := by
  rcases Scope.has_insert h with hσ | ⟨x, hx⟩
  · exact hσ
  · simp at hx

theorem reaches_idleEnv {i : Int64} {v : Nat} (h : (idleEnv i).Reaches idleStore v) : v = 0 := by
  obtain ⟨σ, hσ, hv⟩ := h
  rw [has_idleEnv hσ] at hv
  exact (reaches_var_of_free rfl).mp hv

theorem idleEnv_wellFormed (i : Int64) : (idleEnv i).WellFormed idleStore where
  acyclic v hv hcircle := by
    obtain ⟨w, ⟨t, hlink, -⟩, -⟩ := Relation.TransGen.head'_iff.mp hcircle
    rw [reaches_idleEnv hv] at hlink
    cases hlink
  allocated v hv := by
    rw [reaches_idleEnv hv]
    decide
  complete_body σ hσ := by
    rw [has_idleEnv hσ]
    trivial
  complete_link v t hv hlink := by
    rw [reaches_idleEnv hv] at hlink
    cases hlink
  level_le v hv := by
    obtain ⟨σ, hσ, hreach, -⟩ := hv
    rw [reaches_idleEnv ⟨σ, hσ, hreach⟩]
    decide
  distinct v w hv hw _ := (reaches_idleEnv hv).trans (reaches_idleEnv hw).symm
  below v hv := by
    rw [reaches_idleEnv hv]
    exact (by decide : (0 : Int64) < 1)

end LetPoly
