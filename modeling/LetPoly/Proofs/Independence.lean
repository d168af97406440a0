import LetPoly.Proofs.Balance
import LetPoly.Proofs.Lockstep
import LetPoly.Proofs.Rendering

/-! # Inference is independent of what went before

Over an environment whose schemes quantify all their unbound cells, a run depends neither on its
context nor on the identifiers and cells that were given out before it. A second run does the same
with other cells and other identifiers, and says the same.
-/

namespace LetPoly

open Store

variable {env : Env} {s s' : Store} {d : Int64} {e : Expr} {t : Ty} {v : Nat} {st st' : State}

/-! ## Environments that runs leave alone -/

/-- The schemes of the environment quantify all unbound cells that they lead to. -/
def Env.Closed (env : Env) (s : Store) : Prop :=
  ∀ v, ¬ env.scope.Free s v

/-- The cells of the environment are there in the second store, with their identifiers and links. -/
def Env.Kept (env : Env) (s s' : Store) : Prop :=
  ∀ v, env.Reaches s v → v < s'.size ∧ s'.id v = s.id v ∧ s'.link v = s.link v

theorem Env.Reaches.of_link {u : Ty} (hv : env.Reaches s v) (hlink : s.link v = some u) :
    ∀ w ∈ u.vars, env.Reaches s w := by
  intro w hw
  obtain ⟨σ, hσ, hreach⟩ := hv
  exact ⟨σ, hσ, hreach.trans (.link hlink (reaches_of_mem_vars hw))⟩

theorem Env.Kept.reaches (hkept : env.Kept s s') (ht : ∀ v ∈ t.vars, env.Reaches s v)
    (h : s'.Reaches t v) : s.Reaches t v := by
  induction h with
  | here v => exact .here v
  | @link v w u hlink _ ih =>
      have hv : env.Reaches s v := ht v (by simp [Ty.vars])
      rw [(hkept v hv).2.2] at hlink
      exact .link hlink (ih (hv.of_link hlink))
  | param _ ih => exact .param (ih fun v hv => ht v (List.mem_append_left _ hv))
  | ret _ ih => exact .ret (ih fun v hv => ht v (List.mem_append_right _ hv))

theorem Env.Kept.closed (hkept : env.Kept s s') (hclosed : env.Closed s) : env.Closed s' := by
  rintro v ⟨σ, hσ, hreach, hfree, hq⟩
  have hreach : s.Reaches σ.body v :=
    hkept.reaches (fun v hv => ⟨σ, hσ, reaches_of_mem_vars hv⟩) hreach
  obtain ⟨-, hid, hlink⟩ := hkept v ⟨σ, hσ, hreach⟩
  exact hclosed v ⟨σ, hσ, hreach, hlink ▸ hfree, hid ▸ hq⟩

/-! ## The second run -/

/-- How a run from another store answers to the first one, with identifiers that differ by `d`. -/
def Env.replay (d : Int64) (hkept : env.Kept s s') : Pairing where
  first := s.size
  first' := s'.size
  live := {v | env.Reaches s v ∨ s.size ≤ v}
  active := {v | s.size ≤ v}
  shift := d
  level ℓ := ℓ
  base := 1
  active_live _ hv := .inr hv
  new_active _ hv := hv
  lt_first v hv hlt := (hkept v (hv.resolve_right (Nat.not_le_of_lt hlt))).1
  level_mono _ _ h := h
  level_succ _ _ := rfl

section Replay

variable (henv : env.Readable s) (hkept : env.Kept s s')

theorem Env.replay_cell_new (hv : s.size ≤ v) :
    (replay d hkept).cell v = s'.size + (v - s.size) :=
  Pairing.cell_of_le hv

/-- Where no identifiers wrap around, those of both runs come in the order of the cells. -/
theorem Env.replay_ordered (hnum : Numbered s.size env.nextId st)
    (hnum' : Numbered s'.size (env.nextId + d) st') (hwrap : Unwrapped env.nextId st.supply.count)
    (hwrap' : Unwrapped (env.nextId + d) st'.supply.count) :
    (replay d hkept).Ordered st.store st'.store := by
  have hcount := hnum.count_eq
  have hcount' := hnum'.count_eq
  have hid : ∀ v, s.size ≤ v → v < st.store.size → (replay d hkept).cell v < st'.store.size →
      (st.store.id v).toInt = env.nextId.toInt + (v - s.size : Nat) ∧
      (st.store.id v + d).toInt = (env.nextId + d).toInt + (v - s.size : Nat) := by
    intro v hv hlt hlt'
    rw [replay_cell_new hkept hv] at hlt'
    have hshift : st.store.id v + d = env.nextId + d + Int64.ofNat (v - s.size) := by
      rw [hnum.id_eq v hv hlt]
      ac_rfl
    rw [hshift, hnum.id_eq v hv hlt, hwrap.toInt_add (by omega), hwrap'.toInt_add (by omega)]
    exact ⟨rfl, rfl⟩
  intro v hv w hw hlt hltw hlt' hltw'
  obtain ⟨hidv, hidv'⟩ := hid v hv hlt hlt'
  obtain ⟨hidw, hidw'⟩ := hid w hw hltw hltw'
  have hshift : (replay d hkept).shift = d := rfl
  rw [hshift, Int64.lt_iff_toInt_lt, Int64.lt_iff_toInt_lt, hidv, hidv', hidw, hidw']
  omega

include henv

theorem Env.replay_cell (hv : env.Reaches s v) : (replay d hkept).cell v = v :=
  if_pos (henv.allocated v hv)

theorem Env.replay_rename (ht : ∀ v ∈ t.vars, env.Reaches s v) :
    t.rename (replay d hkept).cell = t :=
  Ty.subst_eq_self fun v hv => by rw [replay_cell henv hkept (ht v hv)]

theorem Env.replay_paired : (replay d hkept).Paired s s' where
  first_le := Nat.le_refl _
  size_eq := by rw [replay_cell_new hkept (Nat.le_refl _), Nat.sub_self, Nat.add_zero]
  link_eq v hv := by
    rcases hv with hv | hv
    · rw [replay_cell henv hkept hv, (hkept v hv).2.2]
      cases hlink : s.link v with
      | none => rfl
      | some t => rw [Option.map_some, replay_rename henv hkept (hv.of_link hlink)]
    · have hle : s'.size ≤ (replay d hkept).cell v := by
        rw [replay_cell_new hkept hv]
        exact Nat.le_add_right _ _
      rw [link_of_size_le hv, link_of_size_le hle]
      rfl
  live_link v hv t hlink w hw := by
    rcases hv with hv | hv
    · exact .inl (hv.of_link hlink w hw)
    · rw [link_of_size_le hv] at hlink
      cases hlink
  id_eq v hv hlt := absurd hlt (Nat.not_lt_of_le hv)
  level_eq v hv hlt := absurd hlt (Nat.not_lt_of_le hv)

theorem Env.replay_schemes (hclosed : env.Closed s) {σ : Scheme} (hσ : env.scope.Has σ) :
    (replay d hkept).Schemes s s' σ σ := by
  have hreach : ∀ v ∈ σ.body.vars, env.Reaches s v := fun v hv => ⟨σ, hσ, reaches_of_mem_vars hv⟩
  have hg := (henv.proper σ hσ).grounded
  refine ⟨(replay_rename henv hkept hreach).symm, fun v hv => .inl (hreach v hv), ?_, 0, ?_, ?_⟩
  · exact fun v hv => absurd ⟨σ, hσ, hv⟩ (hclosed v)
  · simp
  · intro v hv
    have hv : env.Reaches s v := ⟨σ, hσ, (hg.mem_unbound.mp hv).1⟩
    rw [replay_cell henv hkept hv, (hkept v hv).2.1, Int64.add_zero]

include hkept in
theorem Env.Kept.proper : env.scope.Proper s' := by
  intro σ hσ
  have hreach : ∀ v ∈ σ.body.vars, env.Reaches s v := fun v hv => ⟨σ, hσ, reaches_of_mem_vars hv⟩
  have hbody := (replay_paired (d := 0) henv hkept).proper (henv.proper σ hσ)
    fun v hv => .inl (hreach v hv)
  rwa [replay_rename henv hkept hreach] at hbody

theorem Env.replay_starts (hclosed : env.Closed s) :
    (replay d hkept).Starts env.scope (env.start s) env.scope
      (Env.start { env with nextId := env.nextId + d } s') := by
  refine ⟨⟨replay_paired henv hkept, rfl, rfl, Int.le_refl 1, rfl⟩, fun x => ?_,
    henv.proper.usable, Kept.proper henv hkept, Int.le_refl 1, rfl⟩
  cases hx : env.scope[x]? with
  | none => exact .none
  | some σ => exact .some (replay_schemes henv hkept hclosed ⟨x, hx⟩)

theorem Env.replay_inStep (hclosed : env.Closed s)
    (hwrap : Unwrapped env.nextId (leaves (env.inference s e false)).supply.count)
    (hwrap' : Unwrapped (env.nextId + d)
      (leaves (Env.inference { env with nextId := env.nextId + d } s' e false)).supply.count) :
    InStep (replay d hkept).Infers (replay d hkept).InferStops (env.inference s e false)
      (Env.inference { env with nextId := env.nextId + d } s' e false) := by
  have hnum := (env.inference_issues s e false).numbered (env.start_numbered s)
  have hnum' := (Env.inference_issues { env with nextId := env.nextId + d } s' e false).numbered
    (Env.start_numbered _ s')
  exact Pairing.infer_inStep e (replay_starts henv hkept hclosed)
    (replay_ordered hkept hnum hnum' hwrap hwrap')

end Replay

/-! ## Histories -/

/-- The context and the store that runs over the environment lead to, whatever they come to and
whatever identifiers they take. -/
inductive Env.History (env : Env) (s : Store) : Context → Store → Prop where
  | start (c : Context) : History env s c s
  | run {c : Context} {s₁ : Store} (h : History env s c s₁) (next : Int64) (e : Expr)
      (nested : Bool) :
      History env s (c.run (some { env with nextId := next }) s₁ e nested).context
        (c.run (some { env with nextId := next }) s₁ e nested).store

/-- Runs over the environment leave its cells alone. -/
theorem Env.History.kept {c : Context} (h : env.History s c s') (henv : env.Readable s)
    (hclosed : env.Closed s) : env.Kept s s' := by
  induction h with
  | start => exact fun v hv => ⟨henv.allocated v hv, rfl, rfl⟩
  | @run c s₁ _ next e nested ih =>
      have hproper := Kept.proper henv ih
      obtain ⟨st, hended⟩ : ∃ st, (c.run (some { env with nextId := next }) s₁ e nested).Ended
        { env with nextId := next } s₁ st := c.run_ended e nested hproper
      have htouches := hended.progress.touches
      intro v hv
      obtain ⟨hlt, hid, hlink⟩ := ih v hv
      have hcell := htouches.frame v hlt (ih.closed hclosed v)
      rw [hended.store_eq]
      exact ⟨hlt.trans_le htouches.size_le, (congrArg Cell.id hcell).trans hid,
        (congrArg Cell.link hcell).trans hlink⟩

/-- Two runs over the same environment, from contexts and stores with different histories and with
identifiers that differ by `d`, have the same outcome. Their types differ in the identifiers of new
cells only, and have the same text; their failures are the same, and have the same text. -/
theorem infer_independent_of_history (c c' : Context) (env : Env) (d : Int64) (s s' : Store)
    (e : Expr) (he : e ≠ .absent) (henv : env.Readable s) (hclosed : env.Closed s)
    (hkept : env.Kept s s') (hwrap : (c.infer (some env) s e).NoWrap env)
    (hwrap' : (c'.infer (some { env with nextId := env.nextId + d }) s' e).NoWrap
      { env with nextId := env.nextId + d }) :
    let r := c.infer (some env) s e
    let r' := c'.infer (some { env with nextId := env.nextId + d }) s' e
    ((∃ t, r.result = .ok t) ↔ ∃ t', r'.result = .ok t') ∧
    (∀ t t', r.result = .ok t → r'.result = .ok t' →
      r'.store.resolve t' = (r.store.resolve t).rename (twin s.size s'.size) ∧
      (∀ v ∈ r.store.unbound t,
        s.size ≤ v ∧ r'.store.id (twin s.size s'.size v) = r.store.id v + d) ∧
      r'.store.renderTy t' = r.store.renderTy t) ∧
    (∀ stop, r.result = .error stop → ∃ error, stop = .error error ∧
      r'.result = .error (.error (error.rename (twin s.size s'.size))) ∧
      (error.rename (twin s.size s'.size)).message r'.store = error.message r.store) ∧
    r'.context.failure.map Failure.invalid = r.context.failure.map Failure.invalid ∧
    r'.store.size - s'.size = r.store.size - s.size := by
  intro r r'
  have hstart := Env.replay_starts (d := d) henv hkept hclosed
  have hout := env.inference_outcome henv.proper e false
  have hstep := Env.replay_inStep henv hkept hclosed (hwrap.inference he) (hwrap'.inference he)
  simp only [r, r', Context.infer, c'.run_eq c _ he, c.run_of_ne_absent he]
  generalize env.inference s e false = x at hstep hout
  generalize Env.inference { env with nextId := env.nextId + d } s' e false = x' at hstep
  have hsize : ∀ {st st' : State}, (Env.replay d hkept).States st st' →
      st'.store.size - s'.size = st.store.size - s.size := by
    intro st st' hst
    have hsize := hst.stores.size_eq
    rw [Env.replay_cell_new hkept hst.stores.first_le] at hsize
    omega
  cases hstep with
  | ok h =>
      obtain ⟨hst, rfl, hlive⟩ := h
      cases hout with
      | ok hinf =>
          have hplay := hstart.inPlay hinf hlive
          have hg := hinf.proper.grounded
          refine ⟨by simp, ?_, by simp, rfl, hsize hst⟩
          rintro _ _ ⟨⟩ ⟨⟩
          refine ⟨hst.stores.resolve_rename hg hlive, fun v hv => ⟨hplay.active v hv, ?_⟩,
            hst.stores.renderTy_rename hplay⟩
          exact hst.stores.id_eq v (hplay.active v hv) (hg.lt_size_of_mem_unbound hv)
  | error h =>
      cases h with
      | error hst htypes =>
          refine ⟨by simp, by simp, ?_, rfl, hsize hst⟩
          rintro _ ⟨⟩
          exact ⟨_, rfl, rfl, hst.stores.message_infer htypes⟩

/-- The expression `let p = fun x -> fun y -> f x in p`. -/
def ignoredArgument : Expr :=
  .letIn "p" (.lam "x" (.lam "y" (.call (.var "f") (.var "x")))) (.var "p")

theorem idleEnv_closed : (idleEnv 0).Closed idleStore := by
  rintro v ⟨σ, hσ, hreach, -, hq⟩
  rw [has_idleEnv hσ, reaches_idleEnv ⟨σ, hσ, hreach⟩] at hq
  cases hq

/-- A run that failed has given out two identifiers. The next run gives the same type with the
identifiers after them. -/
theorem infer_independent_of_history_failed :
    let failed := ({} : Context).infer (some (idleEnv 0)) idleStore brokenBody
    let r := ({} : Context).infer (some (idleEnv 0)) idleStore ignoredArgument
    let r' := failed.context.infer (some { idleEnv 0 with nextId := (idleEnv 0).nextId + 2 })
      failed.store ignoredArgument
    failed.result = .error (.error (.unhandled (some "Custom"))) ∧
    failed.env.map Env.nextId = some ((idleEnv 0).nextId + 2) ∧
    (idleEnv 0).Readable idleStore ∧ (idleEnv 0).Closed idleStore ∧
    (idleEnv 0).Kept idleStore failed.store ∧
    r.result = .ok (.arrow (.var 5) (.arrow (.var 6) (.var 7))) ∧
    r'.result = .ok (.arrow (.var 7) (.arrow (.var 8) (.var 9))) ∧
    r'.store.id 9 = r.store.id 7 + 2 ∧
    r'.store.renderTy (.arrow (.var 7) (.arrow (.var 8) (.var 9))) =
      r.store.renderTy (.arrow (.var 5) (.arrow (.var 6) (.var 7))) := by
  intro failed r r'
  have henv := (idleEnv_wellFormed 0).readable
  have hhistory : (idleEnv 0).History idleStore failed.context failed.store :=
    .run (.start {}) 1 brokenBody false
  have hkept := hhistory.kept henv idleEnv_closed
  have hresult : r.result = .ok (.arrow (.var 5) (.arrow (.var 6) (.var 7))) := by decide +kernel
  have hresult' : r'.result = .ok (.arrow (.var 7) (.arrow (.var 8) (.var 9))) := by decide +kernel
  obtain ⟨-, hok, -⟩ := infer_independent_of_history {} failed.context (idleEnv 0) 2 idleStore
    failed.store ignoredArgument (by decide) henv idleEnv_closed hkept (by decide +kernel)
    (by decide +kernel)
  obtain ⟨-, hids, htext⟩ := hok _ _ hresult hresult'
  have hid := (hids 7 (by decide +kernel)).2
  exact ⟨by decide +kernel, by decide +kernel, henv, idleEnv_closed, hkept, hresult, hresult', hid,
    htext⟩

end LetPoly
