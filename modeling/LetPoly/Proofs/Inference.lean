import LetPoly.Proofs.Collecting
import LetPoly.Proofs.Supply
import LetPoly.Proofs.Unification

/-! # What inference does to a state

Inference works on the free variables of its scope and on new variables. It leaves all else as it
was, and it never stops with a fault.
-/

namespace LetPoly

open Store

variable {ε α : Type} {st st' st₁ st₂ : State} {A B : Set Nat} {G G' : Scope} {x : String}
  {σ : Scheme} {t : Ty}

/-! ## Work on a set of variables -/

/-- The state went on by work on the unbound variables in `A` and on new ones. -/
structure Progress (A : Set Nat) (st st' : State) : Prop where
  touches : st.store.Touches st'.store A
  level_eq : st'.supply.level = st.supply.level
  table_eq : st'.supply.table = st.supply.table

/-- Progress that lowers levels only where it has to. -/
structure Advance (A : Set Nat) (st st' : State) : Prop extends Progress A st st' where
  justified : st.store.Justified st'.store A st.supply.level

theorem Progress.trans (h : Progress A st st₁) (h₁ : Progress B st₁ st₂)
    (hB : ∀ v ∈ B, v ∈ A ∨ st.store.size ≤ v) : Progress A st st₂ where
  touches := h.touches.trans h₁.touches hB
  level_eq := h₁.level_eq.trans h.level_eq
  table_eq := h₁.table_eq.trans h.table_eq

theorem Advance.trans (h : Advance A st st₁) (h₁ : Advance B st₁ st₂)
    (hB : ∀ v ∈ B, v ∈ A ∨ st.store.size ≤ v) : Advance A st st₂ where
  toProgress := h.toProgress.trans h₁.toProgress hB
  justified := h.justified.trans h.touches (h.level_eq ▸ h₁.justified) h₁.touches hB

theorem Allocated.advance (h : Allocated st st') (htable : st'.supply.table = st.supply.table)
    (hA : st.store.Active A) : Advance A st st' where
  touches := h.touches hA
  level_eq := h.level_eq
  table_eq := htable
  justified := h.justified hA

theorem Advance.refl (hA : st.store.Active A) : Advance A st st :=
  (Allocated.refl_table st.supply.table).advance rfl hA

/-- The variables of a type stay among those that are worked on. -/
theorem Store.Touches.unbound_subset {s s' : Store} {n : Nat} (h : s.Touches s' B)
    (ht : s.Grounded t) (hn : n ≤ s.size) (hB : ∀ v ∈ B, v ∈ A ∨ n ≤ v)
    (hA : ∀ v ∈ s.unbound t, v ∈ A ∨ n ≤ v) : ∀ v ∈ s'.unbound t, v ∈ A ∨ n ≤ v := by
  intro v hv
  rcases h.mem_unbound_cases ht hv with ⟨hv, -⟩ | ⟨u, -, hu, hv⟩
  · exact hA v hv
  · rcases h.reach u hu v hv with hv | hv
    · exact hB v hv
    · exact .inr (hn.trans hv)

/-! ## Scopes that fit a state -/

/-- The schemes of the scope can be read off, and the supply is ready to give instances of them. -/
structure Scope.Usable (G : Scope) (st : State) : Prop where
  proper : G.Proper st.store
  positive : 1 ≤ st.supply.level
  ready : st.supply.table = some []

/-- The scope is usable, and its free variables are not above the current level. -/
structure Scope.Fits (G : Scope) (st : State) : Prop extends G.Usable st where
  level_le : ∀ v, G.Free st.store v → st.store.level v ≤ st.supply.level

theorem Scope.Usable.active (h : G.Usable st) : st.store.Active {v | G.Free st.store v} :=
  fun _ hv => hv.active h.proper

theorem Scope.Usable.atLevel (h : G.Usable st) {ℓ : Int} (hℓ : st.supply.level ≤ ℓ) :
    G.Usable (st.atLevel ℓ) where
  proper := h.proper
  positive := h.positive.trans hℓ
  ready := h.ready

theorem Scope.Usable.nextLevel (h : G.Usable st) :
    G.Usable (st.atLevel (st.supply.level + 1)) :=
  h.atLevel (by omega)

theorem Scope.Fits.atLevel (h : G.Fits st) {ℓ : Int} (hℓ : st.supply.level ≤ ℓ) :
    G.Fits (st.atLevel ℓ) where
  toUsable := h.toUsable.atLevel hℓ
  level_le v hv := (h.level_le v hv).trans hℓ

theorem Scope.Usable.progress (h : G.Usable st) (hp : Progress A st st') : G.Usable st' where
  proper := h.proper.touches hp.touches
  positive := hp.level_eq ▸ h.positive
  ready := hp.table_eq.trans h.ready

theorem Scope.Fits.progress (h : G.Fits st) (hp : Progress A st st')
    (hA : ∀ v ∈ A, st.store.level v ≤ st.supply.level) : G.Fits st' where
  toUsable := h.toUsable.progress hp
  level_le v hv := by
    rw [hp.level_eq]
    rcases hv.of_touches h.proper hp.touches with hv | ⟨u, hu, hv⟩
    · have hlt := (hv.active h.proper).1
      exact (hp.touches.level_le v hlt).trans (h.level_le v hv)
    · exact (hp.touches.level_reach u hu v hv).trans (hA u hu)

theorem Scope.Usable.insert (h : G.Usable st) (hσ : st.store.Proper σ.body) (x : String) :
    Scope.Usable (G.insert x σ) st where
  proper := h.proper.insert hσ x
  positive := h.positive
  ready := h.ready

theorem Scope.Fits.insert (h : G.Fits st) (hσ : st.store.Proper σ.body)
    (hlevel : ∀ v, st.store.Free σ v → st.store.level v ≤ st.supply.level) (x : String) :
    Scope.Fits (G.insert x σ) st where
  toUsable := h.toUsable.insert hσ x
  level_le v hv := (Scope.free_insert hv).elim (hlevel v) (h.level_le v)

theorem Store.level_le_of_free_generalizeAt {s : Store} {ℓ : Int} {v : Nat} (ht : s.Grounded t)
    (hv : s.Free (s.generalizeAt ℓ t) v) : s.level v ≤ ℓ := by
  obtain ⟨hmem, hq⟩ := (free_iff ht).mp hv
  by_contra hlevel
  have hvars : s.id v ∈ (s.generalizeAt ℓ t).vars :=
    mem_vars_generalizeAt.mpr ⟨v, hmem, Int.not_le.mp hlevel, rfl⟩
  simp [Scheme.quantifies, hvars] at hq

/-! ## The outcome of inference -/

/-- A type was inferred by work on the free variables of the scope; its variables are among
these or new. -/
structure Inferred (G : Scope) (st : State) (t : Ty) (st' : State) : Prop
    extends Advance {v | G.Free st.store v} st st' where
  proper : st'.store.Proper t
  within : ∀ v ∈ st'.store.unbound t, G.Free st.store v ∨ st.store.size ≤ v

/-- Inference ends with a type or an error. -/
inductive InferOutcome (G : Scope) (st : State) :
    EStateM.Result (Stop Failure) State Ty → Prop where
  | ok {st' : State} {t : Ty} (h : Inferred G st t st') : InferOutcome G st (.ok t st')
  | error {st' : State} {e : Failure} (h : Progress {v | G.Free st.store v} st st') :
      InferOutcome G st (.error (.error e) st')

theorem Inferred.of_advance (h : Advance {v | G.Free st.store v} st st₁)
    (hfree : ∀ v, G'.Free st₁.store v → G.Free st.store v ∨ st.store.size ≤ v)
    (h₁ : Inferred G' st₁ t st₂) : Inferred G st t st₂ where
  toAdvance := h.trans h₁.toAdvance hfree
  proper := h₁.proper
  within v hv := by
    rcases h₁.within v hv with hv | hv
    · exact hfree v hv
    · exact .inr (h.touches.size_le.trans hv)

theorem Scope.Fits.inferred (h : G.Fits st) (hinf : Inferred G st t st') : G.Fits st' :=
  h.progress hinf.toProgress h.level_le

theorem InferOutcome.of_advance {result : EStateM.Result (Stop Failure) State Ty}
    (h : Advance {v | G.Free st.store v} st st₁)
    (hfree : ∀ v, G'.Free st₁.store v → G.Free st.store v ∨ st.store.size ≤ v)
    (h₁ : InferOutcome G' st₁ result) : InferOutcome G st result := by
  cases h₁ with
  | ok h₁ => exact .ok (.of_advance h hfree h₁)
  | error h₁ => exact .error (h.toProgress.trans h₁ hfree)

/-- A computation that starts with inference, in a scope and a state that the work so far has led
to. -/
theorem InferOutcome.bind {act : InferM Ty} {rest : Ty → InferM Ty}
    (h : Progress {v | G.Free st.store v} st st₁)
    (hfree : ∀ v, G'.Free st₁.store v → G.Free st.store v ∨ st.store.size ≤ v)
    (hact : InferOutcome G' st₁ (act st₁))
    (hrest : ∀ t st₂, Inferred G' st₁ t st₂ → InferOutcome G st (rest t st₂)) :
    InferOutcome G st ((act >>= rest) st₁) := by
  rw [bind_apply]
  generalize act st₁ = result at hact
  cases hact with
  | ok hinf => exact hrest _ _ hinf
  | error hprogress => exact .error (h.trans hprogress hfree)

theorem Progress.leave {ℓ : Int} (h : Progress A (st.atLevel ℓ) st₁) :
    Progress A st (st₁.atLevel st.supply.level) where
  touches := h.touches
  level_eq := rfl
  table_eq := h.table_eq

theorem Inferred.leave {ℓ : Int} (h : Inferred G (st.atLevel ℓ) t st₁)
    (hℓ : st.supply.level ≤ ℓ) : Inferred G st t (st₁.atLevel st.supply.level) where
  toProgress := h.toProgress.leave
  justified := h.justified.of_le hℓ
  proper := h.proper
  within := h.within

theorem atNextLevel_of_outcome {act : InferM Ty} (hpos : 1 ≤ st.supply.level)
    (h : InferOutcome G (st.atLevel (st.supply.level + 1))
      (act (st.atLevel (st.supply.level + 1)))) :
    atNextLevel act st =
      match (act (st.atLevel (st.supply.level + 1)) : EStateM.Result (Stop Failure) State Ty) with
      | .ok t st₁ => .ok t (st₁.atLevel st.supply.level)
      | .error e st₁ => .error e (st₁.atLevel st.supply.level) := by
  have hleave : ∀ st₁ : State, st₁.supply.level = st.supply.level + 1 →
      (leaveLevel : InferM Unit) st₁ = .ok () (st₁.atLevel st.supply.level) := by
    intro st₁ hlevel
    have hnot : ¬ st₁.supply.level ≤ 1 := by omega
    rw [leaveLevel_apply, if_neg hnot, hlevel, Int.add_sub_cancel]
  rw [atNextLevel_apply]
  generalize act (st.atLevel (st.supply.level + 1)) = result at h
  cases h with
  | @ok st₁ _ h => simp only [bind_apply, hleave st₁ h.level_eq, pure_apply]
  | @error st₁ _ h => simp only [bind_apply, hleave st₁ h.level_eq, throw_apply]

theorem InferOutcome.atNextLevel {act : InferM Ty} (hpos : 1 ≤ st.supply.level)
    (h : InferOutcome G (st.atLevel (st.supply.level + 1))
      (act (st.atLevel (st.supply.level + 1)))) :
    InferOutcome G st (atNextLevel act st) := by
  rw [atNextLevel_of_outcome hpos h]
  generalize act (st.atLevel (st.supply.level + 1)) = result at h
  cases h with
  | ok h => exact .ok (h.leave (by omega))
  | error h => exact .error h.leave

/-! ### Names -/

theorem InstanceOf.inferred {w : Int64 → Nat} (h : InstanceOf σ st t st' w) (hG : G.Usable st)
    (hσ : G.Has σ) : Inferred G st t st' where
  toAdvance := h.allocated.advance h.table_eq hG.active
  proper := h.proper
  within v hv := by
    have hg := (hG.proper σ hσ).grounded
    rw [unbound, h.resolve_eq, poly, Poly.inst_close, Ty.vars_subst, h.allocated.resolve_eq hg,
      List.mem_flatMap] at hv
    obtain ⟨u, hu, hv⟩ := hv
    have hid : st'.store.id u = st.store.id u := by
      simp [Store.id, h.allocated.cell_eq u (hg.lt_size_of_mem_unbound hu)]
    rw [hid] at hv
    by_cases hq : st.store.id u ∈ σ.vars
    · obtain rfl : v = w (st.store.id u) := by simpa [Scheme.quantifies, hq, Ty.vars] using hv
      exact .inr (h.new _ hq).1
    · obtain rfl : v = u := by simpa [Scheme.quantifies, hq, Ty.vars] using hv
      exact .inl ⟨σ, hσ, (free_iff hg).mpr ⟨hu, by simpa [Scheme.quantifies] using hq⟩⟩

theorem infer_var_outcome (x : String) (h : G.Usable st) :
    InferOutcome G st (infer (.var x) G st) := by
  cases hx : G[x]? with
  | none =>
      simp only [infer, hx, throw_apply]
      exact .error (Advance.refl h.active).toProgress
  | some σ =>
      obtain ⟨t, st', w, hrun, hinst⟩ := instantiate_ok (ε := Failure) h.ready (h.proper σ ⟨x, hx⟩)
      simp only [infer, hx, hrun]
      exact .ok (hinst.inferred h ⟨x, hx⟩)

/-! ### Functions -/

theorem eq_of_free_fresh {v : Nat}
    (hv : st.afterFresh.store.Free (.mono (.var st.store.size)) v) : v = st.store.size := by
  obtain ⟨hmem, -⟩ := (free_iff (proper_fresh st).grounded).mp hv
  simpa [Scheme.mono, unbound_fresh] using hmem

theorem Scope.Usable.insert_fresh (h : G.Usable st) (x : String) :
    Scope.Usable (G.insert x (.mono (.var st.store.size))) st.afterFresh :=
  (h.progress ((allocated_fresh st).advance rfl h.active).toProgress).insert (proper_fresh st) x

/-- The scope and the state in which the body of a function is inferred. -/
theorem Scope.Fits.insert_fresh (h : G.Fits st) (x : String) :
    Scope.Fits (G.insert x (.mono (.var st.store.size))) st.afterFresh := by
  have halloc := allocated_fresh st
  have hadv : Advance {v | G.Free st.store v} st st.afterFresh := halloc.advance rfl h.active
  refine (h.progress hadv.toProgress h.level_le).insert (proper_fresh st) (fun v hv => ?_) x
  rw [eq_of_free_fresh hv]
  exact Int.le_of_eq (halloc.level_new _ (Nat.le_refl _) (by simp [size_afterFresh]))

theorem Scope.Usable.free_insert_fresh (h : G.Usable st) {v : Nat}
    (hv : Scope.Free (G.insert x (.mono (.var st.store.size))) st.afterFresh.store v) :
    G.Free st.store v ∨ st.store.size ≤ v := by
  rcases Scope.free_insert hv with hv | hv
  · exact .inr (Nat.le_of_eq (eq_of_free_fresh hv).symm)
  · exact hv.of_touches_self h.proper ((allocated_fresh st).touches h.active)

theorem Inferred.lam (h : G.Usable st)
    (hbody : Inferred (G.insert x (.mono (.var st.store.size))) st.afterFresh t st') :
    Inferred G st (.arrow (.var st.store.size) t) st' := by
  have hadv : Advance {v | G.Free st.store v} st st.afterFresh :=
    (allocated_fresh st).advance rfl h.active
  have hproper := hbody.touches.proper (proper_fresh st)
  have hinf := Inferred.of_advance hadv (fun v hv => h.free_insert_fresh hv) hbody
  refine ⟨hinf.toAdvance, proper_arrow.mpr ⟨hproper, hbody.proper⟩, fun v hv => ?_⟩
  rw [unbound_arrow, List.mem_append] at hv
  rcases hv with hv | hv
  · refine hbody.touches.unbound_subset (proper_fresh st).grounded hadv.touches.size_le
      (fun v hv => h.free_insert_fresh hv) (fun u hu => ?_) v hv
    rw [unbound_fresh, List.mem_singleton] at hu
    exact .inr (Nat.le_of_eq hu.symm)
  · exact hinf.within v hv

theorem infer_lam_eq_ok {e : Expr} : infer (.lam x e) G st = .ok t st' ↔
    ∃ r, infer e (G.insert x (.mono (.var st.store.size))) st.afterFresh = .ok r st' ∧
      t = .arrow (.var st.store.size) r := by
  simp only [infer, bind_eq_ok, fresh_apply, pure_apply, EStateM.Result.ok.injEq]
  constructor
  · rintro ⟨_, _, ⟨rfl, rfl⟩, r, _, hrun, rfl, rfl⟩
    exact ⟨r, hrun, rfl⟩
  · rintro ⟨r, hrun, rfl⟩
    exact ⟨_, _, ⟨rfl, rfl⟩, r, st', hrun, rfl, rfl⟩

/-! ### Calls -/

theorem Unified.advance {s' : Store} {a b : Ty} (h : Unified st.store s' a b) :
    Advance (st.store.involved a b) st { st with store := s' } where
  touches := h.touches
  level_eq := rfl
  table_eq := rfl
  justified := h.justified _

theorem Clash.progress {s' : Store} {a b : Ty} (h : Clash st.store s' a b) :
    Progress (st.store.involved a b) st { st with store := s' } where
  touches := h.touches
  level_eq := rfl
  table_eq := rfl

/-- What is known of the two types that are unified for a call. -/
structure Operands (G : Scope) (st : State) (func arg : Ty) (st₂ : State) : Prop where
  advance : Advance {v | G.Free st.store v} st st₂.afterFresh
  proper_func : st₂.afterFresh.store.Proper func
  proper_arg : st₂.afterFresh.store.Proper (.arrow arg (.var st₂.store.size))
  within : ∀ v ∈ st₂.afterFresh.store.involved func (.arrow arg (.var st₂.store.size)),
    G.Free st.store v ∨ st.store.size ≤ v

theorem Inferred.operands {func arg : Ty} (h : G.Usable st) (hf : Inferred G st func st₁)
    (ha : Inferred G st₁ arg st₂) : Operands G st func arg st₂ := by
  have hfree₁ : ∀ v, G.Free st₁.store v → G.Free st.store v ∨ st.store.size ≤ v := fun v hv =>
    hv.of_touches_self h.proper hf.touches
  have hinf := Inferred.of_advance hf.toAdvance hfree₁ ha
  have halloc := allocated_fresh st₂
  have hproper : G.Proper st₂.store := h.proper.touches hinf.touches
  have hadv : Advance {v | G.Free st₂.store v} st₂ st₂.afterFresh :=
    halloc.advance rfl fun v hv => hv.active hproper
  have hfunc : st₂.store.Proper func := ha.touches.proper hf.proper
  refine ⟨?_, hadv.touches.proper hfunc, ?_, ?_⟩
  · exact hinf.toAdvance.trans hadv fun v hv => hv.of_touches_self h.proper hinf.touches
  · exact proper_arrow.mpr ⟨hadv.touches.proper ha.proper, proper_fresh st₂⟩
  · rintro v (hv | hv)
    · rw [unbound, halloc.resolve_eq hfunc.grounded] at hv
      exact ha.touches.unbound_subset hf.proper.grounded hf.touches.size_le hfree₁ hf.within v hv
    · rw [unbound_arrow, List.mem_append, unbound_fresh, List.mem_singleton, unbound,
        halloc.resolve_eq ha.proper.grounded] at hv
      rcases hv with hv | rfl
      · exact hinf.within v hv
      · exact .inr hinf.touches.size_le

theorem Operands.inferred {func arg : Ty} (h : Operands G st func arg st₂) {s' : Store}
    (hunified : Unified st₂.afterFresh.store s' func (.arrow arg (.var st₂.store.size))) :
    Inferred G st (.var st₂.store.size) { st₂.afterFresh with store := s' } := by
  have hvar := (proper_arrow.mp h.proper_arg).2
  refine ⟨h.advance.trans hunified.advance h.within, hunified.touches.proper hvar, ?_⟩
  refine hunified.touches.unbound_subset hvar.grounded h.advance.touches.size_le h.within ?_
  intro v hv
  exact h.within v (.inr (by simp [hv]))

theorem unifyOr_apply (failure : UnifyError → Failure) (a b : Ty) :
    unifyOr failure a b st =
      match unify a b st.store with
      | .ok _ s => .ok () { st with store := s }
      | .error (.error e) s => .error (.error (failure e)) { st with store := s }
      | .error (.fault f) s => .error (.fault f) { st with store := s } := rfl

theorem unifyOr_eq_ok {failure : UnifyError → Failure} {a b : Ty} :
    unifyOr failure a b st = .ok () st' ↔
      ∃ s', unify a b st.store = .ok () s' ∧ st' = { st with store := s' } := by
  rw [unifyOr_apply]
  match unify a b st.store with
  | .ok _ s => simp [eq_comm]
  | .error (.error e) s => simp
  | .error (.fault f) s => simp

theorem infer_call_eq_ok {f a : Expr} : infer (.call f a) G st = .ok t st' ↔
    ∃ func st₁ arg st₂ s', infer f G st = .ok func st₁ ∧ infer a G st₁ = .ok arg st₂ ∧
      unify func (.arrow arg (.var st₂.store.size)) st₂.afterFresh.store = .ok () s' ∧
      t = .var st₂.store.size ∧ st' = { st₂.afterFresh with store := s' } := by
  simp only [infer, bind_eq_ok, fresh_apply, pure_apply, EStateM.Result.ok.injEq]
  constructor
  · rintro ⟨func, st₁, hf, arg, st₂, ha, _, _, ⟨rfl, rfl⟩, _, _, hunify, rfl, rfl⟩
    obtain ⟨s', hs', rfl⟩ := unifyOr_eq_ok.mp hunify
    exact ⟨func, st₁, arg, st₂, s', hf, ha, hs', rfl, rfl⟩
  · rintro ⟨func, st₁, arg, st₂, s', hf, ha, hunify, rfl, rfl⟩
    exact ⟨func, st₁, hf, arg, st₂, ha, _, _, ⟨rfl, rfl⟩, (), _,
      unifyOr_eq_ok.mpr ⟨s', hunify, rfl⟩, rfl, rfl⟩

theorem Operands.outcome {func arg : Ty} (h : Operands G st func arg st₂)
    (failure : UnifyError → Failure) :
    InferOutcome G st
      ((do unifyOr failure func (.arrow arg (.var st₂.store.size)); return .var st₂.store.size :
        InferM Ty) st₂.afterFresh) := by
  have hout := unify_outcome h.proper_func h.proper_arg
  rw [bind_apply, unifyOr_apply]
  generalize unify func (.arrow arg (.var st₂.store.size)) st₂.afterFresh.store = result at hout
  cases hout with
  | ok hout => exact .ok (h.inferred hout)
  | error hout => exact .error (h.advance.toProgress.trans hout.progress h.within)

/-! ### Local definitions -/

theorem infer_letIn_eq_ok {e e' : Expr} : infer (.letIn x e e') G st = .ok t st' ↔
    ∃ u st₁, atNextLevel (infer e G) st = .ok u st₁ ∧
      infer e' (G.insert x (st₁.store.generalizeAt st₁.supply.level u)) st₁ = .ok t st' := by
  simp only [infer, generalize, bind_eq_ok, get_apply, pure_apply, EStateM.Result.ok.injEq]
  constructor
  · rintro ⟨u, st₁, hvalue, _, _, ⟨_, _, ⟨rfl, rfl⟩, rfl, rfl⟩, hbody⟩
    exact ⟨u, st₁, hvalue, hbody⟩
  · rintro ⟨u, st₁, hvalue, hbody⟩
    exact ⟨u, st₁, hvalue, _, _, ⟨_, _, ⟨rfl, rfl⟩, rfl, rfl⟩, hbody⟩

theorem Scope.Usable.insert_generalize (h : G.Usable st) (hinf : Inferred G st t st₁)
    (x : String) : Scope.Usable (G.insert x (st₁.store.generalizeAt st₁.supply.level t)) st₁ :=
  (h.progress hinf.toProgress).insert hinf.proper x

theorem Scope.Fits.insert_generalize (h : G.Fits st) (hinf : Inferred G st t st₁) (x : String) :
    Scope.Fits (G.insert x (st₁.store.generalizeAt st₁.supply.level t)) st₁ :=
  (h.inferred hinf).insert hinf.proper
    (fun _ hv => level_le_of_free_generalizeAt hinf.proper.grounded hv) x

theorem Inferred.free_insert_generalize (hinf : Inferred G st t st₁) (h : G.Usable st) {v : Nat}
    (hv : Scope.Free (G.insert x (st₁.store.generalizeAt st₁.supply.level t)) st₁.store v) :
    G.Free st.store v ∨ st.store.size ≤ v := by
  rcases Scope.free_insert hv with hv | hv
  · exact hinf.within v ((free_iff hinf.proper.grounded).mp hv).1
  · exact hv.of_touches_self h.proper hinf.touches

/-! ### All expressions -/

theorem infer_outcome (e : Expr) (h : G.Usable st) : InferOutcome G st (infer e G st) := by
  induction e generalizing G st with
  | unit => exact .ok ⟨.refl h.active, ⟨.unit, by simp [Ty.Complete]⟩, by simp⟩
  | var x => exact infer_var_outcome x h
  | lam x e ih =>
      have hfresh := (allocated_fresh st).advance rfl h.active
      rw [infer, bind_apply, fresh_apply]
      exact .bind hfresh.toProgress (fun v hv => h.free_insert_fresh hv) (ih (h.insert_fresh x))
        fun _ _ hbody => .ok (hbody.lam h)
  | call f a ihf iha =>
      rw [infer]
      refine .bind (Advance.refl h.active).toProgress (fun _ => .inl) (ihf h) fun func st₁ hf => ?_
      exact .bind hf.toProgress (fun v hv => hv.of_touches_self h.proper hf.touches)
        (iha (h.progress hf.toProgress)) fun _ _ ha => (hf.operands h ha).outcome _
  | letIn x e e' ihe ihe' =>
      have hvalue := (ihe h.nextLevel).atNextLevel h.positive
      rw [infer]
      refine .bind (Advance.refl h.active).toProgress (fun _ => .inl) hvalue fun u st₁ hinf => ?_
      exact (ihe' (h.insert_generalize hinf x)).of_advance hinf.toAdvance
        fun v hv => hinf.free_insert_generalize h hv
  | absent | foreign => exact .error (Advance.refl h.active).toProgress

theorem infer_ok {e : Expr} (h : G.Usable st) (hrun : infer e G st = .ok t st') :
    Inferred G st t st' := by
  have hout := infer_outcome e h
  rw [hrun] at hout
  cases hout with
  | ok hinf => exact hinf

/-- The value of a local definition, seen from the level at which it was inferred. -/
theorem atNextLevel_infer_eq_ok {e : Expr} (h : G.Usable st) :
    atNextLevel (infer e G) st = .ok t st₁ ↔
      ∃ st₀, infer e G (st.atLevel (st.supply.level + 1)) = .ok t st₀ ∧
        st₁ = st₀.atLevel st.supply.level := by
  have hout := infer_outcome e (h.atLevel (by omega : st.supply.level ≤ st.supply.level + 1))
  rw [atNextLevel_of_outcome h.positive hout]
  cases infer e G (st.atLevel (st.supply.level + 1)) with
  | ok u st₀ => simp [and_assoc, eq_comm]
  | error e st₀ => simp

theorem inferred_of_atNextLevel {e : Expr} (h : G.Usable st)
    (hrun : atNextLevel (infer e G) st = .ok t st₁) : Inferred G st t st₁ := by
  have hout := (infer_outcome e h.nextLevel).atNextLevel h.positive
  rw [hrun] at hout
  cases hout with
  | ok hinf => exact hinf

end LetPoly
