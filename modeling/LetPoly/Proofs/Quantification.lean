import LetPoly.Proofs.Failing
import LetPoly.Proofs.Instantiation
import LetPoly.Proofs.WellFormed

/-! # What generalization quantifies

Generalization quantifies the unbound variables above a level and lists their identifiers in order.
The new variables of an instance that was made one level down are such variables. So the instance
generalizes to the scheme again, with other identifiers for the quantified variables.
-/

namespace LetPoly

open Store

variable {ε : Type} {st st' : State} {σ : Scheme} {t : Ty} {i : Int64}
  {level : Int} {f : Nat → Nat} {v w : Nat} {pos : List Ty.Half}

/-! ## Collecting identifiers -/

/-- Generalization lists in ascending order the identifiers of the unbound variables that the type
reaches above the level, and of no others. It keeps the type and leaves the state as it is. -/
theorem generalize_collects (st : State) (level : Int) (t : Ty) (hacyclic : st.store.Acyclic)
    (hclosed : st.store.Closed) (ht : ∀ v ∈ t.vars, v < st.store.size) :
    (st.store.generalizeAt level t).vars.Pairwise (· < ·) ∧
    (∀ i, i ∈ (st.store.generalizeAt level t).vars ↔
      ∃ v, st.store.Reaches t v ∧ st.store.link v = none ∧ level < st.store.level v ∧
        st.store.id v = i) ∧
    (st.store.generalizeAt level t).body = t ∧
    (generalize t : Action ε Scheme) (st.atLevel level) =
      .ok (st.store.generalizeAt level t) (st.atLevel level) := by
  refine ⟨Scheme.pairwise_arrange _, fun i => ?_, rfl, rfl⟩
  simp only [mem_vars_generalizeAt, (hacyclic.grounded hclosed ht).mem_unbound, and_assoc]

/-- The first variable is found behind a link, after the last one, and that one is found twice. -/
theorem generalize_collects_chain :
    chainStore.Acyclic ∧ chainStore.Closed ∧
    (chainStore.generalizeAt 0 (.arrow (.var 2) (.arrow (.var 1) (.var 2)))).vars = [0, 2] ∧
    ∀ i, i ∈ (chainStore.generalizeAt 0 (.arrow (.var 2) (.arrow (.var 1) (.var 2)))).vars ↔
      ∃ v, chainStore.Reaches (.arrow (.var 2) (.arrow (.var 1) (.var 2))) v ∧
        chainStore.link v = none ∧ 0 < chainStore.level v ∧ chainStore.id v = i := by
  have hacyclic := acyclic_of_grounded chainStore_grounded
  obtain ⟨-, hmem, -⟩ := generalize_collects (ε := Failure) crossingState 0
    (.arrow (.var 2) (.arrow (.var 1) (.var 2))) hacyclic chainStore_closed (by decide)
  exact ⟨hacyclic, chainStore_closed, by decide, hmem⟩

/-! ## Identifiers and levels of an instance -/

/-- The identifier that stands in an instance for an identifier of the scheme. -/
def State.instanceId (st : State) (σ : Scheme) (i : Int64) : Int64 :=
  if i ∈ σ.vars then st.supply.nextId + Int64.ofNat (lastIdxOf i σ.vars) else i

theorem State.instanceId_of_mem (hi : i ∈ σ.vars) :
    st.instanceId σ i = st.supply.nextId + Int64.ofNat (lastIdxOf i σ.vars) :=
  if_pos hi

theorem State.instanceId_of_not_mem (hi : i ∉ σ.vars) : st.instanceId σ i = i :=
  if_neg hi

theorem ExactInstance.id_instanceVar (h : ExactInstance σ st t st')
    (hv : v ∈ st.store.unbound σ.body) :
    st'.store.id (st.instanceVar σ v) = st.instanceId σ (st.store.id v) := by
  by_cases hq : st.store.id v ∈ σ.vars
  · rw [State.instanceVar_of_mem hq, State.instanceId_of_mem hq, Store.id,
      h.adds.cell_new _ (lastIdxOf_lt hq)]
  · rw [State.instanceVar_of_not_mem hq, State.instanceId_of_not_mem hq,
      h.adds.id_eq (h.grounded.lt_size_of_mem_unbound hv)]

/-- What the scheme has free is not above the level and has an identifier that was given out, and
there are identifiers left for an instance. -/
structure Scheme.Below (σ : Scheme) (st : State) (level : Int) : Prop where
  level_le : ∀ v, st.store.Free σ v → st.store.level v ≤ level
  id_lt : ∀ v, st.store.Free σ v → st.store.id v < st.supply.nextId
  unwrapped : Unwrapped st.supply.nextId σ.vars.length

theorem Scheme.Below.toInt_instanceId (h : σ.Below st level) (hi : i ∈ σ.vars) :
    (st.instanceId σ i).toInt = st.supply.nextId.toInt + lastIdxOf i σ.vars := by
  rw [State.instanceId_of_mem hi]
  exact h.unwrapped.toInt_add (lastIdxOf_lt hi)

/-- An identifier that is not quantified comes before all identifiers of new variables. -/
theorem Scheme.Below.toInt_lt (h : σ.Below st level) (hσ : st.store.Grounded σ.body)
    (hi : i ∈ st.store.idsOf [σ.body]) (hq : i ∉ σ.vars) : i.toInt < st.supply.nextId.toInt := by
  obtain ⟨t, ht, v, hv, rfl⟩ := mem_idsOf.mp hi
  obtain rfl := List.mem_singleton.mp ht
  exact Int64.lt_iff_toInt_lt.mp (h.id_lt v ((free_iff_not_mem hσ).mpr ⟨hv, hq⟩))

theorem Scheme.Below.injOn (h : σ.Below st level) (hσ : st.store.Grounded σ.body) :
    Set.InjOn (st.instanceId σ) {i | i ∈ st.store.idsOf [σ.body]} := by
  intro i hi j hj heq
  have hints := congrArg Int64.toInt heq
  -- new identifiers differ by their entries, and all of them come after the others
  by_cases hqi : i ∈ σ.vars
  · by_cases hqj : j ∈ σ.vars
    · rw [h.toInt_instanceId hqi, h.toInt_instanceId hqj] at hints
      exact lastIdxOf_inj hqi hqj (by omega)
    · have hlt := h.toInt_lt hσ hj hqj
      rw [h.toInt_instanceId hqi, State.instanceId_of_not_mem hqj] at hints
      omega
  · by_cases hqj : j ∈ σ.vars
    · have hlt := h.toInt_lt hσ hi hqi
      rw [h.toInt_instanceId hqj, State.instanceId_of_not_mem hqi] at hints
      omega
    · rwa [State.instanceId_of_not_mem hqi, State.instanceId_of_not_mem hqj] at heq

theorem ExactInstance.level_le_of_not_mem (h : ExactInstance σ st t st') (hbelow : σ.Below st level)
    (hv : v ∈ st.store.unbound σ.body) (hq : st.store.id v ∉ σ.vars) :
    st'.store.level (st.instanceVar σ v) ≤ level := by
  rw [State.instanceVar_of_not_mem hq, Store.level,
    h.adds.cell_old v (h.grounded.lt_size_of_mem_unbound hv)]
  exact hbelow.level_le v ((free_iff_not_mem h.grounded).mpr ⟨hv, hq⟩)

/-! ## The instance generalized -/

/-- Just the variables that stand for quantified ones are quantified again. -/
theorem ExactInstance.mem_vars_iff (h : ExactInstance σ st t st') (hbelow : σ.Below st level)
    (hlevel : level < st.supply.level) (hv : v ∈ st.store.unbound σ.body) :
    st'.store.id (st.instanceVar σ v) ∈ (st'.store.generalizeAt level t).vars ↔
      st.store.id v ∈ σ.vars := by
  have hmem : ∀ w ∈ st.store.unbound σ.body, st.store.id w ∈ st.store.idsOf [σ.body] :=
    fun w hw => mem_idsOf.mpr ⟨_, List.mem_singleton_self _, w, hw, rfl⟩
  rw [mem_vars_generalizeAt, h.unbound_eq]
  constructor
  · rintro ⟨_, himage, hlt, hid⟩
    obtain ⟨w, hw, rfl⟩ := List.mem_map.mp himage
    -- the two variables of the scheme have the same identifier, and the one is above the level
    rw [h.id_instanceVar hw, h.id_instanceVar hv] at hid
    rw [← hbelow.injOn h.grounded (hmem w hw) (hmem v hv) hid]
    by_contra hq
    exact Int.not_lt.mpr (h.level_le_of_not_mem hbelow hw hq) hlt
  · intro hq
    refine ⟨_, List.mem_map_of_mem hv, ?_, rfl⟩
    rwa [State.instanceVar_of_mem hq, Store.level, h.adds.cell_new _ (lastIdxOf_lt hq)]

theorem ExactInstance.renderScheme_eq (h : ExactInstance σ st t st') (hbelow : σ.Below st level)
    (hlevel : level < st.supply.level) (hσ : (st.store.resolve σ.body).Complete) :
    st'.store.renderScheme (st'.store.generalizeAt level t) = st.store.renderScheme σ := by
  have ht : (st'.store.resolve t).Complete := by
    rwa [h.resolve_eq, Ty.complete_rename]
  have hcongruent : (st.store.resolve σ.body).Congruent
      (fun v w => st'.store.id w = st.instanceId σ (st.store.id v)) (st'.store.resolve t) := by
    rw [h.resolve_eq]
    exact hσ.congruent_rename fun v hv => h.id_instanceVar hv
  have hcorresponds : st.store.Corresponds st'.store (fun i j => j = st.instanceId σ i)
      [σ.body] [t] := .cons hcongruent .nil
  have hinj := hbelow.injOn h.grounded
  rw [← List.singleton_inj, Store.renderScheme_eq, Store.renderScheme_eq, eq_comm]
  refine (textsBy_eq_iff (List.forall_mem_singleton.mpr hσ) (List.forall_mem_singleton.mpr ht)).mpr
    ⟨st.instanceId σ, ?_, hcorresponds, fun i hi => ?_⟩
  · have himage : {j | j ∈ st'.store.idsOf [t]} =
        st.instanceId σ '' {i | i ∈ st.store.idsOf [σ.body]} := by
      ext j
      simp [hcorresponds.idsOf_eq hinj]
    exact himage ▸ hinj.bijOn_image
  · obtain ⟨u, hu, v, hv, rfl⟩ := mem_idsOf.mp hi
    obtain rfl := List.mem_singleton.mp hu
    have hquantified := h.mem_vars_iff hbelow hlevel hv
    rw [h.id_instanceVar hv] at hquantified
    rw [Bool.eq_iff_iff]
    simpa [Scheme.quantifies] using hquantified.symm

/-- New cells leave the text of a scheme as it is. -/
theorem Adds.renderScheme_eq {n : Nat} (h : Adds n st st') (hσ : st.store.Grounded σ.body) :
    st'.store.renderScheme σ = st.store.renderScheme σ := by
  have hid : ∀ v ∈ st.store.unbound σ.body, st'.store.id v = st.store.id v := fun v hv =>
    h.id_eq (hσ.lt_size_of_mem_unbound hv)
  have hids : st'.store.idsOf [σ.body] = st.store.idsOf [σ.body] := by
    simp only [idsOf, List.flatMap_singleton, h.unbound_eq hσ, List.map_congr_left hid]
  have htext := Ty.renderAt_rename (f := fun v => v) false fun v hv =>
    congrArg (idName σ.quantifies (st.store.idsOf [σ.body])) (hid v hv)
  rw [Ty.rename, Ty.subst_var] at htext
  rw [← List.singleton_inj, Store.renderScheme_eq, Store.renderScheme_eq, textsBy, textsBy,
    List.map_singleton, List.map_singleton, h.allocated.resolve_eq hσ, hids, htext]

/-! ## Positions -/

theorem Ty.component?_rename :
    (t.rename f).component? pos = (t.component? pos).map (Ty.rename f) := by
  induction pos generalizing t with
  | nil => rfl
  | cons half pos ih =>
      cases t with
      | unit | absent | var => cases half <;> rfl
      | arrow p r =>
          cases half with
          | param => exact ih
          | ret => exact ih

theorem Ty.mem_vars_of_component? (h : t.component? pos = some (.var v)) : v ∈ t.vars := by
  induction pos generalizing t with
  | nil =>
      obtain rfl := Option.some.inj h
      simp [vars]
  | cons half pos ih =>
      cases t with
      | unit | absent | var => cases half <;> simp [component?] at h
      | arrow p r =>
          cases half with
          | param => exact List.mem_append_left _ (ih h)
          | ret => exact List.mem_append_right _ (ih h)

theorem Ty.component?_rename_eq_var :
    (t.rename f).component? pos = some (.var w) ↔
      ∃ v, t.component? pos = some (.var v) ∧ f v = w := by
  rw [component?_rename, Option.map_eq_some_iff]
  constructor
  · rintro ⟨u, hu, hw⟩
    cases u with
    | var v => exact ⟨v, hu, Ty.var.inj hw⟩
    | unit | absent | arrow => simp at hw
  · rintro ⟨v, hv, rfl⟩
    exact ⟨.var v, hv, rfl⟩

/-- The variables that are not quantified are the same at the same positions. -/
theorem ExactInstance.component?_iff (h : ExactInstance σ st t st') (hbelow : σ.Below st level)
    (hlevel : level < st.supply.level) :
    ((st'.store.resolve t).component? pos = some (.var v) ∧
        st'.store.id v ∉ (st'.store.generalizeAt level t).vars) ↔
      (st.store.resolve σ.body).component? pos = some (.var v) ∧ st.store.id v ∉ σ.vars := by
  rw [h.resolve_eq, Ty.component?_rename_eq_var]
  constructor
  · rintro ⟨⟨u, hu, rfl⟩, hq⟩
    rw [h.mem_vars_iff hbelow hlevel (Ty.mem_vars_of_component? hu)] at hq
    rw [State.instanceVar_of_not_mem hq]
    exact ⟨hu, hq⟩
  · rintro ⟨hv, hq⟩
    have hself := State.instanceVar_of_not_mem hq
    refine ⟨⟨v, hv, hself⟩, fun hmem => hq ?_⟩
    rw [← hself] at hmem
    exact (h.mem_vars_iff hbelow hlevel (Ty.mem_vars_of_component? hv)).mp hmem

/-- The variables that are quantified again are new. -/
theorem ExactInstance.size_le_of_mem_vars (h : ExactInstance σ st t st') (hbelow : σ.Below st level)
    (hlevel : level < st.supply.level) (hv : v ∈ st'.store.unbound t)
    (hq : st'.store.id v ∈ (st'.store.generalizeAt level t).vars) : st.store.size ≤ v := by
  rw [h.unbound_eq] at hv
  obtain ⟨u, hu, rfl⟩ := List.mem_map.mp hv
  rw [State.instanceVar_of_mem ((h.mem_vars_iff hbelow hlevel hu).mp hq)]
  exact Nat.le_add_right _ _

theorem instantiate_nextLevel (hready : st.supply.table = some []) (hlevel : 1 ≤ st.supply.level)
    (hσ : st.store.Grounded σ.body) :
    ∃ t st', (do enterLevel; let t ← instantiate σ; leaveLevel; generalize t : Action ε Scheme) st =
        .ok (st'.store.generalizeAt st.supply.level t) (st'.atLevel st.supply.level) ∧
      ExactInstance σ (st.atLevel (st.supply.level + 1)) t st' := by
  have hnext : (st.atLevel (st.supply.level + 1)).supply.table = some [] := hready
  obtain ⟨t, st', hrun, hinst⟩ := instantiate_instance (ε := ε) (σ := σ) hnext hσ
  have henter : (enterLevel : Action ε Unit) st = .ok () (st.atLevel (st.supply.level + 1)) := rfl
  have hst' : st'.supply.level = st.supply.level + 1 := hinst.adds.allocated.level_eq
  have hleave : (leaveLevel : Action ε Unit) st' = .ok () (st'.atLevel st.supply.level) := by
    rw [leaveLevel_apply, hst', if_neg (by omega), Int.add_sub_cancel]
  refine ⟨t, st', ?_, hinst⟩
  simp only [bind_apply, henter, hrun, hleave]
  rfl

/-- An instance that is made one level down generalizes to the scheme again: the text is the same,
the variables that are not quantified are the same at the same positions, and the quantified ones
are new. -/
theorem generalize_instantiate (σ : Scheme) (st : State) (hready : st.supply.table = some [])
    (hlevel : 1 ≤ st.supply.level) (hacyclic : st.store.Acyclic) (hclosed : st.store.Closed)
    (hσ : ∀ v ∈ σ.body.vars, v < st.store.size) (hcomplete : (st.store.resolve σ.body).Complete)
    (hfree : ∀ v, st.store.Free σ v →
      st.store.level v ≤ st.supply.level ∧ st.store.id v < st.supply.nextId)
    (hwrap : Unwrapped st.supply.nextId σ.vars.length) :
    ∃ τ st', (do enterLevel; let t ← instantiate σ; leaveLevel; generalize t : Action ε Scheme) st =
        .ok τ st' ∧
      st'.store.renderScheme τ = st.store.renderScheme σ ∧
      st'.store.renderScheme σ = st.store.renderScheme σ ∧
      (∀ pos v, ((st'.store.resolve τ.body).component? pos = some (.var v) ∧
          st'.store.id v ∉ τ.vars) ↔
        (st.store.resolve σ.body).component? pos = some (.var v) ∧ st.store.id v ∉ σ.vars) ∧
      ∀ v ∈ st'.store.unboundCells [τ.body], st'.store.id v ∈ τ.vars →
        st.store.size ≤ v ∧ v < st'.store.size := by
  have hg := hacyclic.grounded hclosed hσ
  obtain ⟨t, st', hrun, hinst⟩ := instantiate_nextLevel (ε := ε) hready hlevel hg
  have hbelow : σ.Below (st.atLevel (st.supply.level + 1)) st.supply.level :=
    ⟨fun v hv => (hfree v hv).1, fun v hv => (hfree v hv).2, hwrap⟩
  have habove : st.supply.level < (st.atLevel (st.supply.level + 1)).supply.level :=
    Int.lt_succ _
  refine ⟨_, _, hrun, hinst.renderScheme_eq hbelow habove hcomplete, hinst.adds.renderScheme_eq hg,
    fun pos v => hinst.component?_iff hbelow habove, ?_⟩
  rintro v ⟨u, hu, hreach, hlink⟩ hq
  obtain rfl := List.mem_singleton.mp hu
  have hmem := hinst.grounded'.mem_unbound.mpr ⟨hreach, hlink⟩
  exact ⟨hinst.size_le_of_mem_vars hbelow habove hmem hq, hinst.lt_size hmem⟩

/-- The first new identifier is one that the scheme quantifies. The scheme lists it twice, and it
lists one that does not occur. The variable that is not quantified is met behind a link as well. -/
theorem generalize_instantiate_chain :
    crossingState.supply.table = some [] ∧ 1 ≤ crossingState.supply.level ∧
    chainStore.Acyclic ∧ chainStore.Closed ∧
    (∀ v, chainStore.Free chainScheme v → chainStore.level v ≤ 1 ∧ chainStore.id v < 2) ∧
    ∃ τ st', (do enterLevel; let t ← instantiate chainScheme; leaveLevel; generalize t :
        InferM Scheme) crossingState = .ok τ st' ∧
      τ = { vars := [4], body := .arrow (.var 0) (.arrow (.var 5) (.var 0)) } ∧
      st'.store.renderScheme τ = "'_a -> 'a -> '_a" ∧
      ∀ v ∈ st'.store.unboundCells [τ.body], st'.store.id v ∈ τ.vars →
        3 ≤ v ∧ v < st'.store.size := by
  have hacyclic := acyclic_of_grounded chainStore_grounded
  have hbody : ∀ v ∈ chainScheme.body.vars, v < chainStore.size := by decide
  have hfree : ∀ v, chainStore.Free chainScheme v →
      chainStore.level v ≤ 1 ∧ chainStore.id v < 2 := by
    intro v hv
    obtain ⟨hmem, hq⟩ := (free_iff_not_mem (hacyclic.grounded chainStore_closed hbody)).mp hv
    have hcells : ∀ v ∈ chainStore.unbound chainScheme.body,
        chainStore.id v ∉ chainScheme.vars →
          chainStore.level v ≤ 1 ∧ chainStore.id v < 2 := by decide
    exact hcells v hmem hq
  obtain ⟨τ, st', hrun, htext, -, -, hnew⟩ := generalize_instantiate (ε := Failure) chainScheme
    crossingState rfl (by decide) hacyclic chainStore_closed hbody (by decide) hfree
    (by unfold Unwrapped; decide)
  have hτ : τ = { vars := [4], body := .arrow (.var 0) (.arrow (.var 5) (.var 0)) } :=
    (EStateM.Result.ok.inj (hrun.symm.trans rfl)).1
  exact ⟨rfl, by decide, hacyclic, chainStore_closed, hfree, τ, st', hrun, hτ, htext.trans rfl,
    hnew⟩

end LetPoly
