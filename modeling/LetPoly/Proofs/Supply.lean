import LetPoly.Proofs.Numbering
import LetPoly.Proofs.Scope

/-! # Fresh variables, levels and instances -/

namespace LetPoly

open Store

variable {ε α : Type} {st st' st₁ st₂ : State} {A B : Set Nat} {σ : Scheme} {t : Ty} {i j : Int64}
  {ids : List Int64} {n v : Nat}

/-! ## Allocation -/

/-- Nothing happened but that unbound cells were added at the current level. -/
structure Allocated (st st' : State) : Prop where
  size_le : st.store.size ≤ st'.store.size
  cell_eq : ∀ v < st.store.size, st'.store.cell v = st.store.cell v
  link_new : ∀ v, st.store.size ≤ v → st'.store.link v = none
  level_new : ∀ v, st.store.size ≤ v → v < st'.store.size → st'.store.level v = st.supply.level
  level_eq : st'.supply.level = st.supply.level

namespace Allocated

theorem refl_table (table : Option (List (Int64 × Ty))) :
    Allocated st { st with supply.table := table } where
  size_le := Nat.le_refl _
  cell_eq _ _ := rfl
  link_new _ hv := link_of_size_le hv
  level_new _ hv hlt := absurd hlt (Nat.not_lt_of_le hv)
  level_eq := rfl

theorem trans (h : Allocated st st₁) (h₁ : Allocated st₁ st₂) : Allocated st st₂ where
  size_le := h.size_le.trans h₁.size_le
  cell_eq v hv := (h₁.cell_eq v (hv.trans_le h.size_le)).trans (h.cell_eq v hv)
  link_new v hv := by
    by_cases hlt : v < st₁.store.size
    · simpa [link, h₁.cell_eq v hlt] using h.link_new v hv
    · exact h₁.link_new v (Nat.le_of_not_lt hlt)
  level_new v hv hlt₂ := by
    by_cases hlt : v < st₁.store.size
    · simpa [Store.level, h₁.cell_eq v hlt] using h.level_new v hv hlt
    · exact (h₁.level_new v (Nat.le_of_not_lt hlt) hlt₂).trans h.level_eq
  level_eq := h₁.level_eq.trans h.level_eq

theorem link_eq (h : Allocated st st') (v : Nat) : st'.store.link v = st.store.link v := by
  by_cases hv : v < st.store.size
  · simp [link, h.cell_eq v hv]
  · have hle := Nat.le_of_not_lt hv
    rw [h.link_new v hle, link_of_size_le hle]

theorem toExtends (h : Allocated st st') : st.store.Extends st'.store :=
  extends_of_link_eq h.size_le h.link_eq

theorem resolve_eq (h : Allocated st st') (ht : st.store.Grounded t) :
    st'.store.resolve t = st.store.resolve t :=
  resolve_of_link_eq h.size_le h.link_eq ht

theorem touches (h : Allocated st st') (hA : st.store.Active A) :
    st.store.Touches st'.store A := by
  refine touches_of_link_eq hA h.size_le h.link_eq ?_ ?_ fun v hv _ => h.cell_eq v hv
  · intro v hv
    simp [Store.id, h.cell_eq v hv]
  · intro v hv
    simp [Store.level, h.cell_eq v hv]

theorem justified (h : Allocated st st') (hA : st.store.Active A) :
    st.store.Justified st'.store A st.supply.level := by
  intro w hlt hfree hw
  rcases hw with hw | hw
  · refine .inr ⟨w, hw, by simp [unbound_of_free hfree], ?_⟩
    simp [Store.level, h.cell_eq w (hA w hw).1]
  · exact .inl (Int.le_of_eq (h.level_new w hw hlt).symm)

end Allocated

theorem allocated_fresh (st : State) : Allocated st st.afterFresh where
  size_le := by simp [size_afterFresh]
  cell_eq v hv := cell_alloc_of_ne _ _ _ (Nat.ne_of_lt hv)
  link_new v hv := by rw [State.afterFresh, link_alloc, link_of_size_le hv]
  level_new v hv hlt := by
    rw [size_afterFresh] at hlt
    obtain rfl : v = st.store.size := by omega
    simp [State.afterFresh, Store.level]
  level_eq := rfl

theorem link_fresh (st : State) : st.afterFresh.store.link st.store.size = none :=
  (allocated_fresh st).link_new _ (Nat.le_refl _)

theorem proper_fresh (st : State) : st.afterFresh.store.Proper (.var st.store.size) :=
  proper_of_free (by simp [size_afterFresh]) (link_fresh st)

theorem unbound_fresh (st : State) :
    st.afterFresh.store.unbound (.var st.store.size) = [st.store.size] :=
  unbound_of_free (link_fresh st)

/-! ## Allocations in a row -/

/-- Unbound cells were added at the current level with the identifiers that were next. Nothing else
happened but that the supply counts them. -/
structure Adds (n : Nat) (st st' : State) : Prop where
  size_eq : st'.store.size = st.store.size + n
  cell_old : ∀ v < st.store.size, st'.store.cell v = st.store.cell v
  cell_new : ∀ k < n, st'.store.cell (st.store.size + k) =
    { id := st.supply.nextId + Int64.ofNat k, level := st.supply.level }
  supply_eq : st'.supply = { st.supply with
    nextId := st.supply.nextId + Int64.ofNat n, count := st.supply.count + n }

namespace Adds

theorem zero (st : State) : Adds 0 st st where
  size_eq := rfl
  cell_old _ _ := rfl
  cell_new _ hk := absurd hk (Nat.not_lt_zero _)
  supply_eq := by simp

theorem afterFresh (h : Adds n st st₁) : Adds (n + 1) st st₁.afterFresh where
  size_eq := by
    rw [size_afterFresh, h.size_eq]
    rfl
  cell_old v hv := by
    have hne : v ≠ st₁.store.size := by
      rw [h.size_eq]
      omega
    exact (cell_alloc_of_ne _ _ _ hne).trans (h.cell_old v hv)
  cell_new k hk := by
    rcases Nat.lt_succ_iff_lt_or_eq.mp hk with hk | rfl
    · have hne : st.store.size + k ≠ st₁.store.size := by
        rw [h.size_eq]
        omega
      exact (cell_alloc_of_ne _ _ _ hne).trans (h.cell_new k hk)
    · rw [← h.size_eq, State.afterFresh, cell_alloc_self, h.supply_eq]
  supply_eq := by
    have hsucc : st.supply.nextId + Int64.ofNat n + 1 = st.supply.nextId + Int64.ofNat (n + 1) := by
      rw [Int64.ofNat_add, Int64.add_assoc]
      rfl
    simp only [State.afterFresh, h.supply_eq, hsucc, Nat.add_assoc]

theorem iterate (n : Nat) (st : State) : Adds n st (State.afterFresh^[n] st) := by
  induction n with
  | zero => exact zero st
  | succ n ih =>
      rw [Function.iterate_succ_apply']
      exact ih.afterFresh

/-- An added cell, by its own place in the store. -/
theorem cell_of_le (h : Adds n st st') (hv : st.store.size ≤ v) (hlt : v < st'.store.size) :
    st'.store.cell v =
      { id := st.supply.nextId + Int64.ofNat (v - st.store.size), level := st.supply.level } := by
  have hnew := h.cell_new (v - st.store.size) (by
    rw [h.size_eq] at hlt
    omega)
  rwa [Nat.add_sub_cancel' hv] at hnew

theorem allocated (h : Adds n st st') : Allocated st st' where
  size_le := h.size_eq ▸ Nat.le_add_right _ _
  cell_eq := h.cell_old
  link_new v hv := by
    by_cases hlt : v < st'.store.size
    · rw [link, h.cell_of_le hv hlt]
    · exact link_of_size_le (Nat.le_of_not_lt hlt)
  level_new v hv hlt := by rw [Store.level, h.cell_of_le hv hlt]
  level_eq := by rw [h.supply_eq]

theorem id_eq (h : Adds n st st') (hv : v < st.store.size) : st'.store.id v = st.store.id v := by
  rw [Store.id, h.cell_old v hv, Store.id]

theorem unbound_eq (h : Adds n st st') (ht : st.store.Grounded t) :
    st'.store.unbound t = st.store.unbound t :=
  congrArg Ty.vars (h.allocated.resolve_eq ht)

/-- What a scheme has free it has free as before. -/
theorem free_iff (h : Adds n st st') (hσ : st.store.Grounded σ.body) :
    st'.store.Free σ v ↔ st.store.Free σ v := by
  rw [Store.free_iff hσ, Store.free_iff (h.allocated.toExtends.grounded hσ), h.unbound_eq hσ]
  refine and_congr_right fun hv => ?_
  rw [h.id_eq (hσ.lt_size_of_mem_unbound hv)]

end Adds

theorem iterate_afterFresh_table (n : Nat) (st : State) (table : Option (List (Int64 × Ty))) :
    State.afterFresh^[n] { st with supply.table := table } =
      { State.afterFresh^[n] st with supply.table := table } := by
  induction n with
  | zero => rfl
  | succ n ih =>
      rw [Function.iterate_succ_apply', Function.iterate_succ_apply', ih]
      rfl

/-! ## The table of images -/

/-- The images of the identifiers, the latest first: variables in a row from `n` on. -/
def freshTable (n : Nat) : List Int64 → List (Int64 × Ty)
  | [] => []
  | i :: ids => freshTable (n + 1) ids ++ [(i, .var n)]

theorem freshImages_cons (i : Int64) (ids : List Int64) {table : List (Int64 × Ty)}
    (htable : st.supply.table = some table) :
    (freshImages (i :: ids) : Action ε Unit) st =
      freshImages ids
        { st.afterFresh with supply.table := some ((i, .var st.store.size) :: table) } := by
  have hfresh : st.afterFresh.supply.table = some table := htable
  simp only [freshImages, bind_apply, fresh_apply, get_apply, hfresh, set_apply]

theorem freshImages_eq (ids : List Int64) {table : List (Int64 × Ty)}
    (htable : st.supply.table = some table) :
    (freshImages ids : Action ε Unit) st = .ok () { State.afterFresh^[ids.length] st with
      supply.table := some (freshTable st.store.size ids ++ table) } := by
  induction ids generalizing st table with
  | nil =>
      rw [freshTable, List.nil_append, ← htable]
      rfl
  | cons i ids ih =>
      rw [freshImages_cons i ids htable, ih rfl, iterate_afterFresh_table]
      simp only [freshTable, size_afterFresh, List.length_cons, Function.iterate_succ_apply,
        List.append_assoc, List.singleton_append]

/-- The identifier stands at the place, and nowhere after it. -/
def LastAt (ids : List Int64) (k : Nat) (i : Int64) : Prop :=
  ids[k]? = some i ∧ i ∉ ids.drop (k + 1)

/-- The last place of an identifier. -/
def lastIdxOf (i : Int64) : List Int64 → Nat
  | [] => 0
  | _ :: ids => if i ∈ ids then lastIdxOf i ids + 1 else 0

theorem lastAt_lastIdxOf (hi : i ∈ ids) : LastAt ids (lastIdxOf i ids) i := by
  induction ids with
  | nil => simp at hi
  | cons j ids ih =>
      by_cases hmem : i ∈ ids
      · simpa [lastIdxOf, hmem, LastAt] using ih hmem
      · obtain rfl : i = j := by simpa [hmem] using hi
        simp [lastIdxOf, hmem, LastAt]

theorem lastIdxOf_lt (hi : i ∈ ids) : lastIdxOf i ids < ids.length :=
  (List.getElem?_eq_some_iff.mp (lastAt_lastIdxOf hi).1).1

theorem lastIdxOf_inj (hi : i ∈ ids) (hj : j ∈ ids) (h : lastIdxOf i ids = lastIdxOf j ids) :
    i = j := by
  have hat := (lastAt_lastIdxOf hi).1
  rw [h, (lastAt_lastIdxOf hj).1] at hat
  exact (Option.some.inj hat).symm

/-- The table has the image of the last entry. -/
theorem lookup_freshTable (n : Nat) (i : Int64) (ids : List Int64) :
    (freshTable n ids).lookup i =
      if i ∈ ids then some (.var (n + lastIdxOf i ids)) else none := by
  induction ids generalizing n with
  | nil => rfl
  | cons j ids ih =>
      rw [freshTable, List.lookup_append, ih]
      by_cases hmem : i ∈ ids
      · simp [hmem, lastIdxOf, Nat.add_assoc, Nat.add_comm 1]
      · by_cases hij : i = j
        · simp [hij, lastIdxOf, hij ▸ hmem]
        · simp [hmem, hij, List.lookup_cons, beq_eq_false_iff_ne.mpr hij]

theorem allocated_of_freshImages (hready : st.supply.table = some [])
    (hrun : (freshImages ids : Action ε Unit) st = .ok () st') : Allocated st st' := by
  rw [freshImages_eq ids hready] at hrun
  cases hrun
  exact (Adds.iterate ids.length st).allocated.trans (.refl_table _)

/-! ## Instances -/

/-- The variable that stands in an instance for a variable of the scheme. -/
def State.instanceVar (st : State) (σ : Scheme) (v : Nat) : Nat :=
  if st.store.id v ∈ σ.vars then st.store.size + lastIdxOf (st.store.id v) σ.vars else v

theorem State.instanceVar_of_mem (hv : st.store.id v ∈ σ.vars) :
    st.instanceVar σ v = st.store.size + lastIdxOf (st.store.id v) σ.vars :=
  if_pos hv

theorem State.instanceVar_of_not_mem (hv : st.store.id v ∉ σ.vars) : st.instanceVar σ v = v :=
  if_neg hv

theorem instantiate_of_mono (hvars : σ.vars = []) :
    (instantiate σ : Action ε Ty) st = .ok σ.body st := by
  simp [instantiate, Scheme.isGeneric, hvars, pure_apply]

theorem instantiate_of_generic (hready : st.supply.table = some []) (hvars : σ.vars ≠ [])
    (hσ : st.store.Grounded σ.body) :
    (instantiate σ : Action ε Ty) st = .ok ((st.store.resolve σ.body).rename (st.instanceVar σ))
      (State.afterFresh^[σ.vars.length] st) := by
  have hadds := Adds.iterate σ.vars.length st
  have hgeneric : σ.isGeneric = true := by simp [Scheme.isGeneric, hvars]
  have htable : (State.afterFresh^[σ.vars.length] st).supply.table = some [] := by
    rw [hadds.supply_eq, hready]
  have hbody : (State.afterFresh^[σ.vars.length] st).store.substitute
      (freshTable st.store.size σ.vars) σ.body =
      (st.store.resolve σ.body).rename (st.instanceVar σ) := by
    rw [substitute, hadds.allocated.resolve_eq hσ]
    refine Ty.subst_congr fun v hv => ?_
    rw [hadds.id_eq (hσ.lt_size_of_mem_unbound hv), lookup_freshTable]
    unfold State.instanceVar
    split <;> rfl
  simp only [instantiate, hgeneric, if_true, bind_apply, freshImages_eq σ.vars hready, get_apply,
    set_apply, pure_apply, Option.map_some, Option.getD_some, List.append_nil, hbody, ← htable]

/-- What is known of an instance, whether or not the scheme quantifies anything. -/
structure ExactInstance (σ : Scheme) (st : State) (t : Ty) (st' : State) : Prop where
  grounded : st.store.Grounded σ.body
  adds : Adds σ.vars.length st st'
  grounded' : st'.store.Grounded t
  resolve_eq : st'.store.resolve t = (st.store.resolve σ.body).rename (st.instanceVar σ)

theorem instantiate_instance (hready : st.supply.table = some []) (hσ : st.store.Grounded σ.body) :
    ∃ t st', (instantiate σ : Action ε Ty) st = .ok t st' ∧ ExactInstance σ st t st' := by
  by_cases hvars : σ.vars = []
  · have hself : ∀ v, st.instanceVar σ v = v := fun v =>
      State.instanceVar_of_not_mem (by simp [hvars])
    refine ⟨σ.body, st, instantiate_of_mono hvars, hσ, ?_, hσ, ?_⟩
    · rw [hvars]
      exact .zero st
    · exact (Ty.subst_eq_self fun v _ => congrArg Ty.var (hself v)).symm
  · have hadds := Adds.iterate σ.vars.length st
    have hfree : ∀ v ∈ ((st.store.resolve σ.body).rename (st.instanceVar σ)).vars,
        v < (State.afterFresh^[σ.vars.length] st).store.size ∧
          (State.afterFresh^[σ.vars.length] st).store.link v = none := by
      intro w hw
      rw [Ty.vars_rename] at hw
      obtain ⟨v, hv, rfl⟩ := List.mem_map.mp hw
      rw [hadds.size_eq, hadds.allocated.link_eq]
      by_cases hq : st.store.id v ∈ σ.vars
      · rw [State.instanceVar_of_mem hq]
        exact ⟨Nat.add_lt_add_left (lastIdxOf_lt hq) _, link_of_size_le (Nat.le_add_right _ _)⟩
      · rw [State.instanceVar_of_not_mem hq]
        have hlt := hσ.lt_size_of_mem_unbound hv
        exact ⟨hlt.trans_le (Nat.le_add_right _ _), hσ.link_of_mem_unbound hv⟩
    refine ⟨_, _, instantiate_of_generic hready hvars hσ, hσ, hadds, ?_, ?_⟩
    · exact grounded_of_vars fun v hv => .free (hfree v hv).1 (hfree v hv).2
    · exact resolve_eq_self fun v hv => (hfree v hv).2

/-- A type in which the quantified variables of a scheme have made way for new ones, the same one
for the same identifier. -/
structure InstanceOf (σ : Scheme) (st : State) (t : Ty) (st' : State) (w : Int64 → Nat) : Prop where
  allocated : Allocated st st'
  table_eq : st'.supply.table = st.supply.table
  proper : st'.store.Proper t
  resolve_eq : st'.store.resolve t = (st'.store.poly σ).inst fun v => .var (w (st'.store.id v))
  new : ∀ i ∈ σ.vars, st.store.size ≤ w i ∧ w i < st'.store.size
  inj : ∀ i ∈ σ.vars, ∀ j ∈ σ.vars, w i = w j → i = j

/-- An exact instance, with the new variable of each identifier. -/
theorem ExactInstance.instanceOf (h : ExactInstance σ st t st')
    (hσ : (st.store.resolve σ.body).Complete) :
    InstanceOf σ st t st' fun i => st.store.size + lastIdxOf i σ.vars where
  allocated := h.adds.allocated
  table_eq := by rw [h.adds.supply_eq]
  proper := ⟨h.grounded', by rwa [h.resolve_eq, Ty.complete_rename]⟩
  resolve_eq := by
    rw [h.resolve_eq, poly, Poly.inst_close, h.adds.allocated.resolve_eq h.grounded]
    refine Ty.subst_congr fun v hv => ?_
    rw [h.adds.id_eq (h.grounded.lt_size_of_mem_unbound hv)]
    by_cases hq : st.store.id v ∈ σ.vars
    · simp [State.instanceVar, Scheme.quantifies, hq]
    · simp [State.instanceVar, Scheme.quantifies, hq]
  new i hi := by
    have hlt := lastIdxOf_lt hi
    rw [h.adds.size_eq]
    omega
  inj i hi j hj hij := lastIdxOf_inj hi hj (Nat.add_left_cancel hij)

theorem instantiate_ok (hready : st.supply.table = some []) (hσ : st.store.Proper σ.body) :
    ∃ t st' w, (instantiate σ : Action ε Ty) st = .ok t st' ∧ InstanceOf σ st t st' w := by
  obtain ⟨t, st', hrun, hinst⟩ := instantiate_instance (ε := ε) hready hσ.grounded
  exact ⟨t, st', _, hrun, hinst.instanceOf hσ.complete⟩

end LetPoly
