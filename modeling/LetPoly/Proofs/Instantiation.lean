import LetPoly.Proofs.Naming
import LetPoly.Proofs.Supply

/-! # Instances of schemes

Each entry in the list of quantified identifiers gets a variable of its own, also one that is listed
before or does not occur. The last entry of an identifier counts. An instance shares with the scheme
just the variables that are not quantified, and so two instances share what both schemes have free.
-/

namespace LetPoly

open Store

variable {ε : Type} {st st' st₁ st₂ : State} {σ τ : Scheme} {t u : Ty} {v : Nat}

namespace ExactInstance

theorem unbound_eq (h : ExactInstance σ st t st') :
    st'.store.unbound t = (st.store.unbound σ.body).map (st.instanceVar σ) := by
  rw [unbound, h.resolve_eq, Ty.vars_rename, unbound]

theorem lt_size (h : ExactInstance σ st t st') (hv : v ∈ st'.store.unbound t) :
    v < st'.store.size :=
  h.grounded'.lt_size_of_mem_unbound hv

/-- The old variables of an instance are those that the scheme has free. -/
theorem mem_unbound_of_lt (h : ExactInstance σ st t st') (hv : v < st.store.size) :
    v ∈ st'.store.unbound t ↔ st.store.Free σ v := by
  rw [h.unbound_eq, List.mem_map, free_iff_not_mem h.grounded]
  constructor
  · rintro ⟨u, hu, rfl⟩
    by_cases hq : st.store.id u ∈ σ.vars
    · rw [State.instanceVar_of_mem hq] at hv
      omega
    · rw [State.instanceVar_of_not_mem hq]
      exact ⟨hu, hq⟩
  · rintro ⟨hmem, hq⟩
    exact ⟨v, hmem, State.instanceVar_of_not_mem hq⟩

/-- Two instances, one after the other, share what both schemes have free. -/
theorem shared_iff (h : ExactInstance σ st t st₁) (hτ : st.store.Grounded τ.body)
    (h' : ExactInstance τ st₁ u st₂) :
    (v ∈ st₂.store.unbound t ∧ v ∈ st₂.store.unbound u) ↔
      st.store.Free σ v ∧ st.store.Free τ v := by
  rw [h'.adds.unbound_eq h.grounded']
  have hlt : st.store.Free τ v → v < st.store.size := fun hv =>
    hτ.lt_size_of_mem_unbound ((Store.free_iff hτ).mp hv).1
  constructor
  · rintro ⟨ht, hu⟩
    -- for the second instance all variables of the first one are old
    have hfree := (h.adds.free_iff hτ).mp ((h'.mem_unbound_of_lt (h.lt_size ht)).mp hu)
    exact ⟨(h.mem_unbound_of_lt (hlt hfree)).mp ht, hfree⟩
  · rintro ⟨hσ, hfree⟩
    have ht := (h.mem_unbound_of_lt (hlt hfree)).mpr hσ
    exact ⟨ht, (h'.mem_unbound_of_lt (h.lt_size ht)).mpr ((h.adds.free_iff hτ).mpr hfree)⟩

end ExactInstance

theorem Ty.Complete.congruent_rename {R : Nat → Nat → Prop} {f : Nat → Nat} (ht : t.Complete)
    (hR : ∀ v ∈ t.vars, R v (f v)) : t.Congruent R (t.rename f) := by
  induction t with
  | unit => exact .unit
  | absent => exact ht.elim
  | var v => exact .var (hR v (by simp [vars]))
  | arrow p r ihp ihr =>
      refine .arrow (ihp ht.1 fun v hv => hR v ?_) (ihr ht.2 fun v hv => hR v ?_)
      · exact List.mem_append_left _ hv
      · exact List.mem_append_right _ hv

/-- A scheme without quantified identifiers is its own instance. Otherwise one cell is added for
each entry, and the instance is the resolved body with the cell of the last entry in the place of
each quantified variable. Another scheme over the same cells, or the same one, has an instance
that shares with the first one what both schemes have free. -/
theorem instantiate_exact (σ : Scheme) (st : State) (hready : st.supply.table = some [])
    (hacyclic : st.store.Acyclic) (hclosed : st.store.Closed)
    (hσ : ∀ v ∈ σ.body.vars, v < st.store.size) (hcomplete : (st.store.resolve σ.body).Complete) :
    ∃ t st', (instantiate σ : Action ε Ty) st = .ok t st' ∧
      (σ.vars = [] → t = σ.body ∧ st' = st) ∧
      (σ.vars ≠ [] → Adds σ.vars.length st st' ∧ st'.supply.table = some [] ∧
        (st.store.resolve σ.body).Congruent (fun v w => st.store.id v ∉ σ.vars ∧ w = v ∨
          ∃ k, LastAt σ.vars k (st.store.id v) ∧ w = st.store.size + k) t) ∧
      ∀ τ : Scheme, (∀ v ∈ τ.body.vars, v < st.store.size) →
        ∃ u st'', (instantiate τ : Action ε Ty) st' = .ok u st'' ∧
          st''.store.unboundCells [t] ∩ st''.store.unboundCells [u] =
            {v | st.store.Free σ v ∧ st.store.Free τ v} := by
  have hg := hacyclic.grounded hclosed hσ
  obtain ⟨t, st', hrun, hinst⟩ := instantiate_instance (ε := ε) hready hg
  have htable : st'.supply.table = some [] := by rw [hinst.adds.supply_eq, hready]
  refine ⟨t, st', hrun, fun hvars => ?_, fun hvars => ⟨hinst.adds, htable, ?_⟩, fun τ hτ => ?_⟩
  · rw [instantiate_of_mono hvars] at hrun
    cases hrun
    exact ⟨rfl, rfl⟩
  · rw [instantiate_of_generic hready hvars hg] at hrun
    cases hrun
    refine hcomplete.congruent_rename fun v _ => ?_
    by_cases hq : st.store.id v ∈ σ.vars
    · exact .inr ⟨_, lastAt_lastIdxOf hq, State.instanceVar_of_mem hq⟩
    · exact .inl ⟨hq, State.instanceVar_of_not_mem hq⟩
  · have hgτ := hacyclic.grounded hclosed hτ
    obtain ⟨u, st'', hrun', hinst'⟩ := instantiate_instance (ε := ε) htable
      (hinst.adds.allocated.toExtends.grounded hgτ)
    have hgt := hinst'.adds.allocated.toExtends.grounded hinst.grounded'
    refine ⟨u, st'', hrun', Set.ext fun v => ?_⟩
    have hshared := hinst.shared_iff (v := v) hgτ hinst'
    rw [hgt.mem_unbound, hinst'.grounded'.mem_unbound] at hshared
    simpa [unboundCells] using hshared

/-- A state in which the next identifier is one that the scheme quantifies. -/
def crossingState : State :=
  ⟨chainStore, .startingAt 2⟩

/-- Three cells are added although the body has one quantified variable, and the last of them takes
its place. Another instance shares with this one the variable that is not quantified. -/
theorem instantiate_exact_chain :
    crossingState.supply.table = some [] ∧ chainStore.Acyclic ∧ chainStore.Closed ∧
    ∃ t st' u st'', (instantiate chainScheme : InferM Ty) crossingState = .ok t st' ∧
      t = .arrow (.var 0) (.arrow (.var 5) (.var 0)) ∧ Adds 3 crossingState st' ∧
      (instantiate chainScheme : InferM Ty) st' = .ok u st'' ∧
      st''.store.unboundCells [t] ∩ st''.store.unboundCells [u] =
        {v | chainStore.Free chainScheme v ∧ chainStore.Free chainScheme v} := by
  have hacyclic := acyclic_of_grounded chainStore_grounded
  obtain ⟨t, st', hrun, -, hgeneric, hshared⟩ := instantiate_exact (ε := Failure) chainScheme
    crossingState rfl hacyclic chainStore_closed (by decide) (by decide)
  obtain ⟨u, st'', hrun', hunbound⟩ := hshared chainScheme (by decide)
  have hresult : t = .arrow (.var 0) (.arrow (.var 5) (.var 0)) :=
    (EStateM.Result.ok.inj (hrun.symm.trans rfl)).1
  exact ⟨rfl, hacyclic, chainStore_closed, t, st', u, st'', hrun, hresult,
    (hgeneric (by decide)).1, hrun', hunbound⟩

end LetPoly
