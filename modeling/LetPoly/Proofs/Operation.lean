import LetPoly.Proofs.Change

/-! # Operations in any order

The operations on a state may follow one another in any order and may fail. What a cell was linked
to, what its identifier is and how low it has come are settled for good all the same.
-/

namespace LetPoly

open Store

variable {st st' : State}

/-- The operations on a state, with what they are applied to. -/
inductive Operation where
  | newVar
  | enterLevel
  | leaveLevel
  | unify (a b : Ty)
  | generalize (t : Ty)
  | instantiate (σ : Scheme)
  | reset (first : Int64)

namespace Operation

/-- The state that an operation leaves, however it ends. -/
def perform (st : State) : Operation → State
  | newVar => leaves ((fresh : Action UnifyError Nat) st)
  | enterLevel => leaves ((LetPoly.enterLevel : Action UnifyError Unit) st)
  | leaveLevel => leaves ((LetPoly.leaveLevel : Action UnifyError Unit) st)
  | unify a b => { st with store := leaves (LetPoly.unify a b st.store) }
  | generalize t => leaves ((LetPoly.generalize t : Action UnifyError Scheme) st)
  | instantiate σ => leaves ((LetPoly.instantiate σ : Action UnifyError Ty) st)
  | reset first => { st with supply := st.supply.reset first }

/-- The types that the operation is applied to are built from cells of the store. -/
def Applies (st : State) : Operation → Prop
  | newVar | enterLevel | leaveLevel | reset _ => True
  | unify a b => st.store.Builds a ∧ st.store.Builds b
  | generalize t => st.store.Builds t
  | instantiate σ => st.store.Builds σ.body

end Operation

/-- Some operation leads from the first state to the second. -/
def State.Step (st st' : State) : Prop :=
  ∃ op : Operation, op.Applies st ∧ op.perform st = st'

/-- The store is sound, and the supply is ready. -/
structure State.Sound (st : State) : Prop where
  store : st.store.Sound
  positive : 1 ≤ st.supply.level
  ready : st.supply.table = some []

theorem Operation.perform_sound (op : Operation) (hst : st.Sound) (hop : op.Applies st) :
    (op.perform st).Sound ∧ st.store.Changes (op.perform st).store := by
  cases op with
  | newVar =>
      have hchanges := changes_afterFresh hst.positive
      exact ⟨⟨hst.store.changes hchanges, hst.positive, hst.ready⟩, hchanges⟩
  | enterLevel =>
      have hpos : 1 ≤ st.supply.level + 1 := by
        have := hst.positive
        omega
      exact ⟨⟨hst.store, hpos, hst.ready⟩, .refl⟩
  | leaveLevel =>
      simp only [perform]
      rw [leaveLevel_apply]
      split
      · exact ⟨hst, .refl⟩
      · have hpos : 1 ≤ st.supply.level - 1 := by omega
        exact ⟨⟨hst.store, hpos, hst.ready⟩, .refl⟩
  | unify a b =>
      have hchanges := unify_changes (hst.store.proper_of_builds hop.1)
        (hst.store.proper_of_builds hop.2)
      exact ⟨⟨hst.store.changes hchanges, hst.positive, hst.ready⟩, hchanges⟩
  | generalize t => exact ⟨hst, .refl⟩
  | instantiate σ =>
      have hchanges := instantiate_changes (ε := UnifyError) σ hst.positive
      obtain ⟨t, st', w, hrun, hinst⟩ := instantiate_ok (ε := UnifyError) hst.ready
        (hst.store.proper_of_builds hop)
      rw [hrun] at hchanges
      simp only [perform, hrun, leaves] at hchanges ⊢
      refine ⟨⟨hst.store.changes hchanges, ?_, hinst.table_eq.trans hst.ready⟩, hchanges⟩
      rw [hinst.allocated.level_eq]
      exact hst.positive
  | reset first => exact ⟨⟨hst.store, Int.le_refl 1, rfl⟩, .refl⟩

theorem State.Sound.steps (hst : st.Sound) (h : Relation.ReflTransGen State.Step st st') :
    st'.Sound ∧ st.store.Changes st'.store := by
  induction h with
  | refl => exact ⟨hst, .refl⟩
  | tail _ hstep ih =>
      obtain ⟨op, hop, rfl⟩ := hstep
      obtain ⟨hsound, hchanges⟩ := op.perform_sound ih.1 hop
      exact ⟨hsound, ih.2.trans hchanges⟩

/-- The state that operations start from. -/
def State.initial : State :=
  ⟨{}, .startingAt 0⟩

theorem State.sound_initial : State.initial.Sound :=
  ⟨.empty, Int.le_refl 1, rfl⟩

/-- At every moment of a history of operations the links run in no circle, what stands behind a
linked cell is not above it and no image is left over from an instance. From then on a linked cell
stays as it is, and the level of an unbound cell does not rise. -/
theorem operations_keep_cells (st st' : State)
    (hst : Relation.ReflTransGen State.Step State.initial st)
    (hst' : Relation.ReflTransGen State.Step st st') :
    st.store.Acyclic ∧
    (∀ v t, st.store.link v = some t → st'.store.cell v = st.store.cell v) ∧
    (∀ v < st.store.size, st.store.link v = none → st'.store.level v ≤ st.store.level v) ∧
    (∀ v t w, st.store.link v = some t → st.store.Reaches t w → st.store.link w = none →
      st.store.level w ≤ st.store.level v) ∧
    st.supply.table = some [] := by
  have hsound := (State.sound_initial.steps hst).1
  have hchanges := (hsound.steps hst').2
  refine ⟨hsound.store.acyclic, ?_, ?_, ?_, hsound.ready⟩
  · intro v t hlink
    exact hchanges.cell_eq hlink
  · intro v hv _
    exact hchanges.touches.level_le v hv
  · intro v t w hlink hreach hfree
    have hg := hsound.store.grounded_of_link hlink
    exact hsound.store.level_le v t hlink w (hg.mem_unbound.mpr ⟨hreach, hfree⟩)

/-- A cell of the first level, linked to a type with a cell of the second. -/
def loweredState : State :=
  [.newVar, .enterLevel, .newVar, .unify (.var 0) (.arrow .unit (.var 1))].foldl
    Operation.perform .initial

/-- A unification that fails after it has linked the cell behind the first one. -/
def haltedState : State :=
  (Operation.unify (.arrow (.var 1) .unit) (.arrow .unit (.arrow .unit .unit))).perform loweredState

theorem operations_keep_cells_halted :
    Relation.ReflTransGen State.Step .initial loweredState ∧
    Relation.ReflTransGen State.Step loweredState haltedState ∧
    loweredState.store.Acyclic ∧
    loweredState.store.link 0 = some (.arrow .unit (.var 1)) ∧
    haltedState.store.cell 0 = loweredState.store.cell 0 ∧
    loweredState.store.link 1 = none ∧ haltedState.store.link 1 = some .unit ∧
    haltedState.store.level 1 ≤ loweredState.store.level 1 ∧
    loweredState.store.level 1 ≤ loweredState.store.level 0 ∧
    haltedState.supply.table = some [] := by
  have hlowered : Relation.ReflTransGen State.Step .initial loweredState := by
    apply Relation.ReflTransGen.head ⟨.newVar, trivial, rfl⟩
    apply Relation.ReflTransGen.head ⟨.enterLevel, trivial, rfl⟩
    apply Relation.ReflTransGen.head ⟨.newVar, trivial, rfl⟩
    apply Relation.ReflTransGen.head
      ⟨.unify (.var 0) (.arrow .unit (.var 1)), ⟨by decide, by decide⟩, rfl⟩
    exact .refl
  have hhalted : State.Step loweredState haltedState := ⟨.unify _ _, ⟨by decide, by decide⟩, rfl⟩
  obtain ⟨hacyclic, hcell, hlevel, hbehind, -⟩ :=
    operations_keep_cells loweredState haltedState hlowered (.single hhalted)
  obtain ⟨-, -, -, -, hready⟩ :=
    operations_keep_cells haltedState haltedState (hlowered.tail hhalted) .refl
  have hlink : loweredState.store.link 0 = some (.arrow .unit (.var 1)) := by decide
  have hfree : loweredState.store.link 1 = none := by decide
  exact ⟨hlowered, .single hhalted, hacyclic, hlink, hcell 0 _ hlink, hfree, by decide,
    hlevel 1 (by decide) hfree, hbehind 0 _ 1 hlink (.ret (.here 1)) hfree, hready⟩

end LetPoly
