import LetPoly.Proofs.Pairing
import LetPoly.Proofs.Inference

/-! # Paired states and schemes

What inference takes from its scope and its supply answers to each other in two runs that are in
step: new variables, the schemes of names, and instances of them.
-/

namespace LetPoly.Pairing

open Store

variable {Φ : Pairing} {s s' s₁ s₁' : Store} {t : Ty} {v : Nat} {A : Set Nat}
  {st st' st₁ st₁' : State} {σ σ' : Scheme} {G G' : Scope}

/-! ## States -/

/-- The states of two runs that are in step. -/
structure States (Φ : Pairing) (st st' : State) : Prop where
  stores : Φ.Paired st.store st'.store
  nextId_eq : st'.supply.nextId = st.supply.nextId + Φ.shift
  count_eq : st'.supply.count = st.supply.count
  base_le : Φ.base ≤ st.supply.level
  level_eq : st'.supply.level = Φ.level st.supply.level

theorem States.afterFresh (h : Φ.States st st') : Φ.States st.afterFresh st'.afterFresh where
  stores := by
    simp only [State.afterFresh, h.nextId_eq, h.level_eq]
    exact h.stores.alloc _ _
  nextId_eq := by
    simp only [State.afterFresh, h.nextId_eq]
    ac_rfl
  count_eq := congrArg (· + 1) h.count_eq
  base_le := h.base_le
  level_eq := h.level_eq

theorem States.inPlay_fresh (h : Φ.States st st') :
    Φ.InPlay st.afterFresh.store (.var st.store.size) :=
  inPlay_of_free (Φ.new_active _ h.stores.first_le) (by simp [size_afterFresh]) (link_fresh st)

theorem States.atLevel (h : Φ.States st st') {ℓ ℓ' : Int} (hℓ : Φ.base ≤ ℓ)
    (hℓ' : ℓ' = Φ.level ℓ) : Φ.States (st.atLevel ℓ) (st'.atLevel ℓ') :=
  ⟨h.stores, h.nextId_eq, h.count_eq, hℓ, hℓ'⟩

theorem States.withTable (h : Φ.States st st') (table table' : Option (List (Int64 × Ty))) :
    Φ.States { st with supply.table := table } { st' with supply.table := table' } :=
  ⟨h.stores, h.nextId_eq, h.count_eq, h.base_le, h.level_eq⟩

theorem States.withStore (h : Φ.States st st') (hs : Φ.Paired s s') :
    Φ.States { st with store := s } { st' with store := s' } :=
  ⟨hs, h.nextId_eq, h.count_eq, h.base_le, h.level_eq⟩

theorem States.nextLevel (h : Φ.States st st') :
    Φ.States (st.atLevel (st.supply.level + 1)) (st'.atLevel (st'.supply.level + 1)) := by
  refine h.atLevel (h.base_le.trans (by omega)) ?_
  rw [h.level_eq, Φ.level_succ _ h.base_le]

/-! ## Schemes and scopes -/

/-- The second scheme has the body of the first one, and quantifies the same cells of it. The
identifiers of the two schemes may differ by another amount than those of the runs. -/
structure Schemes (Φ : Pairing) (s s' : Store) (σ σ' : Scheme) : Prop where
  body_eq : σ'.body = σ.body.rename Φ.cell
  live : Φ.Live σ.body
  active : ∀ v, s.Free σ v → v ∈ Φ.active
  vars_eq : ∃ δ, σ'.vars = σ.vars.map (· + δ) ∧
    ∀ v ∈ s.unbound σ.body, s'.id (Φ.cell v) = s.id v + δ

/-- Every name has schemes that answer to each other, or none in both scopes. -/
def Scopes (Φ : Pairing) (s s' : Store) (G G' : Scope) : Prop :=
  ∀ x : String, Option.Rel (Φ.Schemes s s') G[x]? G'[x]?

theorem Schemes.touches (h : Φ.Schemes s s' σ σ') (hσ : s.Proper σ.body) (ht : s.Touches s₁ A)
    (hA : A ⊆ Φ.active) (hs : Φ.Paired s s') (hs₁ : Φ.Paired s₁ s₁')
    (hid : ∀ v < s'.size, s₁'.id v = s'.id v) : Φ.Schemes s₁ s₁' σ σ' := by
  obtain ⟨δ, hvars, hids⟩ := h.vars_eq
  have hg := hσ.grounded
  -- a cell of the body was there before, or a touched cell has led to it
  have hcases : ∀ v ∈ s₁.unbound σ.body, v ∈ s.unbound σ.body ∨
      v ∈ Φ.active ∧ ∃ u ∈ s.unbound σ.body, u ∈ Φ.active := by
    intro v hv
    rcases ht.mem_unbound_cases hg hv with ⟨hv, -⟩ | ⟨u, hu, huA, hv⟩
    · exact .inl hv
    · rcases ht.reach u huA v hv with hvA | hle
      · exact .inr ⟨hA hvA, u, hu, hA huA⟩
      · exact .inr ⟨Φ.new_active v (hs.first_le.trans hle), u, hu, hA huA⟩
  refine ⟨h.body_eq, h.live, ?_, δ, hvars, ?_⟩
  · intro v hv
    obtain ⟨hmem, hq⟩ := (free_iff (ht.grounded hg)).mp hv
    rcases hcases v hmem with hmem | ⟨hactive, -⟩
    · rw [ht.id_eq v (hg.lt_size_of_mem_unbound hmem)] at hq
      exact h.active v ((free_iff hg).mpr ⟨hmem, hq⟩)
    · exact hactive
  · intro v hv
    rcases hcases v hv with hmem | ⟨hactive, u, hu, huA⟩
    · have hlt := hg.lt_size_of_mem_unbound hmem
      have hlive := hs.live_resolve hg h.live v hmem
      rw [hid _ ((hs.cell_lt hlive).mpr hlt), ht.id_eq v hlt, hids v hmem]
    · -- the identifiers of a scheme with a cell that is worked on differ as those of the runs do
      have hδ : δ = Φ.shift := by
        have heq := hs.id_eq u huA (hg.lt_size_of_mem_unbound hu)
        rw [hids u hu] at heq
        exact (Int64.add_right_inj _).mp heq
      rw [hδ]
      exact hs₁.id_eq v hactive ((ht.grounded hg).lt_size_of_mem_unbound hv)

theorem Scopes.touches (h : Φ.Scopes s s' G G') (hG : G.Proper s) (ht : s.Touches s₁ A)
    (hA : A ⊆ Φ.active) (hs : Φ.Paired s s') (hs₁ : Φ.Paired s₁ s₁')
    (hid : ∀ v < s'.size, s₁'.id v = s'.id v) : Φ.Scopes s₁ s₁' G G' := by
  intro x
  have hx := h x
  generalize hGx : G[x]? = o at hx ⊢
  generalize G'[x]? = o' at hx ⊢
  cases hx with
  | none => exact .none
  | some hσ => exact .some (hσ.touches (hG _ ⟨x, hGx⟩) ht hA hs hs₁ hid)

theorem Scopes.insert (h : Φ.Scopes s s' G G') (hσ : Φ.Schemes s s' σ σ') (x : String) :
    Φ.Scopes s s' (G.insert x σ) (G'.insert x σ') := by
  intro y
  rw [Scope.getElem?_insert, Scope.getElem?_insert]
  by_cases hy : y = x
  · simpa [hy] using Option.Rel.some hσ
  · simpa [hy] using h y

theorem Scopes.active (h : Φ.Scopes s s' G G') (hv : G.Free s v) : v ∈ Φ.active := by
  obtain ⟨σ, ⟨x, hx⟩, hv⟩ := hv
  have hσ := h x
  rw [hx] at hσ
  generalize G'[x]? = o' at hσ
  cases hσ with
  | some hσ => exact hσ.active v hv

/-! ## Generalization -/

/-- The identifiers of the cells that are worked on come in the same order in both runs. -/
def Ordered (Φ : Pairing) (s s' : Store) : Prop :=
  ∀ v ∈ Φ.active, ∀ w ∈ Φ.active, v < s.size → w < s.size → Φ.cell v < s'.size →
    Φ.cell w < s'.size → (s.id v + Φ.shift < s.id w + Φ.shift ↔ s.id v < s.id w)

theorem Ordered.of_issues (h : Φ.Ordered st₁.store st₁'.store) (hissues : Issues st st₁)
    (hissues' : Issues st' st₁') : Φ.Ordered st.store st'.store := by
  intro v hv w hw hltv hltw hltv' hltw'
  rw [← hissues.id_eq v hltv, ← hissues.id_eq w hltw]
  exact h v hv w hw (hltv.trans_le hissues.size_le) (hltw.trans_le hissues.size_le)
    (hltv'.trans_le hissues'.size_le) (hltw'.trans_le hissues'.size_le)

theorem level_lt_iff {ℓ m : Int} (hℓ : Φ.base ≤ ℓ) : Φ.level ℓ < Φ.level m ↔ ℓ < m := by
  constructor
  · intro hlt
    by_contra hle
    exact absurd (Φ.level_mono m ℓ (Int.not_lt.mp hle)) (Int.not_le.mpr hlt)
  · intro hlt
    have hmono := Φ.level_mono (ℓ + 1) m (Int.add_one_le_iff.mpr hlt)
    rw [Φ.level_succ ℓ hℓ] at hmono
    omega

theorem insertId_map {δ i : Int64} {ids : List Int64}
    (h : ∀ j ∈ ids, i + δ < j + δ ↔ i < j) :
    Scheme.insertId (i + δ) (ids.map (· + δ)) = (Scheme.insertId i ids).map (· + δ) := by
  induction ids with
  | nil => rfl
  | cons j ids ih =>
      have hj := h j (by simp)
      have htail := ih fun k hk => h k (List.mem_cons_of_mem j hk)
      simp only [List.map_cons, Scheme.insertId, hj, Int64.add_left_inj]
      split
      · rfl
      · split
        · rfl
        · rw [htail, List.map_cons]

/-- A shift that keeps the order is made before or after the identifiers are arranged. -/
theorem arrange_map {δ : Int64} {ids : List Int64}
    (h : ∀ i ∈ ids, ∀ j ∈ ids, i + δ < j + δ ↔ i < j) :
    Scheme.arrange (ids.map (· + δ)) = (Scheme.arrange ids).map (· + δ) := by
  rw [Scheme.arrange_eq, Scheme.arrange_eq]
  induction ids with
  | nil => rfl
  | cons i ids ih =>
      have htail := ih fun j hj k hk =>
        h j (List.mem_cons_of_mem i hj) k (List.mem_cons_of_mem i hk)
      rw [List.map_cons, List.foldr_cons, List.foldr_cons, htail]
      refine insertId_map fun j hj => h i (by simp) j ?_
      rw [← Scheme.arrange_eq, Scheme.mem_arrange] at hj
      exact List.mem_cons_of_mem i hj

theorem Paired.idsAbove_rename (h : Φ.Paired s s') (ht : Φ.InPlay s t) {ℓ : Int}
    (hℓ : Φ.base ≤ ℓ) :
    s'.idsAbove (Φ.level ℓ) (t.rename Φ.cell) = (s.idsAbove ℓ t).map (· + Φ.shift) := by
  have hlt : ∀ v ∈ s.unbound t, v < s.size := fun v hv =>
    ht.proper.grounded.lt_size_of_mem_unbound hv
  have hfilter : ((s.unbound t).filter fun v => Φ.level ℓ < s'.level (Φ.cell v)) =
      (s.unbound t).filter fun v => ℓ < s.level v := by
    refine List.filter_congr fun v hv => ?_
    rw [h.level_eq v (ht.active v hv) (hlt v hv)]
    simp only [level_lt_iff hℓ]
  simp only [idsAbove, h.unbound_rename ht.proper.grounded ht.live, List.filter_map,
    Function.comp_def, hfilter, List.map_map]
  refine List.map_congr_left fun v hv => ?_
  have hv := List.mem_of_mem_filter hv
  exact h.id_eq v (ht.active v hv) (hlt v hv)

theorem Paired.vars_generalizeAt (h : Φ.Paired s s') (ht : Φ.InPlay s t) {ℓ : Int}
    (hℓ : Φ.base ≤ ℓ) (hord : Φ.Ordered s s') :
    (s'.generalizeAt (Φ.level ℓ) (t.rename Φ.cell)).vars =
      (s.generalizeAt ℓ t).vars.map (· + Φ.shift) := by
  have hlt : ∀ v ∈ s.unbound t, v < s.size := fun v hv =>
    ht.proper.grounded.lt_size_of_mem_unbound hv
  have hlive : ∀ u ∈ s.unbound t, u ∈ Φ.live := fun u hu => Φ.active_live (ht.active u hu)
  simp only [generalizeAt, h.idsAbove_rename ht hℓ]
  refine arrange_map fun i hi j hj => ?_
  obtain ⟨v, hv, -, rfl⟩ := mem_idsAbove.mp hi
  obtain ⟨w, hw, -, rfl⟩ := mem_idsAbove.mp hj
  exact hord v (ht.active v hv) w (ht.active w hw) (hlt v hv) (hlt w hw)
    ((h.cell_lt (hlive v hv)).mpr (hlt v hv)) ((h.cell_lt (hlive w hw)).mpr (hlt w hw))

theorem Paired.schemes_generalizeAt (h : Φ.Paired s s') (ht : Φ.InPlay s t) {ℓ : Int}
    (hℓ : Φ.base ≤ ℓ) (hord : Φ.Ordered s s') :
    Φ.Schemes s s' (s.generalizeAt ℓ t) (s'.generalizeAt (Φ.level ℓ) (t.rename Φ.cell)) where
  body_eq := rfl
  live := ht.live
  active v hv := ht.active v ((free_iff ht.proper.grounded).mp hv).1
  vars_eq := ⟨Φ.shift, h.vars_generalizeAt ht hℓ hord, fun v hv =>
    h.id_eq v (ht.active v hv) (ht.proper.grounded.lt_size_of_mem_unbound hv)⟩

theorem Paired.schemes_mono (h : Φ.Paired s s') (ht : Φ.InPlay s t) :
    Φ.Schemes s s' (.mono t) (.mono (t.rename Φ.cell)) where
  body_eq := rfl
  live := ht.live
  active v hv := ht.active v ((free_iff (σ := .mono t) ht.proper.grounded).mp hv).1
  vars_eq := ⟨Φ.shift, rfl, fun v hv =>
    h.id_eq v (ht.active v hv) (ht.proper.grounded.lt_size_of_mem_unbound hv)⟩

/-! ## Instances -/

/-- An image of a quantified identifier in the second run. -/
def image (Φ : Pairing) (δ : Int64) (entry : Int64 × Ty) : Int64 × Ty :=
  (entry.1 + δ, entry.2.rename Φ.cell)

theorem lookup_image (δ i : Int64) (table : List (Int64 × Ty)) :
    (table.map (Φ.image δ)).lookup (i + δ) = (table.lookup i).map (Ty.rename Φ.cell) := by
  induction table with
  | nil => rfl
  | cons entry table ih =>
      obtain ⟨j, u⟩ := entry
      have hkey : (i + δ == j + δ) = (i == j) := by simp [beq_eq_decide]
      simp only [List.map_cons, image, List.lookup_cons, hkey]
      cases i == j with
      | true => rfl
      | false => exact ih

/-- What the tables of the two runs are while a scheme is instantiated. -/
structure Tables (Φ : Pairing) (δ : Int64) (table : List (Int64 × Ty)) (st st' : State) : Prop where
  states : Φ.States st st'
  table_eq : st.supply.table = some table
  table_eq' : st'.supply.table = some (table.map (Φ.image δ))
  live : ∀ entry ∈ table, Φ.Live entry.2

theorem Tables.cons {δ : Int64} {table : List (Int64 × Ty)} (h : Φ.Tables δ table st st')
    (i : Int64) :
    Φ.Tables δ ((i, .var st.store.size) :: table)
      { st.afterFresh with supply.table := some ((i, .var st.store.size) :: table) }
      { st'.afterFresh with
        supply.table := some ((i + δ, .var st'.store.size) :: table.map (Φ.image δ)) } where
  states := h.states.afterFresh.withTable _ _
  table_eq := rfl
  table_eq' := by simp [image, h.states.stores.cell_size]
  live := by
    intro entry hentry
    rcases List.mem_cons.mp hentry with rfl | hentry
    · exact h.states.inPlay_fresh.live
    · exact h.live entry hentry

theorem freshImages_inStep (ids : List Int64) {δ : Int64} {table : List (Int64 × Ty)}
    (h : Φ.Tables δ table st st') :
    ∃ table₁ st₁ st₁', (freshImages ids : InferM Unit) st = .ok () st₁ ∧
      (freshImages (ids.map (· + δ)) : InferM Unit) st' = .ok () st₁' ∧
      Φ.Tables δ table₁ st₁ st₁' := by
  induction ids generalizing st st' table with
  | nil => exact ⟨table, st, st', rfl, rfl, h⟩
  | cons i ids ih =>
      obtain ⟨table₁, st₁, st₁', hrun, hrun', h₁⟩ := ih (h.cons i)
      refine ⟨table₁, st₁, st₁', ?_, ?_, h₁⟩
      · rw [freshImages_cons i ids h.table_eq, hrun]
      · rw [List.map_cons, freshImages_cons (i + δ) _ h.table_eq', hrun']

/-- Bodies that answer to each other, with images for the quantified variables, answer to each
other. -/
theorem substitute_rename {δ : Int64} {table : List (Int64 × Ty)} (hs : Φ.Paired s s')
    (ht : s.Grounded t) (hlive : Φ.Live t)
    (hids : ∀ v ∈ s.unbound t, s'.id (Φ.cell v) = s.id v + δ) :
    s'.substitute (table.map (Φ.image δ)) (t.rename Φ.cell) =
      (s.substitute table t).rename Φ.cell := by
  rw [substitute, substitute, hs.resolve_rename ht hlive, Ty.rename, Ty.rename, Ty.subst_subst,
    Ty.subst_subst]
  refine Ty.subst_congr fun v hv => ?_
  simp only [Ty.subst]
  rw [hids v hv, lookup_image]
  cases table.lookup (s.id v) with
  | none => rfl
  | some u => rfl

end LetPoly.Pairing
