import LetPoly.Proofs.Invariance

/-! # One cell for each identifier

An instance has one new cell for each identifier that the scheme quantifies. So cells of a scheme
that share a quantified identifier may be read as one cell, and inference does not see the
difference.
-/

namespace LetPoly

open Store

variable {ε : Type} {G G' : Scope} {s s' : Store} {st : State} {σ σ' : Scheme} {x : String}
  {A L : Set Nat} {u v : Nat}

/-! ## Schemes with the same instances -/

/-- Two generic schemes are the same when cells are read by their identifiers. All their cells are
quantified, and none is in the set. -/
structure Store.Merges (s : Store) (L : Set Nat) (σ σ' : Scheme) : Prop where
  generic : σ.isGeneric = true
  vars_eq : σ'.vars = σ.vars
  grounded : s.Grounded σ.body
  grounded' : s.Grounded σ'.body
  seals : s.Seals L σ
  seals' : s.Seals L σ'
  read_eq : ∀ g : Int64 → Ty, (s.resolve σ'.body).subst (fun v => g (s.id v)) =
    (s.resolve σ.body).subst fun v => g (s.id v)

theorem Store.Seals.read_touches (h : s.Seals L σ) (hσ : s.Grounded σ.body) (ht : s.Touches s' A)
    (hA : ∀ v ∈ A, v ∈ L) (g : Int64 → Ty) :
    (s'.resolve σ.body).subst (fun v => g (s'.id v)) =
      (s.resolve σ.body).subst fun v => g (s.id v) := by
  rw [h.resolve_eq hσ ht hA]
  exact Ty.subst_congr fun v hv => by rw [ht.id_eq v (hσ.lt_size_of_mem_unbound hv)]

theorem Store.Merges.touches (h : s.Merges L σ σ') (ht : s.Touches s' A)
    (hA : ∀ v ∈ A, v ∈ L) : s'.Merges L σ σ' where
  generic := h.generic
  vars_eq := h.vars_eq
  grounded := ht.grounded h.grounded
  grounded' := ht.grounded h.grounded'
  seals := h.seals.touches h.grounded ht hA
  seals' := h.seals'.touches h.grounded' ht hA
  read_eq g := by
    rw [h.seals.read_touches h.grounded ht hA, h.seals'.read_touches h.grounded' ht hA]
    exact h.read_eq g

theorem Store.Seals.rename_instanceVar (h : st.store.Seals L σ) :
    (st.store.resolve σ.body).rename (st.instanceVar σ) = (st.store.resolve σ.body).subst fun v =>
      .var (st.store.size + lastIdxOf (st.store.id v) σ.vars) := by
  refine Ty.subst_congr fun v hv => ?_
  rw [State.instanceVar_of_mem (by simpa [Scheme.quantifies] using h.quantified v hv)]

theorem Store.Merges.instantiate_eq (h : st.store.Merges L σ σ')
    (hready : st.supply.table = some []) :
    (instantiate σ' : Action ε Ty) st = instantiate σ st := by
  have hvars : σ.vars ≠ [] := by simpa [Scheme.isGeneric] using h.generic
  rw [instantiate_of_generic hready hvars h.grounded,
    instantiate_of_generic hready (h.vars_eq ▸ hvars) h.grounded', h.seals.rename_instanceVar,
    h.seals'.rename_instanceVar, h.vars_eq,
    h.read_eq fun i => .var (st.store.size + lastIdxOf i σ.vars)]

/-! ## Merged schemes -/

/-- The first cell of the scheme that has the identifier of the given one. -/
def Store.leader (s : Store) (σ : Scheme) (v : Nat) : Nat :=
  ((s.unbound σ.body).find? fun u => s.id u == s.id v).getD v

theorem Store.leader_spec (hv : v ∈ s.unbound σ.body) :
    s.leader σ v ∈ s.unbound σ.body ∧ s.id (s.leader σ v) = s.id v := by
  have hsome : ((s.unbound σ.body).find? fun u => s.id u == s.id v).isSome :=
    List.find?_isSome.mpr ⟨v, hv, by simp⟩
  obtain ⟨u, hu⟩ := Option.isSome_iff_exists.mp hsome
  rw [leader, hu, Option.getD_some]
  exact ⟨List.mem_of_find?_eq_some hu, by simpa using List.find?_some hu⟩

theorem Store.leader_congr (hv : v ∈ s.unbound σ.body) (hid : s.id u = s.id v) :
    s.leader σ u = s.leader σ v := by
  have hsome : ((s.unbound σ.body).find? fun w => s.id w == s.id v).isSome :=
    List.find?_isSome.mpr ⟨v, hv, by simp⟩
  obtain ⟨w, hw⟩ := Option.isSome_iff_exists.mp hsome
  rw [leader, leader, hid, hw, Option.getD_some, Option.getD_some]

/-- The scheme with one cell for each of its identifiers. -/
def Store.merge (s : Store) (σ : Scheme) : Scheme :=
  if σ.isGeneric then
    { σ with body := (s.resolve σ.body).subst fun v => .var (s.leader σ v) }
  else σ

theorem Store.merge_of_generic (h : σ.isGeneric = true) :
    s.merge σ = { σ with body := (s.resolve σ.body).subst fun v => .var (s.leader σ v) } :=
  if_pos h

theorem Store.mem_vars_merge (h : σ.isGeneric = true) :
    v ∈ (s.merge σ).body.vars ↔ ∃ u ∈ s.unbound σ.body, v = s.leader σ u := by
  simp [merge_of_generic h, Ty.vars_subst, Ty.vars, unbound]

/-- The cells of the merged scheme are unbound, so nothing is left to follow. -/
theorem Store.proper_merge (h : σ.isGeneric = true) (hσ : s.Proper σ.body) :
    s.Proper (s.merge σ).body ∧ s.resolve (s.merge σ).body = (s.merge σ).body := by
  have hfree : ∀ v ∈ (s.merge σ).body.vars, v < s.size ∧ s.link v = none := by
    intro v hv
    obtain ⟨u, hu, rfl⟩ := (mem_vars_merge h).mp hv
    have hleader := (leader_spec hu).1
    exact ⟨hσ.grounded.lt_size_of_mem_unbound hleader, hσ.grounded.link_of_mem_unbound hleader⟩
  have hself : s.resolve (s.merge σ).body = (s.merge σ).body :=
    resolve_eq_self fun v hv => (hfree v hv).2
  refine ⟨⟨grounded_of_vars fun v hv => .free (hfree v hv).1 (hfree v hv).2, ?_⟩, hself⟩
  rw [hself, merge_of_generic h]
  exact Ty.complete_subst.mpr ⟨hσ.complete, fun _ _ => trivial⟩

theorem Store.merges_merge (h : σ.isGeneric = true) (hσ : s.Proper σ.body) (hsealed : s.Seals L σ) :
    s.Merges L σ (s.merge σ) := by
  obtain ⟨hproper, hself⟩ := proper_merge h hσ
  have hvars : (s.merge σ).vars = σ.vars := by rw [merge_of_generic h]
  have hunbound : s.unbound (s.merge σ).body = (s.merge σ).body.vars := congrArg Ty.vars hself
  refine ⟨h, hvars, hσ.grounded, hproper.grounded, hsealed, ⟨?_, ?_⟩, fun g => ?_⟩
  · intro v hv
    rw [hunbound] at hv
    obtain ⟨u, hu, rfl⟩ := (mem_vars_merge h).mp hv
    exact hsealed.apart _ (leader_spec hu).1
  · intro v hv
    rw [hunbound] at hv
    obtain ⟨u, hu, rfl⟩ := (mem_vars_merge h).mp hv
    rw [Scheme.quantifies, hvars]
    exact hsealed.quantified _ (leader_spec hu).1
  · rw [hself, merge_of_generic h, Ty.subst_subst]
    exact Ty.subst_congr fun v hv => by simp [Ty.subst, (leader_spec hv).2]

theorem Store.injOn_merge (h : σ.isGeneric = true) (hσ : s.Proper σ.body) :
    Set.InjOn s.id {v | v ∈ s.unbound (s.merge σ).body} := by
  have hunbound : s.unbound (s.merge σ).body = (s.merge σ).body.vars :=
    congrArg Ty.vars (proper_merge h hσ).2
  rw [hunbound]
  intro u hu v hv hid
  obtain ⟨a, ha, rfl⟩ := (mem_vars_merge h).mp hu
  obtain ⟨b, hb, rfl⟩ := (mem_vars_merge h).mp hv
  rw [(leader_spec ha).2, (leader_spec hb).2] at hid
  exact leader_congr hb hid

/-! ## Inference over merged scopes -/

/-- The scopes have the same names, with equal schemes or with schemes of which the second merges
the first. -/
def Scope.Merges (G G' : Scope) (s : Store) (L : Set Nat) : Prop :=
  ∀ x : String, Option.Rel (fun σ σ' => σ = σ' ∨ s.Merges L σ σ') G[x]? G'[x]?

theorem Scope.Merges.insert (h : G.Merges G' s L) (x : String) (σ : Scheme) :
    Scope.Merges (G.insert x σ) (G'.insert x σ) s L := by
  intro y
  rw [getElem?_insert, getElem?_insert]
  by_cases hy : y = x
  · simp only [hy, if_true]
    exact .some (.inl rfl)
  · simpa [hy] using h y

theorem Scope.Merges.touches (h : G.Merges G' s L) (ht : s.Touches s' A) (hA : ∀ v ∈ A, v ∈ L) :
    G.Merges G' s' L := by
  intro x
  have hx := h x
  generalize G[x]? = left at hx
  generalize G'[x]? = right at hx
  cases hx with
  | none => exact .none
  | some hx => exact .some (hx.imp id fun hmerges => hmerges.touches ht hA)

/-- What is open to the query is in the set, so all work leaves merged schemes alone. -/
structure Query.Merges (k : Query) (G : Scope) (L : Set Nat) : Prop where
  usable : k.scope.Usable k.state
  isOpen : ∀ v, k.Open v → v ∈ L
  scopes : G.Merges k.scope k.state.store L

theorem Query.Merges.starts {k k' : Query} (h : k.Merges G L) (hk : k.Starts k')
    (hscopes : G.Merges k.scope k'.state.store L → G'.Merges k'.scope k'.state.store L) :
    k'.Merges G' L where
  usable := (hk.usable h.usable).1
  isOpen v hv := h.isOpen v (hv.of_starts hk h.usable)
  scopes := hscopes (h.scopes.touches (hk.touches h.usable) fun v hv => h.isOpen v (.inl hv))

theorem infer_merges {e : Expr} (h : Query.Merges ⟨e, G', st⟩ G L) :
    infer e G st = infer e G' st := by
  induction e generalizing G G' st with
  | unit | absent | foreign => rfl
  | var x =>
      have hx := h.scopes x
      simp only [infer]
      generalize G[x]? = left at hx
      generalize (Query.mk (.var x) G' st).scope[x]? = right at hx
      cases hx with
      | none => rfl
      | some hx =>
          rcases hx with rfl | hx
          · rfl
          · exact (hx.instantiate_eq h.usable.ready).symm
  | lam x body ih =>
      have hbody := ih (h.starts .lam fun hscopes => hscopes.insert x _)
      simp only [infer, bind_apply, fresh_apply, hbody]
  | call f a ihf iha =>
      have hfunc := ihf (h.starts .func id)
      simp only [infer, bind_apply, hfunc]
      cases hf : infer f G' st with
      | error stop st₁ => rfl
      | ok func st₁ =>
          have harg := iha (h.starts (.arg hf) id)
          simp only [harg]
  | letIn x value body ihv ihb =>
      have hvalue := ihv (h.starts .value id)
      simp only [infer, bind_apply]
      have hnext : atNextLevel (infer value G) st = atNextLevel (infer value G') st := by
        rw [atNextLevel_apply, atNextLevel_apply, hvalue]
      rw [hnext]
      cases he : atNextLevel (infer value G') st with
      | error stop st₁ => rfl
      | ok t st₁ => exact ihb (h.starts (.body he) fun hscopes => hscopes.insert x _)

end LetPoly
