import LetPoly.Proofs.WellFormed

/-! # Inferred types are principal

An assignment gives types to the unbound variables of a store. If an expression has a type under
assumptions that the scope allows for some assignment, inference succeeds, and the assignment can be
carried on to the store that inference leaves so that the inferred type becomes the given one.
-/

namespace LetPoly

open Store

variable {Γ : Assumptions} {G : Scope} {s s' s₁ s₂ : Store} {st st' st₁ : State} {e : Expr}
  {t τ : Ty} {N : Numbering} {A A' : Set Nat} {θ θ' θ₁ θ₂ : Nat → Ty} {σ : Scheme} {P : Poly}
  {x : String} {v : Nat}

/-! ## Assignments -/

/-- All types mean the same under `θ` in `s` and under `θ'` in `s'`. -/
def Agrees (s : Store) (θ : Nat → Ty) (s' : Store) (θ' : Nat → Ty) : Prop :=
  ∀ t, s.Grounded t → (s'.resolve t).subst θ' = (s.resolve t).subst θ

theorem Agrees.trans (h : Agrees s θ s₁ θ₁) (ht : s.Extends s₁) (h₁ : Agrees s₁ θ₁ s₂ θ₂) :
    Agrees s θ s₂ θ₂ :=
  fun t hg => (h₁ t (ht.grounded hg)).trans (h t hg)

/-- New cells may be assigned at will. -/
theorem Allocated.agrees (h : Allocated st st') (hθ : ∀ v < st.store.size, θ' v = θ v) :
    Agrees st.store θ st'.store θ' := by
  intro t hg
  rw [h.resolve_eq hg]
  exact Ty.subst_congr fun v hv => hθ v (hg.lt_size_of_mem_unbound hv)

theorem agrees_fresh (st : State) (θ : Nat → Ty) (τ : Ty) :
    Agrees st.store θ st.afterFresh.store (Function.update θ st.store.size τ) :=
  (allocated_fresh st).agrees fun _ hv => Function.update_of_ne (Nat.ne_of_lt hv) ..

theorem Agrees.subst_of_free (h : Agrees s θ s' θ') (hlt : v < s.size) (hfree : s.link v = none) :
    (s'.resolve (.var v)).subst θ' = θ v := by
  rw [h (.var v) (.free hlt hfree), resolve_of_free hfree, Ty.subst]

/-- A variable of what a variable leads to has no other variables in its type. -/
theorem Agrees.vars_subset (h : Agrees s θ s' θ') (hlt : v < s.size) (hfree : s.link v = none)
    {w u : Nat} (hw : w ∈ s'.unbound (.var v)) (hu : u ∈ (θ' w).vars) : u ∈ (θ v).vars := by
  rw [← h.subst_of_free hlt hfree, Ty.vars_subst]
  exact List.mem_flatMap.mpr ⟨w, hw, hu⟩

/-! ## Schemes and assumptions -/

/-- Under the assignment the scheme has all instances of `P`, which mentions the variables of all
assigned types. The variables in `own` are put in the place of generic ones; the scheme quantifies
them, and no work is done on them. -/
structure Subsumes (s : Store) (A : Set Nat) (θ : Nat → Ty) (σ : Scheme) (P : Poly)
    (own : Nat → Bool) : Prop where
  quantified : ∀ v ∈ s.unbound σ.body, own v = true → σ.quantifies (s.id v) = true
  apart : ∀ v, own v = true → v < s.size ∧ v ∉ A
  inst : ∀ f, ∃ g : Nat → Ty, (∀ v, own v = false → g v = θ v) ∧
    (s.resolve σ.body).subst g = P.inst f
  vars : ∀ v ∈ s.unbound σ.body, own v = false → ∀ w ∈ (θ v).vars, w ∈ P.vars

/-- Work on other variables leads to no variable of the scheme's own. -/
theorem Subsumes.own_of_touches {own : Nat → Bool} (h : Subsumes s A θ σ P own)
    (ht : s.Touches s' A) (hlt : v < s.size) (hfree : s.link v = none) (hv : own v = false)
    {w : Nat} (hw : w ∈ s'.unbound (.var v)) : own w = false := by
  by_contra hown
  obtain ⟨hwlt, hwA⟩ := h.apart w (by simpa using hown)
  by_cases hA : v ∈ A
  · exact (ht.reach v hA w hw).elim hwA (Nat.not_le_of_lt hwlt)
  · rw [unbound_of_free (ht.free_of_not_mem hlt hA hfree), List.mem_singleton] at hw
    rw [hw] at hown
    exact hown hv

theorem Subsumes.resolve_own {own : Nat → Bool} (h : Subsumes s A θ σ P own) (ht : s.Touches s' A)
    (hfree : s.link v = none) (hv : own v = true) : s'.link v = none :=
  ht.free_of_not_mem (h.apart v hv).1 (h.apart v hv).2 hfree

theorem Subsumes.evolve {own : Nat → Bool} (h : Subsumes s A θ σ P own) (hσ : s.Grounded σ.body)
    (ht : s.Touches s' A) (hθ : Agrees s θ s' θ') (hA' : ∀ v ∈ A', v ∈ A ∨ s.size ≤ v) :
    Subsumes s' A' θ' σ P own where
  quantified v hv hown := by
    obtain ⟨hlt, hA⟩ := h.apart v hown
    rcases ht.mem_unbound_cases hσ hv with ⟨hv, -⟩ | ⟨u, -, hu, hv⟩
    · rw [ht.id_eq v hlt]
      exact h.quantified v hv hown
    · exact ((ht.reach u hu v hv).elim hA (Nat.not_le_of_lt hlt)).elim
  apart v hown := by
    obtain ⟨hlt, hA⟩ := h.apart v hown
    exact ⟨hlt.trans_le ht.size_le, fun hv => (hA' v hv).elim hA (Nat.not_le_of_lt hlt)⟩
  inst f := by
    obtain ⟨g, hg, hinst⟩ := h.inst f
    refine ⟨fun v => if own v then g v else θ' v, fun v hv => by simp [hv], ?_⟩
    rw [← hinst, ht.toExtends.resolve_subst _ hσ]
    refine Ty.subst_congr fun v hv => ?_
    have hlt := hσ.lt_size_of_mem_unbound hv
    have hfree := hσ.link_of_mem_unbound hv
    cases hown : own v with
    | true => simp [resolve_of_free (h.resolve_own ht hfree hown), Ty.subst, hown]
    | false =>
        rw [hg v hown, ← hθ.subst_of_free hlt hfree]
        exact Ty.subst_congr fun w hw => by simp [h.own_of_touches ht hlt hfree hown hw]
  vars v hv hown w hw := by
    obtain ⟨u, hu, hv⟩ := (ht.toExtends.mem_unbound hσ).mp hv
    have hlt := hσ.lt_size_of_mem_unbound hu
    have hfree := hσ.link_of_mem_unbound hu
    cases hu' : own u with
    | true =>
        rw [unbound_of_free (h.resolve_own ht hfree hu'), List.mem_singleton] at hv
        rw [hv, hu'] at hown
        cases hown
    | false => exact h.vars u hu hu' w (hθ.vars_subset hlt hfree hv hw)

/-- The scope has the names of the assumptions, with schemes that subsume them. -/
structure Matches (Γ : Assumptions) (G : Scope) (s : Store) (A : Set Nat) (θ : Nat → Ty) :
    Prop where
  subsumes : ∀ (x : String) σ, G[x]? = some σ → ∃ P own, Γ x = some P ∧ Subsumes s A θ σ P own
  absent : ∀ x : String, G[x]? = none → Γ x = none

theorem Matches.evolve (h : Matches Γ G s A θ) (hG : G.Proper s) (ht : s.Touches s' A)
    (hθ : Agrees s θ s' θ') (hA' : ∀ v ∈ A', v ∈ A ∨ s.size ≤ v) : Matches Γ G s' A' θ' where
  subsumes x σ hx := by
    obtain ⟨P, own, hP, hown⟩ := h.subsumes x σ hx
    exact ⟨P, own, hP, hown.evolve (hG σ ⟨x, hx⟩).grounded ht hθ hA'⟩
  absent := h.absent

theorem Matches.insert {own : Nat → Bool} (h : Matches Γ G s A θ) (hσ : Subsumes s A θ σ P own)
    (x : String) : Matches (Γ.insert x P) (G.insert x σ) s A θ where
  subsumes y σ' hy := by
    rw [Scope.getElem?_insert] at hy
    by_cases hyx : y = x
    · obtain rfl : σ = σ' := by simpa [hyx] using hy
      exact ⟨P, own, by simp [Assumptions.insert, hyx], hσ⟩
    · simpa [Assumptions.insert, hyx] using h.subsumes y σ' (by simpa [hyx] using hy)
  absent y hy := by
    rw [Scope.getElem?_insert] at hy
    by_cases hyx : y = x
    · simp [hyx] at hy
    · simpa [Assumptions.insert, hyx] using h.absent y (by simpa [hyx] using hy)

theorem Matches.scheme (h : Matches Γ G s A θ) (hx : Γ x = some P) :
    ∃ σ own, G[x]? = some σ ∧ Subsumes s A θ σ P own := by
  cases hσ : G[x]? with
  | none => simp [h.absent x hσ] at hx
  | some σ =>
      obtain ⟨P', own, hP', hown⟩ := h.subsumes x σ hσ
      obtain rfl : P' = P := by simpa [hx] using hP'.symm
      exact ⟨σ, own, rfl, hown⟩

/-- The type of a free variable mentions nothing but what the assumptions mention. -/
theorem Matches.free {w : Nat} (h : Matches Γ G s {v | G.Free s v} θ) (hG : G.Proper s)
    (hv : G.Free s v) (hw : w ∈ (θ v).vars) : Γ.Free w := by
  have hfree := hv
  obtain ⟨σ, ⟨x, hx⟩, hv⟩ := hv
  obtain ⟨P, own, hP, hown⟩ := h.subsumes x σ hx
  have hmem := ((free_iff (hG σ ⟨x, hx⟩).grounded).mp hv).1
  refine ⟨x, P, hP, hown.vars v hmem ?_ w hw⟩
  by_contra hown'
  exact (hown.apart v (by simpa using hown')).2 hfree

/-! ## The rules -/

/-- Inference succeeds with a type that the assignment carried on makes into the given one. -/
def Infers (G : Scope) (st : State) (e : Expr) (θ : Nat → Ty) (τ : Ty) : Prop :=
  ∃ t st' θ', infer e G st = .ok t st' ∧ Agrees st.store θ st'.store θ' ∧
    (st'.store.resolve t).subst θ' = τ

/-- The type that the cell for a quantified variable of the scheme is assigned. -/
def assignImages (s : Store) (σ : Scheme) (w : Int64 → Nat) (g θ : Nat → Ty) (v : Nat) : Ty :=
  match (s.unbound σ.body).find? fun u => σ.quantifies (s.id u) && w (s.id u) == v with
  | some u => g u
  | none => θ v

theorem InstanceOf.assignImages_of_lt {w : Int64 → Nat} {g : Nat → Ty}
    (h : InstanceOf σ st t st' w) (hv : v < st.store.size) :
    assignImages st.store σ w g θ v = θ v := by
  have hnone : (st.store.unbound σ.body).find? (fun u =>
      σ.quantifies (st.store.id u) && w (st.store.id u) == v) = none := by
    refine List.find?_eq_none.mpr fun u _ hu => ?_
    simp only [Bool.and_eq_true, beq_iff_eq, Scheme.quantifies, List.contains_iff_mem] at hu
    have := (h.new _ hu.1).1
    omega
  rw [assignImages, hnone]

theorem InstanceOf.assignImages_image {w : Int64 → Nat} {g : Nat → Ty}
    (h : InstanceOf σ st t st' w)
    (hinj : Set.InjOn st.store.id {v | v ∈ st.store.unbound σ.body})
    (hv : v ∈ st.store.unbound σ.body) (hq : σ.quantifies (st.store.id v) = true) :
    assignImages st.store σ w g θ (w (st.store.id v)) = g v := by
  have hsome : ((st.store.unbound σ.body).find? fun u =>
      σ.quantifies (st.store.id u) && w (st.store.id u) == w (st.store.id v)).isSome :=
    List.find?_isSome.mpr ⟨v, hv, by simp [hq]⟩
  obtain ⟨u, hu⟩ := Option.isSome_iff_exists.mp hsome
  have hprop := List.find?_some hu
  simp only [Bool.and_eq_true, beq_iff_eq, Scheme.quantifies, List.contains_iff_mem] at hprop hq
  have hid := h.inj _ hprop.1 _ hq hprop.2
  obtain rfl : u = v := hinj (List.mem_of_find?_eq_some hu) hv hid
  rw [assignImages, hu]

theorem Query.Tracked.id_injOn (h : Query.Tracked ⟨e, G, st⟩ N) (hσ : G.Has σ) :
    Set.InjOn st.store.id {v | v ∈ st.store.unbound σ.body} := by
  have hg := (h.fits.proper σ hσ).grounded
  rcases h.live σ hσ with ⟨-, hinj⟩ | hlive
  · exact hinj
  intro u hu v hv hid
  refine N.inj (hlive u hu) (hlive v hv) ?_
  rw [← h.covers.1.id_eq u (hg.lt_size_of_mem_unbound hu), hid,
    h.covers.1.id_eq v (hg.lt_size_of_mem_unbound hv)]

theorem infers_var (h : Query.Tracked ⟨.var x, G, st⟩ N)
    (hm : Matches Γ G st.store {v | G.Free st.store v} θ) (hx : Γ x = some P) (f : Nat → Ty) :
    Infers G st (.var x) θ (P.inst f) := by
  obtain ⟨σ, own, hσ, hown⟩ := hm.scheme hx
  obtain ⟨g, hg, hinst⟩ := hown.inst f
  have hproper := h.fits.proper σ ⟨x, hσ⟩
  obtain ⟨t, st', w, hrun, hinstance⟩ := instantiate_ok (ε := Failure) h.fits.ready hproper
  refine ⟨t, st', assignImages st.store σ w g θ, by simp [infer, hσ, hrun],
    hinstance.allocated.agrees fun v hv => hinstance.assignImages_of_lt hv, ?_⟩
  rw [hinstance.resolve_eq, poly, Poly.inst_close, Ty.subst_subst,
    hinstance.allocated.resolve_eq hproper.grounded, ← hinst]
  refine Ty.subst_congr fun v hv => ?_
  have hlt := hproper.grounded.lt_size_of_mem_unbound hv
  have hid : st'.store.id v = st.store.id v := by
    simp [Store.id, hinstance.allocated.cell_eq v hlt]
  rw [hid]
  cases hq : σ.quantifies (st.store.id v) with
  | true =>
      simp only [if_true, Ty.subst]
      exact hinstance.assignImages_image (h.id_injOn ⟨x, hσ⟩) hv hq
  | false =>
      have hnot : own v = false := by
        by_contra hne
        simp [hown.quantified v hv (by simpa using hne)] at hq
      simp only [Bool.false_eq_true, if_false, Ty.subst]
      rw [hinstance.assignImages_of_lt hlt, hg v hnot]

theorem Matches.insert_fresh (hm : Matches Γ G st.store {v | G.Free st.store v} θ)
    (hfits : G.Fits st) (x : String) (τ : Ty) :
    Matches (Γ.insert x (.ofTy τ)) (G.insert x (.mono (.var st.store.size))) st.afterFresh.store
      {v | Scope.Free (G.insert x (.mono (.var st.store.size))) st.afterFresh.store v}
      (Function.update θ st.store.size τ) := by
  have hevolve := hm.evolve hfits.proper ((allocated_fresh st).touches hfits.active)
    (agrees_fresh st θ τ) fun v hv => hfits.free_insert_fresh (x := x) hv
  refine hevolve.insert (⟨by simp, by simp, fun f => ?_, fun v hv _ w hw => ?_⟩ :
    Subsumes _ _ _ _ _ fun _ => false) x
  · exact ⟨_, fun _ _ => rfl, by simp [Scheme.mono, resolve_of_free (link_fresh st), Ty.subst]⟩
  · obtain rfl : v = st.store.size := by simpa [Scheme.mono, unbound_fresh] using hv
    simpa using hw

theorem infers_lam {ρ : Ty}
    (hbody : Infers (G.insert x (.mono (.var st.store.size))) st.afterFresh e
      (Function.update θ st.store.size τ) ρ) :
    Infers G st (.lam x e) θ (.arrow τ ρ) := by
  obtain ⟨r, st', θ', hrun, hagrees, hr⟩ := hbody
  refine ⟨_, st', θ', infer_lam_eq_ok.mpr ⟨r, hrun, rfl⟩,
    (agrees_fresh st θ τ).trans (allocated_fresh st).toExtends hagrees, ?_⟩
  have hlt : st.store.size < st.afterFresh.store.size := by simp [size_afterFresh]
  have hvar := hagrees.subst_of_free hlt (link_fresh st)
  rw [Function.update_self] at hvar
  rw [resolve_arrow, Ty.subst, hr, hvar]

theorem infers_call {f a : Expr} {func arg ρ : Ty} {st₂ : State} (hfits : G.Fits st)
    (hf : infer f G st = .ok func st₁) (ha : infer a G st₁ = .ok arg st₂)
    (hagrees₁ : Agrees st.store θ st₁.store θ₁) (hagrees₂ : Agrees st₁.store θ₁ st₂.store θ₂)
    (hfunc : (st₁.store.resolve func).subst θ₁ = .arrow τ ρ)
    (harg : (st₂.store.resolve arg).subst θ₂ = τ) : Infers G st (.call f a) θ ρ := by
  have hinf := infer_ok hfits.toUsable hf
  have hinf' := infer_ok (hfits.inferred hinf).toUsable ha
  have hops := hinf.operands hfits.toUsable hinf'
  -- with the given result for the fresh variable, the assignment makes the two types equal
  let θ₃ : Nat → Ty := Function.update θ₂ st₂.store.size ρ
  have hagrees₃ : Agrees st₂.store θ₂ st₂.afterFresh.store θ₃ := agrees_fresh st₂ θ₂ ρ
  have hvar : (st₂.afterFresh.store.resolve (.var st₂.store.size)).subst θ₃ = ρ := by
    rw [resolve_of_free (link_fresh st₂), Ty.subst]
    exact Function.update_self ..
  have hequal : (st₂.afterFresh.store.resolve func).subst θ₃ =
      (st₂.afterFresh.store.resolve (.arrow arg (.var st₂.store.size))).subst θ₃ := by
    rw [hagrees₃ func (hinf'.touches.grounded hinf.proper.grounded),
      hagrees₂ func hinf.proper.grounded, hfunc, resolve_arrow, Ty.subst, hvar,
      hagrees₃ arg hinf'.proper.grounded, harg]
  obtain ⟨s', hrun⟩ := unify_ok_of_subst_eq hops.proper_func hops.proper_arg hequal
  have hgeneral : Agrees st₂.afterFresh.store θ₃ s' θ₃ :=
    (unified_of_unify hops.proper_func hops.proper_arg hrun).general θ₃ hequal
  refine ⟨_, _, θ₃, infer_call_eq_ok.mpr ⟨func, st₁, arg, st₂, s', hf, ha, hrun, rfl, rfl⟩, ?_, ?_⟩
  · exact hagrees₁.trans hinf.touches.toExtends (hagrees₂.trans hinf'.touches.toExtends
      (hagrees₃.trans (allocated_fresh st₂).toExtends hgeneral))
  · exact (hgeneral _ (proper_arrow.mp hops.proper_arg).2.grounded).trans hvar

/-- A variable of a local definition that is not above the level of the scope is assigned a type
with no other variables than the assumptions mention. -/
theorem Matches.free_of_level_le {u : Ty} {w : Nat}
    (hm : Matches Γ G st.store {v | G.Free st.store v} θ) (hfits : G.Fits st)
    (hinf : Inferred G (st.atLevel (st.supply.level + 1)) u st₁)
    (hagrees : Agrees st.store θ st₁.store θ₁) (hv : v ∈ st₁.store.unbound u)
    (hlevel : st₁.store.level v ≤ st.supply.level) (hw : w ∈ (θ₁ v).vars) : Γ.Free w := by
  have hg := hinf.proper.grounded
  rcases hinf.justified v (hg.lt_size_of_mem_unbound hv) (hg.link_of_mem_unbound hv)
    (hinf.within v hv) with hgt | ⟨a, ha, hmem, -⟩
  · have hgt : st.supply.level + 1 ≤ st₁.store.level v := hgt
    omega
  · have hactive := hfits.active a ha
    exact hm.free hfits.proper ha (hagrees.vars_subset hactive.1 hactive.2 hmem hw)

theorem subsumes_generalize {u : Ty} {q : Nat → Bool}
    (hm : Matches Γ G st.store {v | G.Free st.store v} θ) (hfits : G.Fits st)
    (hinf : Inferred G (st.atLevel (st.supply.level + 1)) u st₁)
    (hagrees : Agrees st.store θ st₁.store θ₁) (hq : ∀ v, Γ.Free v → q v = false)
    (hA : ∀ v ∈ A, st₁.store.level v ≤ st.supply.level) :
    Subsumes st₁.store A θ₁ (st₁.store.generalizeAt st.supply.level u)
      (.close q ((st₁.store.resolve u).subst θ₁))
      fun v => decide (v ∈ st₁.store.unbound u ∧ st.supply.level < st₁.store.level v) where
  quantified v hv hown := by
    obtain ⟨hmem, hlevel⟩ := of_decide_eq_true hown
    have := mem_vars_generalizeAt.mpr ⟨v, hmem, hlevel, rfl⟩
    simpa [Scheme.quantifies] using this
  apart v hown := by
    obtain ⟨hmem, hlevel⟩ := of_decide_eq_true hown
    exact ⟨hinf.proper.grounded.lt_size_of_mem_unbound hmem,
      fun hv => Int.not_lt.mpr (hA v hv) hlevel⟩
  inst f := by
    let h : Nat → Ty := fun w => if q w then f w else .var w
    refine ⟨fun v => if v ∈ st₁.store.unbound u ∧ st.supply.level < st₁.store.level v then
      (θ₁ v).subst h else θ₁ v, fun v hv => if_neg (of_decide_eq_false hv), ?_⟩
    rw [Poly.inst_close, Ty.subst_subst]
    refine Ty.subst_congr fun v hv => ?_
    by_cases hlevel : st.supply.level < st₁.store.level v
    · exact if_pos ⟨hv, hlevel⟩
    · rw [if_neg fun hown => hlevel hown.2]
      refine (Ty.subst_eq_self fun w hw => ?_).symm
      simp [hq w (hm.free_of_level_le hfits hinf hagrees hv (Int.not_lt.mp hlevel) hw)]
  vars v hv hown w hw := by
    have hlevel : st₁.store.level v ≤ st.supply.level :=
      Int.not_lt.mp fun hlt => of_decide_eq_false hown ⟨hv, hlt⟩
    rw [Poly.mem_vars_close, Ty.vars_subst]
    exact ⟨List.mem_flatMap.mpr ⟨v, hv, hw⟩,
      hq w (hm.free_of_level_le hfits hinf hagrees hv hlevel hw)⟩

/-- If the expression has a type under assumptions that the scope allows, inference succeeds with a
type that is at least as general. -/
theorem infer_complete (h : HasType Γ e τ) (htracked : Query.Tracked ⟨e, G, st⟩ N)
    (hm : Matches Γ G st.store {v | G.Free st.store v} θ) : Infers G st e θ τ := by
  induction h generalizing G st θ with
  | unit => exact ⟨.unit, st, θ, rfl, fun t _ => rfl, by simp [Ty.subst]⟩
  | var f hx hτ => exact hτ ▸ infers_var htracked hm hx f
  | @lam Γ x e τ ρ _ _ ih =>
      exact infers_lam (ih (htracked.starts .lam) (hm.insert_fresh htracked.fits x τ))
  | call _ _ ihf iha =>
      obtain ⟨func, st₁, θ₁, hf, hagrees₁, hfunc⟩ := ihf (htracked.starts .func) hm
      have hfits : G.Fits st := htracked.fits
      have hinf := infer_ok hfits.toUsable hf
      have hm₁ := hm.evolve hfits.proper hinf.touches hagrees₁
        fun v hv => Scope.Free.of_touches_self hfits.proper hinf.touches hv
      obtain ⟨arg, st₂, θ₂, ha, hagrees₂, harg⟩ := iha (htracked.starts (.arg hf)) hm₁
      exact infers_call hfits hf ha hagrees₁ hagrees₂ hfunc harg
  | @letIn Γ x e e' τ ρ q hq _ _ ihe ihe' =>
      obtain ⟨u, st₀, θ₁, hvalue₀, hagrees, rfl⟩ := ihe (htracked.starts .value) hm
      have hfits : G.Fits st := htracked.fits
      have hvalue := (atNextLevel_infer_eq_ok hfits.toUsable).mpr ⟨st₀, hvalue₀, rfl⟩
      have hinf₀ := infer_ok hfits.toUsable.nextLevel hvalue₀
      have hinf := inferred_of_atNextLevel hfits.toUsable hvalue
      -- levels make generic all that the rule may make generic
      have hsubsumes := subsumes_generalize hm hfits hinf₀ hagrees hq
        (hfits.insert_generalize hinf x).level_le
      have hm' := (hm.evolve hfits.proper hinf.touches hagrees
        fun v hv => hinf.free_insert_generalize hfits.toUsable hv).insert hsubsumes x
      obtain ⟨t, st', θ', hbody, hagrees', ht⟩ := ihe' (htracked.starts (.body hvalue)) hm'
      exact ⟨t, st', θ', infer_letIn_eq_ok.mpr ⟨u, _, hvalue, hbody⟩,
        hagrees.trans hinf.touches.toExtends hagrees', ht⟩

/-! ## Runs -/

/-- No cell is quantified by one scheme of the environment and free in another. -/
def Env.Unmixed (env : Env) (s : Store) : Prop :=
  ∀ σ σ', env.scope.Has σ → env.scope.Has σ' → ∀ v, s.Reaches σ.body v →
    σ.quantifies (s.id v) = true → ¬ s.Free σ' v

/-- What a scope stands for under an assignment is matched by the scope. -/
theorem matches_assumptions (hG : G.Proper s)
    (hunmixed : ∀ σ, G.Has σ → ∀ v ∈ s.unbound σ.body, σ.quantifies (s.id v) = true →
      ¬ G.Free s v) (θ : Nat → Ty) :
    Matches ((s.assumptions G).subst θ) G s {v | G.Free s v} θ where
  subsumes x σ hx := by
    have hg := (hG σ ⟨x, hx⟩).grounded
    refine ⟨(s.poly σ).subst θ,
      fun v => decide (v ∈ s.unbound σ.body ∧ σ.quantifies (s.id v) = true),
      by simp [assumptions, Assumptions.subst, hx], ?_⟩
    refine ⟨fun v _ hown => (of_decide_eq_true hown).2, fun v hown => ?_, fun f => ?_,
      fun v hv hown w hw => ?_⟩
    · obtain ⟨hv, hq⟩ := of_decide_eq_true hown
      exact ⟨hg.lt_size_of_mem_unbound hv, hunmixed σ ⟨x, hx⟩ v hv hq⟩
    · refine ⟨fun v => if v ∈ s.unbound σ.body ∧ σ.quantifies (s.id v) = true then f v else θ v,
        fun v hown => if_neg (of_decide_eq_false hown), ?_⟩
      rw [poly, Poly.inst_subst_close]
      refine Ty.subst_congr fun v hv => ?_
      have hv : v ∈ s.unbound σ.body := hv
      simp [hv]
    · have hq : σ.quantifies (s.id v) = false := by
        by_contra hne
        exact of_decide_eq_false hown ⟨hv, by simpa using hne⟩
      exact Poly.mem_vars_subst.mpr ⟨v, Poly.mem_vars_close.mpr ⟨hv, hq⟩, hw⟩
  absent x hx := by simp [assumptions, Assumptions.subst, hx]

/-- Only the types that are put in a complete type matter. -/
theorem Ty.subst_complete_part (h : (t.subst θ).Complete) :
    (t.subst fun v => if (θ v).Complete then θ v else .unit) = t.subst θ := by
  refine Ty.subst_congr fun v hv => ?_
  rw [if_pos ((Ty.complete_subst.mp h).2 v hv)]

/-- If types for the free variables of the environment give the expression a type, a run infers a
type for it, and the given types are instances of what the run finds. -/
theorem infer_principal (c : Context) (env : Env) (s : Store) (e : Expr) (θ : Nat → Ty) (τ : Ty)
    (hwf : env.WellFormed s) (hunmixed : env.Unmixed s)
    (hwrap : (c.infer (some env) s e).NoWrap env)
    (hθ : ∀ v, env.scope.Free s v → (θ v).Complete)
    (h : HasType ((s.assumptions env.scope).subst θ) e τ) :
    ∃ t, (c.infer (some env) s e).result = .ok t ∧
      ∃ ψ : Nat → Ty, (∀ v, (ψ v).Complete) ∧
        ((c.infer (some env) s e).store.resolve t).subst ψ = τ ∧
        ∀ v, env.scope.Free s v →
          ((c.infer (some env) s e).store.resolve (.var v)).subst ψ = θ v := by
  have he : e ≠ .absent := by
    rintro rfl
    cases h
  have htracked := hwf.tracked (Run.NoWrap.inference hwrap he)
  have hm := matches_assumptions hwf.proper (fun σ hσ v hv hq hfree => by
    obtain ⟨σ', hσ', hv'⟩ := hfree
    have hreach := ((hwf.proper σ hσ).grounded.mem_unbound.mp hv).1
    exact hunmixed σ σ' hσ hσ' v hreach hq hv') θ
  obtain ⟨t, st', θ', hrun, hagrees, ht⟩ := infer_complete h htracked hm
  change env.inference s e false = .ok t st' at hrun
  have hstore : (c.infer (some env) s e).store = st'.store := (c.run_of_ok he hrun).1
  rw [hstore]
  refine ⟨t, c.run_result_eq_ok.mpr ⟨he, st', hrun⟩,
    fun v => if (θ' v).Complete then θ' v else .unit, fun v => ?_, ?_, fun v hv => ?_⟩
  · dsimp only
    split
    · assumption
    · trivial
  · rw [Ty.subst_complete_part (ht ▸ h.complete), ht]
  · have hactive := hv.active hwf.proper
    have hvar : (st'.store.resolve (.var v)).subst θ' = θ v :=
      hagrees.subst_of_free hactive.1 hactive.2
    rw [Ty.subst_complete_part (hvar ▸ hθ v hv), hvar]

theorem idleEnv_unmixed {i : Int64} (hi : i ≠ 0) : (idleEnv i).Unmixed idleStore := by
  intro σ σ' hσ hσ' v hv hq _
  rw [has_idleEnv hσ, reaches_idleEnv ⟨σ, hσ, hv⟩] at hq
  simp [Scheme.quantifies, idleStore, Store.id, Store.cell, hi.symm] at hq

theorem hasType_sharingExpr {Γ : Assumptions} (hf : Γ "f" = some (.ofTy (.arrow .unit .unit))) :
    HasType Γ sharingExpr (.arrow .unit .unit) := by
  have hfunc : HasType ((Γ.insert "x" (.ofTy .unit)).insert "z" (.ofTy .unit)) (.var "f")
      (.arrow .unit .unit) :=
    .var .var (by simpa [Assumptions.insert] using hf) Poly.inst_ofTy ⟨trivial, trivial⟩
  have harg : HasType ((Γ.insert "x" (.ofTy .unit)).insert "z" (.ofTy .unit)) (.var "x") .unit :=
    .var .var (by simp [Assumptions.insert]) Poly.inst_ofTy trivial
  have hvalue : HasType (Γ.insert "x" (.ofTy .unit)) (.lam "z" (.call (.var "f") (.var "x")))
      (.arrow .unit .unit) := .lam trivial (.call hfunc harg)
  refine .lam trivial (.letIn (fun _ => false) (fun _ _ => rfl) hvalue (.call ?_ .unit))
  exact .var .var (by simp [Assumptions.insert, Poly.ofTy]) Poly.inst_ofTy ⟨trivial, trivial⟩

/-- If the cell of the environment is a function from unit to unit, so is the expression. -/
theorem infer_principal_idle :
    (idleEnv 9).WellFormed idleStore ∧ (idleEnv 9).Unmixed idleStore ∧
    (({} : Context).infer (some (idleEnv 9)) idleStore sharingExpr).NoWrap (idleEnv 9) ∧
    HasType ((idleStore.assumptions (idleEnv 9).scope).subst fun _ => .arrow .unit .unit)
      sharingExpr (.arrow .unit .unit) ∧
    ∃ t, (({} : Context).infer (some (idleEnv 9)) idleStore sharingExpr).result = .ok t ∧
      ∃ ψ : Nat → Ty, (∀ v, (ψ v).Complete) ∧
        ((({} : Context).infer (some (idleEnv 9)) idleStore sharingExpr).store.resolve t).subst ψ =
          .arrow .unit .unit ∧
        ∀ v, (idleEnv 9).scope.Free idleStore v →
          ((({} : Context).infer (some (idleEnv 9)) idleStore sharingExpr).store.resolve
            (.var v)).subst ψ = .arrow .unit .unit := by
  have hwrap : (({} : Context).infer (some (idleEnv 9)) idleStore sharingExpr).NoWrap
      (idleEnv 9) := by decide +kernel
  have htype := hasType_sharingExpr
    (Γ := (idleStore.assumptions (idleEnv 9).scope).subst fun _ => .arrow .unit .unit)
    (by decide +kernel)
  refine ⟨idleEnv_wellFormed 9, idleEnv_unmixed (by decide), hwrap, htype, ?_⟩
  exact infer_principal {} (idleEnv 9) idleStore sharingExpr (fun _ => .arrow .unit .unit)
    (.arrow .unit .unit) (idleEnv_wellFormed 9) (idleEnv_unmixed (by decide)) hwrap
    (fun _ _ => ⟨trivial, trivial⟩) htype

end LetPoly
