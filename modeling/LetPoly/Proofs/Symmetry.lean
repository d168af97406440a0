import LetPoly.Proofs.Failing
import LetPoly.Proofs.Twins

/-! # The sides of unification

Unified the other way round, two types link their cells in the other direction. Up to this the two
runs do the same, to the point where they fail: the stores that they leave are twins, and their
errors are about the same types.
-/

namespace LetPoly

open Store

variable {s s' s₁ s₂ s₁' s₂' : Store} {a a' b b' p r t t' : Ty} {v : Nat} {e : UnifyError}

/-! ## Lowering levels in twins -/

theorem Store.grounded_lowerAll (vs : List Nat) (ℓ : Int) (ht : s.Grounded t) :
    (s.lowerAll vs ℓ).Grounded t :=
  (extends_of_link_eq (by simp) (link_lowerAll vs ℓ)).grounded ht

namespace Store.Twin

theorem mem_map_choice (h : s₁.Twin s₂) {vs : List Nat} (hvs : ∀ v ∈ vs, v ∈ s₁.unlinked)
    (hv : v ∈ s₁.unlinked) : s₂.choice v ∈ vs.map s₂.choice ↔ v ∈ vs := by
  constructor
  · intro hmem
    obtain ⟨w, hw, heq⟩ := List.mem_map.mp hmem
    rwa [← h.choice_choice hv, ← heq, h.choice_choice (hvs w hw)]
  · exact List.mem_map_of_mem

/-- Twins stay twins if the same classes of cells are lowered in both. -/
theorem lowerAll (h : s₁.Twin s₂) {vs : List Nat} (hvs : ∀ v ∈ vs, v ∈ s₁.unlinked) (ℓ : Int) :
    (s₁.lowerAll vs ℓ).Twin (s₂.lowerAll (vs.map s₂.choice) ℓ) where
  size_eq := by simpa using h.size_eq
  grounded v hv := grounded_lowerAll vs ℓ (h.grounded v (by simpa using hv))
  grounded' v hv := grounded_lowerAll _ ℓ (h.grounded' v (by simpa using hv))
  specializes t ht := by
    have ht₁ : s₁.Grounded t := grounded_of_vars fun v hv =>
      h.grounded v (by simpa using ht.lt_size hv)
    simpa only [resolve_lowerAll] using h.specializes t ht₁
  specializes' t ht := by
    have ht₂ : s₂.Grounded t := grounded_of_vars fun v hv =>
      h.grounded' v (by simpa using ht.lt_size hv)
    simpa only [resolve_lowerAll] using h.specializes' t ht₂
  level_eq v hv w w' hw hw' := by
    rw [resolve_lowerAll] at hw hw'
    rw [size_lowerAll] at hv
    have hmem : w ∈ s₁.unbound (.var v) := by simp [unbound, hw, Ty.vars]
    have hunlinked : w ∈ s₁.unlinked :=
      ⟨(h.grounded v hv).lt_size_of_mem_unbound hmem, (h.grounded v hv).link_of_mem_unbound hmem⟩
    obtain rfl : s₂.choice w = w' := by
      rw [h.resolve_rename (h.grounded v hv), hw] at hw'
      simpa using hw'
    rw [level_lowerAll (h.choice_mem hunlinked).1, level_lowerAll hunlinked.1,
      h.level_eq v hv w _ hw hw']
    simp only [h.mem_map_choice hvs hunlinked]

theorem unbound_eq_map (h : s₁.Twin s₂) (ht : s₁.Grounded t)
    (heq : s₂.resolve t' = s₂.resolve t) : s₂.unbound t' = (s₁.unbound t).map s₂.choice := by
  rw [unbound, heq, h.resolve_rename ht, Ty.vars_rename, unbound]

/-- Looking for a variable, the same cells are met in the same order. -/
theorem adjust (h : s₁.Twin s₂) (hv : v ∈ s₁.unlinked) (ht : s₁.Grounded t)
    (heq : s₂.resolve t' = s₂.resolve t) :
    (s₁.adjust v (s₁.level v) t).2.Twin
      (s₂.adjust (s₂.choice v) (s₂.level (s₂.choice v)) t').2 := by
  have hcells : ∀ w ∈ s₁.unbound t, w ∈ s₁.unlinked := fun w hw =>
    ⟨ht.lt_size_of_mem_unbound hw, ht.link_of_mem_unbound hw⟩
  have hidx : ((s₁.unbound t).map s₂.choice).idxOf (s₂.choice v) = (s₁.unbound t).idxOf v := by
    apply idxOf_map
    intro w hw hsame
    rw [← h.choice_choice (hcells w hw), hsame, h.choice_choice hv]
  simp only [Store.adjust, h.unbound_eq_map ht heq, hidx, ← List.map_take,
    h.sameClasses.level_eq v hv]
  exact h.lowerAll (fun w hw => hcells w (List.mem_of_mem_take hw)) _

theorem resolve_of_link (h : s₁.Twin s₂) (hv : s₁.Grounded (.var v)) (hlink : s₁.link v = some t) :
    s₂.resolve (.var v) = s₂.resolve t := by
  have ht := hv.of_link hlink
  rw [h.resolve_rename hv, h.resolve_rename ht, Store.resolve_of_link hlink ht]

end Store.Twin

/-! ## Failures of twins -/

theorem Store.IsHead.eq_unit {h : Ty} (hh : s.IsHead t h) (heq : s.resolve t = .unit) :
    h = .unit := by
  rw [← hh.resolve_eq] at heq
  cases h with
  | unit => rfl
  | arrow | absent => simp at heq
  | var w => simp [resolve_of_free (hh.free w rfl)] at heq

theorem Store.IsHead.eq_arrow {h : Ty} (hh : s.IsHead t h) (heq : s.resolve t = .arrow p r) :
    ∃ p' r', h = .arrow p' r' ∧ s.resolve p' = p ∧ s.resolve r' = r := by
  rw [← hh.resolve_eq] at heq
  cases h with
  | unit | absent => simp at heq
  | var w => simp [resolve_of_free (hh.free w rfl)] at heq
  | arrow p' r' =>
      rw [resolve_arrow, Ty.arrow.injEq] at heq
      exact ⟨p', r', rfl, heq⟩

/-- A type over the first store and one over the second that come to the same. -/
structure Store.Counterpart (s₁ s₂ : Store) (a a' : Ty) : Prop where
  proper : s₁.Proper a
  proper' : s₂.Proper a'
  resolve_eq : s₂.resolve a' = s₂.resolve a

namespace Store.Counterpart

theorem rename_eq (h : s₁.Counterpart s₂ a a') (hs : s₁.Twin s₂) :
    s₂.resolve a' = (s₁.resolve a).rename s₂.choice :=
  h.resolve_eq.trans (hs.resolve_rename h.proper.grounded)

theorem of_link (h : s₁.Counterpart s₂ (.var v) a') (hs : s₁.Twin s₂)
    (hlink : s₁.link v = some t) : s₁.Counterpart s₂ t a' where
  proper := h.proper.of_link hlink
  proper' := h.proper'
  resolve_eq := h.resolve_eq.trans (hs.resolve_of_link h.proper.grounded hlink)

theorem head (h : s₁.Counterpart s₂ a a') : s₁.Counterpart s₂ a (s₂.head a') where
  proper := h.proper
  proper' := h.proper'.head
  resolve_eq := h.proper'.grounded.isHead.resolve_eq.trans h.resolve_eq

theorem head_unit (h : s₁.Counterpart s₂ .unit a') : s₂.head a' = .unit :=
  h.proper'.grounded.isHead.eq_unit (by simpa using h.resolve_eq)

theorem head_arrow (h : s₁.Counterpart s₂ (.arrow p r) a') :
    ∃ p' r', s₂.head a' = .arrow p' r' ∧ s₁.Counterpart s₂ p p' ∧ s₁.Counterpart s₂ r r' := by
  obtain ⟨p', r', hhead, hp, hr⟩ :=
    h.proper'.grounded.isHead.eq_arrow (by simpa using h.resolve_eq)
  have hproper := proper_arrow.mp h.proper
  have hproper' := proper_arrow.mp (hhead ▸ h.proper'.head)
  exact ⟨p', r', hhead, ⟨hproper.1, hproper'.1, hp⟩, hproper.2, hproper'.2, hr⟩

theorem head_var (h : s₁.Counterpart s₂ (.var v) a') (hs : s₁.Twin s₂) (hv : v ∈ s₁.unlinked) :
    s₂.head a' = .var (s₂.choice v) := by
  apply h.proper'.grounded.isHead.eq_var
  rw [h.proper'.grounded.isHead.resolve_eq, h.resolve_eq, hs.resolve_of_unlinked hv]

theorem touches {A B : Set Nat} (h : s₁.Counterpart s₂ a a') (hs : s₁.Twin s₂)
    (h₁ : s₁.Touches s₁' A) (h₂ : s₂.Touches s₂' B) : s₁'.Counterpart s₂' a a' where
  proper := h₁.proper h.proper
  proper' := h₂.proper h.proper'
  resolve_eq := by
    rw [h₂.toExtends.resolve_eq h.proper'.grounded, h.resolve_eq,
      ← h₂.toExtends.resolve_eq (hs.grounded_of h.proper.grounded)]

end Store.Counterpart

/-- If two types are unified in a store, their counterparts are unified in its twin, from whichever
side, and the stores stay twins. -/
theorem Store.Twin.unify_swap (hs : s₁.Twin s₂) (ha : s₁.Counterpart s₂ a a')
    (hb : s₁.Counterpart s₂ b b') (hrun : unify a b s₁ = .ok () s₁') :
    ∃ s₂', unify b' a' s₂ = .ok () s₂' ∧ s₁'.Twin s₂' := by
  have h₁ := unified_of_unify ha.proper hb.proper hrun
  have hext₁ := h₁.touches.toExtends
  have hread : ∀ {t : Ty}, s₂.Grounded t →
      s₁'.resolve t = (s₂.resolve t).subst fun v => s₁'.resolve (.var v) :=
    hs.symm.resolve_eq h₁.touches.toExtends
  have hsolves : s₁'.resolve b' = s₁'.resolve a' := by
    rw [hread hb.proper'.grounded, hread ha.proper'.grounded, hb.resolve_eq, ha.resolve_eq,
      ← hread (hs.grounded_of hb.proper.grounded), ← hread (hs.grounded_of ha.proper.grounded),
      h₁.equal]
  obtain ⟨s₂', hrun'⟩ := unify_ok_of_subst_eq hb.proper' ha.proper'
    (by rw [← hread hb.proper'.grounded, ← hread ha.proper'.grounded, hsolves])
  have h₂ := unified_of_unify hb.proper' ha.proper' hrun'
  have hsolves' : s₂'.resolve a = s₂'.resolve b := by
    rw [← (ha.touches hs h₁.touches h₂.touches).resolve_eq,
      ← (hb.touches hs h₁.touches h₂.touches).resolve_eq, h₂.equal]
  exact ⟨s₂', hrun', hs.unified h₁ h₂ ha.proper.grounded hb.proper.grounded hb.proper'.grounded
    ha.proper'.grounded hsolves' hsolves⟩

/-- The errors are about the same types, with the sides exchanged. Types are compared up to the
choice of one out of the unbound cells that are identified. -/
inductive UnifyError.Mirrors (s₁ s₂ : Store) : UnifyError → UnifyError → Prop where
  | mismatch {left right left' right' : Ty}
      (hleft : s₂.resolve left' = (s₁.resolve right).rename s₂.choice)
      (hright : s₂.resolve right' = (s₁.resolve left).rename s₂.choice) :
      Mirrors s₁ s₂ (.mismatch left right) (.mismatch left' right')
  | occurs {v v' : Nat} {t t' : Ty} (hv : s₁.resolve (.var v) = s₁.resolve (.var v'))
      (ht : s₂.resolve t' = (s₁.resolve t).rename s₂.choice) :
      Mirrors s₁ s₂ (.occurs v t) (.occurs v' t')

/-- The occurs check fails in both stores, and leaves them twins. -/
theorem Store.Twin.occurs (hs : s₁.Twin s₂) (hv : v ∈ s₁.unlinked) (hmem : v ∈ s₁.unbound t)
    (ht : s₁.Counterpart s₂ t t') :
    s₂.choice v ∈ s₂.unbound t' ∧
      (s₁.adjust v (s₁.level v) t).2.Twin
        (s₂.adjust (s₂.choice v) (s₂.level (s₂.choice v)) t').2 ∧
      (UnifyError.occurs v t).Mirrors (s₁.adjust v (s₁.level v) t).2
        (s₂.adjust (s₂.choice v) (s₂.level (s₂.choice v)) t').2 (.occurs (s₂.choice v) t') := by
  have htwin := hs.adjust hv ht.proper.grounded ht.resolve_eq
  refine ⟨?_, htwin, .occurs ?_ ?_⟩
  · rw [hs.unbound_eq_map ht.proper.grounded ht.resolve_eq]
    exact List.mem_map_of_mem hmem
  · simp only [Store.adjust, resolve_lowerAll]
    rw [hs.sameClasses.stands v hv, resolve_of_free hv.2]
  · rw [← htwin.resolve_rename (grounded_lowerAll _ _ ht.proper.grounded)]
    simpa only [Store.adjust, resolve_lowerAll] using ht.resolve_eq

/-- Where unification fails in a store, it fails in its twin too, from the other side. -/
theorem Fails.mirrored (h : Fails s₁ a b e s₁') (hs : s₁.Twin s₂) (ha : s₁.Counterpart s₂ a a')
    (hb : s₁.Counterpart s₂ b b') :
    ∃ e' s₂', Fails s₂ b' a' e' s₂' ∧ s₁'.Twin s₂' ∧ e.Mirrors s₁' s₂' e' := by
  have hga := ha.proper'.grounded
  have hgb := hb.proper'.grounded
  induction h generalizing s₂ a' b' with
  | left hlink _ ih => exact ih hs (ha.of_link hs hlink) hb hga hgb
  | right hlink _ ih => exact ih hs ha (hb.of_link hs hlink) hga hgb
  | @unit s₁ p r =>
      obtain ⟨p', r', hbhead, -⟩ := hb.head_arrow
      refine ⟨_, s₂, .of_heads hgb hga hbhead ha.head_unit .arrow, hs, .mismatch ?_ ?_⟩
      · exact (hbhead ▸ hb.head).rename_eq hs
      · simp
  | @arrow s₁ p r =>
      obtain ⟨p', r', hahead, -⟩ := ha.head_arrow
      refine ⟨_, s₂, .of_heads hgb hga hb.head_unit hahead .unit, hs, .mismatch ?_ ?_⟩
      · simp
      · exact (hahead ▸ ha.head).rename_eq hs
  | @occursLeft s₁ v p r hfree hmem =>
      have hv : v ∈ s₁.unlinked := ⟨ha.proper.grounded.lt_size (by simp [Ty.vars]), hfree⟩
      obtain ⟨p', r', hbhead, -⟩ := hb.head_arrow
      obtain ⟨hmem', htwin, hmirrors⟩ := hs.occurs hv hmem (hbhead ▸ hb.head)
      have hfails := Fails.occursRight (hs.choice_mem hv).2 hmem'
      exact ⟨_, _, .of_heads hgb hga hbhead (ha.head_var hs hv) hfails, htwin, hmirrors⟩
  | @occursRight s₁ v p r hfree hmem =>
      have hv : v ∈ s₁.unlinked := ⟨hb.proper.grounded.lt_size (by simp [Ty.vars]), hfree⟩
      obtain ⟨p', r', hahead, -⟩ := ha.head_arrow
      obtain ⟨hmem', htwin, hmirrors⟩ := hs.occurs hv hmem (hahead ▸ ha.head)
      have hfails := Fails.occursLeft (hs.choice_mem hv).2 hmem'
      exact ⟨_, _, .of_heads hgb hga (hb.head_var hs hv) hahead hfails, htwin, hmirrors⟩
  | param _ ih =>
      obtain ⟨p₂, r₂, hahead, hp, -⟩ := ha.head_arrow
      obtain ⟨p₂', r₂', hbhead, hp', -⟩ := hb.head_arrow
      obtain ⟨e', s₂', hfails, htwin, hmirrors⟩ :=
        ih hs hp hp' hp.proper'.grounded hp'.proper'.grounded
      exact ⟨e', s₂', .of_heads hgb hga hbhead hahead (.param hfails), htwin, hmirrors⟩
  | ret hparam _ ih =>
      obtain ⟨p₂, r₂, hahead, hp, hr⟩ := ha.head_arrow
      obtain ⟨p₂', r₂', hbhead, hp', hr'⟩ := hb.head_arrow
      -- the parameters were unified from both sides, and the results fail in what they left
      obtain ⟨s₂₁, hparam', hs'⟩ := hs.unify_swap hp hp' hparam
      have h₁ := (unified_of_unify hp.proper hp'.proper hparam).touches
      have h₂ := (unified_of_unify hp'.proper' hp.proper' hparam').touches
      have hr := hr.touches hs h₁ h₂
      have hr' := hr'.touches hs h₁ h₂
      obtain ⟨e', s₂', hfails, htwin, hmirrors⟩ :=
        ih hs' hr hr' hr.proper'.grounded hr'.proper'.grounded
      exact ⟨e', s₂', .of_heads hgb hga hbhead hahead (.ret hparam' hfails), htwin, hmirrors⟩

/-! ## Both sides -/

/-- Whether two types are unified from the one side or from the other, both runs succeed or both
fail, with errors that mirror each other. In either case they have identified the same cells, at the
same levels. -/
theorem unify_symmetric (s : Store) (a b : Ty) (hacyclic : s.Acyclic) (hclosed : s.Closed)
    (ha : ∀ v ∈ a.vars, v < s.size) (hb : ∀ v ∈ b.vars, v < s.size)
    (hca : (s.resolve a).Complete) (hcb : (s.resolve b).Complete) :
    (∃ s₁ s₂, unify a b s = .ok () s₁ ∧ unify b a s = .ok () s₂ ∧ s₁.SameClasses s₂) ∨
    ∃ e₁ s₁ e₂ s₂, unify a b s = .error (.error e₁) s₁ ∧ unify b a s = .error (.error e₂) s₂ ∧
      s₁.SameClasses s₂ ∧ e₁.Mirrors s₁ s₂ e₂ := by
  have hcells : ∀ v < s.size, s.Grounded (.var v) := fun v hv =>
    hacyclic.grounded hclosed (by simpa [Ty.vars] using hv)
  have hpa : s.Proper a := ⟨hacyclic.grounded hclosed ha, hca⟩
  have hpb : s.Proper b := ⟨hacyclic.grounded hclosed hb, hcb⟩
  have htwin := Twin.refl hcells
  have hsame : s.Counterpart s a a := ⟨hpa, hpa, rfl⟩
  have hsame' : s.Counterpart s b b := ⟨hpb, hpb, rfl⟩
  have hout := unify_outcome hpa hpb
  generalize hrun : unify a b s = result at hout
  cases hout with
  | @ok s₁ _ =>
      obtain ⟨s₂, hrun', htwin'⟩ := htwin.unify_swap hsame hsame' hrun
      exact .inl ⟨s₁, s₂, rfl, hrun', htwin'.sameClasses⟩
  | @error s₁ e₁ _ =>
      obtain ⟨e₂, s₂, hfails, htwin', hmirrors⟩ :=
        ((unify_eq_error_iff hpa hpb).mp hrun).mirrored htwin hsame hsame'
      exact .inr ⟨e₁, s₁, e₂, s₂, rfl, hfails.unify_eq hpb hpa, htwin'.sameClasses, hmirrors⟩

/-- From either side the first and the third cell are identified, and then found in the result that
their class would be linked to. The two runs blame different cells of the class. -/
theorem unify_symmetric_chain :
    chainStore.Acyclic ∧ chainStore.Closed ∧
    ∃ s₁ s₂, unify (.arrow (.var 1) (.var 2)) (.arrow (.var 2) (.arrow (.var 0) .unit)) chainStore =
        .error (.error (.occurs 2 (.arrow (.var 0) .unit))) s₁ ∧
      unify (.arrow (.var 2) (.arrow (.var 0) .unit)) (.arrow (.var 1) (.var 2)) chainStore =
        .error (.error (.occurs 0 (.arrow (.var 0) .unit))) s₂ ∧
      s₁.SameClasses s₂ ∧ s₁.link 0 = some (.var 2) ∧ s₂.link 2 = some (.var 0) ∧
      (UnifyError.occurs 2 (.arrow (.var 0) .unit)).Mirrors s₁ s₂
        (.occurs 0 (.arrow (.var 0) .unit)) := by
  have hacyclic := acyclic_of_grounded chainStore_grounded
  rcases unify_symmetric chainStore (.arrow (.var 1) (.var 2))
    (.arrow (.var 2) (.arrow (.var 0) .unit)) hacyclic chainStore_closed (by decide) (by decide)
    (by decide) (by decide) with ⟨s₁, s₂, hok, -⟩ | ⟨e₁, s₁, e₂, s₂, h₁, h₂, hsame, hmirrors⟩
  · cases hok
  · cases h₁
    cases h₂
    exact ⟨hacyclic, chainStore_closed, _, _, rfl, rfl, hsame, by decide, by decide, hmirrors⟩

end LetPoly
