import LetPoly.Proofs.Linking
import LetPoly.Proofs.Running

/-! # Unification computes most general unifiers -/

namespace LetPoly

open Store

variable {s s' s₁ s₂ : Store} {a a' b b' p r t : Ty} {v : Nat}

/-! ## What unification does to a store -/

/-- The unbound variables of two types. -/
def Store.involved (s : Store) (a b : Ty) : Set Nat :=
  {v | v ∈ s.unbound a ∨ v ∈ s.unbound b}

theorem Store.active_involved (ha : s.Grounded a) (hb : s.Grounded b) :
    s.Active (s.involved a b) := by
  rintro v (hv | hv)
  · exact ⟨ha.lt_size_of_mem_unbound hv, ha.link_of_mem_unbound hv⟩
  · exact ⟨hb.lt_size_of_mem_unbound hv, hb.link_of_mem_unbound hv⟩

/-- The two types have become one, and no assignment that makes them equal was ruled out. -/
structure Unified (s s' : Store) (a b : Ty) : Prop where
  touches : s.Touches s' (s.involved a b)
  justified : ∀ ℓ, s.Justified s' (s.involved a b) ℓ
  size_eq : s'.size = s.size
  equal : s'.resolve a = s'.resolve b
  general : ∀ θ, (s.resolve a).subst θ = (s.resolve b).subst θ → ∀ t, s.Grounded t →
    (s'.resolve t).subst θ = (s.resolve t).subst θ

/-- Two types that no assignment makes equal, and a store that was only touched at their
variables. -/
structure Clash (s s' : Store) (a b : Ty) : Prop where
  touches : s.Touches s' (s.involved a b)
  size_eq : s'.size = s.size
  ne : ∀ θ, (s.resolve a).subst θ ≠ (s.resolve b).subst θ

/-- Unification of two types ends well if they can be made equal, and with an error if not. -/
inductive UnifyOutcome (s : Store) (a b : Ty) :
    EStateM.Result (Stop UnifyError) Store Unit → Prop where
  | ok {s' : Store} (h : Unified s s' a b) : UnifyOutcome s a b (.ok () s')
  | error {s' : Store} {e : UnifyError} (h : Clash s s' a b) :
      UnifyOutcome s a b (.error (.error e) s')

/-- Only what the two types stand for matters. -/
theorem UnifyOutcome.congr {result : EStateM.Result (Stop UnifyError) Store Unit}
    (h : UnifyOutcome s a b result) (ha : s.Grounded a) (ha' : s.Grounded a')
    (hb : s.Grounded b) (hb' : s.Grounded b') (hra : s.resolve a' = s.resolve a)
    (hrb : s.resolve b' = s.resolve b) : UnifyOutcome s a' b' result := by
  have hinv : s.involved a' b' = s.involved a b := by simp [involved, unbound, hra, hrb]
  cases h with
  | ok h =>
      have hext := h.touches.toExtends
      refine .ok ⟨hinv ▸ h.touches, fun ℓ => hinv ▸ h.justified ℓ, h.size_eq, ?_, ?_⟩
      · rw [hext.resolve_eq ha', hext.resolve_eq hb', hra, hrb, ← hext.resolve_eq ha,
          ← hext.resolve_eq hb, h.equal]
      · intro θ hθ
        exact h.general θ (by rwa [← hra, ← hrb])
  | error h =>
      refine .error ⟨hinv ▸ h.touches, h.size_eq, fun θ => ?_⟩
      rw [hra, hrb]
      exact h.ne θ

theorem UnifyOutcome.symm {result : EStateM.Result (Stop UnifyError) Store Unit}
    (h : UnifyOutcome s a b result) : UnifyOutcome s b a result := by
  have hinv : s.involved b a = s.involved a b := by
    ext v
    exact or_comm
  cases h with
  | ok h =>
      exact .ok ⟨hinv ▸ h.touches, fun ℓ => hinv ▸ h.justified ℓ, h.size_eq, h.equal.symm,
        fun θ hθ => h.general θ hθ.symm⟩
  | error h =>
      exact .error ⟨hinv ▸ h.touches, h.size_eq, fun θ hθ => h.ne θ hθ.symm⟩

theorem unified_refl (ha : s.Grounded a) (hb : s.Grounded b) (h : s.resolve a = s.resolve b) :
    Unified s s a b where
  touches := .refl (active_involved ha hb)
  justified _ := .refl
  size_eq := rfl
  equal := h
  general _ _ _ _ := rfl

theorem clash_refl (ha : s.Grounded a) (hb : s.Grounded b)
    (h : ∀ θ, (s.resolve a).subst θ ≠ (s.resolve b).subst θ) : Clash s s a b where
  touches := .refl (active_involved ha hb)
  size_eq := rfl
  ne := h

/-! ## Binding -/

theorem Ty.sizeOf_le_subst (θ : Nat → Ty) {t : Ty} (hv : v ∈ t.vars) :
    sizeOf (θ v) ≤ sizeOf (t.subst θ) := by
  induction t with
  | unit | absent => simp [vars] at hv
  | var w =>
      obtain rfl : v = w := by simpa [vars] using hv
      exact Nat.le_refl _
  | arrow p r hp hr =>
      rcases List.mem_append.mp hv with hv | hv
      · have := hp hv
        simp only [subst, arrow.sizeOf_spec]
        omega
      · have := hr hv
        simp only [subst, arrow.sizeOf_spec]
        omega

/-- No assignment makes a variable equal to a larger type that contains it. -/
theorem Ty.ne_subst_of_occurs (θ : Nat → Ty) {t : Ty} (hv : v ∈ t.vars) (ht : t ≠ .var v) :
    θ v ≠ t.subst θ := by
  intro heq
  cases t with
  | unit | absent => simp [vars] at hv
  | var w => exact ht (by simpa [vars, eq_comm] using hv)
  | arrow p r =>
      have hsize := congrArg sizeOf heq
      simp only [subst, arrow.sizeOf_spec] at hsize
      rcases List.mem_append.mp hv with hv | hv
      · have := sizeOf_le_subst θ hv
        omega
      · have := sizeOf_le_subst θ hv
        omega

theorem Store.touches_lowerAll {A : Set Nat} (hA : s.Active A)
    {vs : List Nat} (hvs : ∀ v ∈ vs, v ∈ A) (lv : Int) : s.Touches (s.lowerAll vs lv) A := by
  refine touches_of_link_eq hA (by simp) ?_ ?_ ?_ ?_
  · intro w
    simp only [link, cell_lowerAll]
    split <;> rfl
  · intro w _
    simp only [Store.id, cell_lowerAll]
    split <;> rfl
  · intro w _
    simp only [Store.level, cell_lowerAll]
    split
    · exact min_le_left _ _
    · exact Int.le_refl _
  · intro w _ hw
    have hnot : w ∉ vs := fun hmem => hw (hvs w hmem)
    simp [cell_lowerAll, hnot]

theorem bindVar_of_mem (h : v ∈ s.unbound t) :
    bindVar v t s = .error (.error (.occurs v t))
      (s.lowerAll ((s.unbound t).take ((s.unbound t).idxOf v + 1)) (s.level v)) := by
  simp [bindVar, adjust, bind_apply, get_apply, set_apply, throw_apply, h]

theorem bindVar_of_not_mem (h : v ∉ s.unbound t) (hfree : s.link v = none) (ht : t ≠ .absent) :
    bindVar v t s = .ok () (s.linked v t) := by
  have hlen : (s.unbound t).take ((s.unbound t).length + 1) = s.unbound t :=
    List.take_of_length_le (Nat.le_succ _)
  have hlow : (s.lowerAll (s.unbound t) (s.level v)).link v = none := by
    simpa [link, cell_lowerAll, h] using hfree
  simp [bindVar, adjust, assign, bind_apply, get_apply, set_apply, h, hlen, hlow, ht, linked]

/-- Linking a variable makes it equal to the type, unless the type contains the variable. -/
theorem bindVar_outcome (hv : v < s.size) (hfree : s.link v = none) (ht : s.Grounded t)
    (hc : (s.resolve t).Complete) (hne : s.resolve t ≠ .var v) :
    UnifyOutcome s (.var v) t (bindVar v t s) := by
  have hvar : s.Grounded (.var v) := .free hv hfree
  by_cases hmem : v ∈ s.unbound t
  · rw [bindVar_of_mem hmem]
    refine .error ⟨touches_lowerAll (active_involved hvar ht) ?_ _, by simp, fun θ => ?_⟩
    · exact fun w hw => .inr (List.mem_of_mem_take hw)
    · rw [resolve_of_free hfree]
      exact Ty.ne_subst_of_occurs θ hmem hne
  · have hlinkable : s.Linkable v t := ⟨hv, hfree, ht, hmem⟩
    have habsent : t ≠ .absent := by
      rintro rfl
      simp [Ty.Complete] at hc
    have hinv : s.involved (.var v) t = {w | w = v ∨ w ∈ s.unbound t} := by
      simp [involved, unbound_of_free hfree]
    rw [bindVar_of_not_mem hmem hfree habsent]
    refine .ok
      ⟨hinv ▸ hlinkable.touches hc, fun ℓ => hinv ▸ hlinkable.justified ℓ, by simp, ?_, ?_⟩
    · exact resolve_of_link hlinkable.link_self hlinkable.grounded_linked
    · intro θ hθ u hu
      rw [resolve_of_free hfree] at hθ
      exact hlinkable.resolve_subst hθ hu

/-! ## Function types -/

theorem Store.Touches.involved_subset {A : Set Nat} (h : s.Touches s₁ A) (ha : s.Grounded a)
    (hb : s.Grounded b) (hA : s.involved a b ⊆ A) :
    ∀ v ∈ s₁.involved a b, v ∈ A ∨ s.size ≤ v := by
  rintro v (hv | hv)
  · rcases h.mem_unbound_cases ha hv with ⟨hv, -⟩ | ⟨w, -, hw, hv⟩
    · exact .inl (hA (.inl hv))
    · exact h.reach w hw v hv
  · rcases h.mem_unbound_cases hb hv with ⟨hv, -⟩ | ⟨w, -, hw, hv⟩
    · exact .inl (hA (.inr hv))
    · exact h.reach w hw v hv

theorem Store.involved_param (s : Store) (p r a b : Ty) :
    s.involved p a ⊆ s.involved (.arrow p r) (.arrow a b) := by
  rintro v (hv | hv)
  · exact .inl (by simp [hv])
  · exact .inr (by simp [hv])

theorem Store.involved_ret (s : Store) (p r a b : Ty) :
    s.involved r b ⊆ s.involved (.arrow p r) (.arrow a b) := by
  rintro v (hv | hv)
  · exact .inl (by simp [hv])
  · exact .inr (by simp [hv])

section Arrows

variable (hp : s.Grounded p) (hr : s.Grounded r) (ha : s.Grounded a) (hb : s.Grounded b)
include hp hr ha hb

/-- Function types are unified if their parameters are, and then their results. -/
theorem Unified.arrow (h : Unified s s₁ p a) (h₁ : Unified s₁ s₂ r b) :
    Unified s s₂ (.arrow p r) (.arrow a b) := by
  have hactive := active_involved (hp.arrow hr) (ha.arrow hb)
  have hsub := s.involved_param p r a b
  have ht := h.touches.mono hsub hactive
  have hnext := ht.involved_subset hr hb (s.involved_ret p r a b)
  refine ⟨ht.trans h₁.touches hnext, fun ℓ => ?_, h₁.size_eq.trans h.size_eq, ?_, ?_⟩
  · exact ((h.justified ℓ).mono h.touches hsub hactive).trans ht (h₁.justified ℓ) h₁.touches hnext
  · have hext := h₁.touches.toExtends
    have hp₁ := h.touches.grounded hp
    have ha₁ := h.touches.grounded ha
    rw [resolve_arrow, resolve_arrow, h₁.equal, hext.resolve_eq hp₁, hext.resolve_eq ha₁, h.equal]
  · intro θ hθ t htg
    simp only [resolve_arrow, Ty.subst, Ty.arrow.injEq] at hθ
    have hmid := h.general θ hθ.1
    rw [h₁.general θ (by rw [hmid r hr, hmid b hb, hθ.2]) t (h.touches.grounded htg), hmid t htg]

theorem Clash.param (h : Clash s s₁ p a) : Clash s s₁ (.arrow p r) (.arrow a b) := by
  have hactive := active_involved (hp.arrow hr) (ha.arrow hb)
  refine ⟨h.touches.mono (s.involved_param p r a b) hactive, h.size_eq, ?_⟩
  intro θ hθ
  simp only [resolve_arrow, Ty.subst, Ty.arrow.injEq] at hθ
  exact h.ne θ hθ.1

theorem Clash.ret (h : Unified s s₁ p a) (h₁ : Clash s₁ s₂ r b) :
    Clash s s₂ (.arrow p r) (.arrow a b) := by
  have hactive := active_involved (hp.arrow hr) (ha.arrow hb)
  have ht := h.touches.mono (s.involved_param p r a b) hactive
  have hnext := ht.involved_subset hr hb (s.involved_ret p r a b)
  refine ⟨ht.trans h₁.touches hnext, h₁.size_eq.trans h.size_eq, ?_⟩
  intro θ hθ
  simp only [resolve_arrow, Ty.subst, Ty.arrow.injEq] at hθ
  have hmid := h.general θ hθ.1
  exact h₁.ne θ (by rw [hmid r hr, hmid b hb, hθ.2])

/-- Unifying the parameters and then the results unifies the function types. -/
theorem UnifyOutcome.arrow {x y : UnifyM Unit} (hx : UnifyOutcome s p a (x s))
    (hy : ∀ s₁, Unified s s₁ p a → UnifyOutcome s₁ r b (y s₁)) :
    UnifyOutcome s (.arrow p r) (.arrow a b) ((x >>= fun _ => y) s) := by
  rw [bind_apply]
  generalize x s = result at hx
  cases hx with
  | @ok s₁ hx =>
      have hret := hy s₁ hx
      simp only
      generalize y s₁ = result at hret
      cases hret with
      | ok hret => exact .ok (Unified.arrow hp hr ha hb hx hret)
      | error hret => exact .error (Clash.ret hp hr ha hb hx hret)
  | error hx => exact .error (Clash.param hp hr ha hb hx)

end Arrows

/-! ## The right type at the end of its chain -/

theorem UnifyOutcome.of_head {result : EStateM.Result (Stop UnifyError) Store Unit}
    (ha : s.Grounded a) (hb : s.Grounded b) (h : UnifyOutcome s a (s.head b) result) :
    UnifyOutcome s a b result :=
  h.congr ha ha hb.isHead.grounded hb rfl hb.isHead.resolve_eq.symm

/-- A variable on the right is linked to the type on the left. -/
theorem bindVar_outcome_right (ha : s.Proper a) (hb : s.Proper b) (hhead : s.head b = .var v)
    (hne : s.resolve a ≠ .var v) : UnifyOutcome s a b (bindVar v a s) := by
  have hh := hb.grounded.isHead
  rw [hhead] at hh
  have hfree := hh.free v rfl
  have hv : v < s.size := hh.grounded.lt_size_of_mem_unbound (by simp [unbound_of_free hfree])
  refine UnifyOutcome.of_head ha.grounded hb.grounded (UnifyOutcome.symm ?_)
  rw [hhead]
  exact bindVar_outcome hv hfree ha.grounded ha.complete hne

theorem head_ne_absent (hb : s.Proper b) : s.head b ≠ .absent := by
  intro habsent
  have hc := hb.head.complete
  simp [habsent, Ty.Complete] at hc

/-! ## The budget of links -/

/-- The type lies behind each of these linked cells. -/
def Store.Behind (s : Store) (cells : Finset Nat) (t : Ty) : Prop :=
  ∀ v ∈ cells, ∃ u, s.link v = some u ∧ ∀ w ∈ t.vars, s.Reaches u w

namespace Store.Behind

variable {cells : Finset Nat}

theorem param (h : s.Behind cells (.arrow p r)) : s.Behind cells p := by
  intro v hv
  obtain ⟨u, hlink, hu⟩ := h v hv
  exact ⟨u, hlink, fun w hw => hu w (List.mem_append_left _ hw)⟩

theorem ret (h : s.Behind cells (.arrow p r)) : s.Behind cells r := by
  intro v hv
  obtain ⟨u, hlink, hu⟩ := h v hv
  exact ⟨u, hlink, fun w hw => hu w (List.mem_append_right _ hw)⟩

theorem of_extends (h : s.Behind cells t) (hext : s.Extends s') : s'.Behind cells t := by
  intro v hv
  obtain ⟨u, hlink, hu⟩ := h v hv
  exact ⟨u, hext.link_eq hlink, fun w hw => hext.reaches (hu w hw)⟩

theorem insert (h : s.Behind cells (.var v)) (hlink : s.link v = some t) :
    s.Behind (insert v cells) t := by
  intro w hw
  rcases Finset.mem_insert.mp hw with rfl | hw
  · exact ⟨t, hlink, fun x hx => reaches_of_mem_vars hx⟩
  · obtain ⟨u, hlink', hu⟩ := h w hw
    refine ⟨u, hlink', fun x hx => ?_⟩
    exact (hu v (by simp [Ty.vars])).trans (.link hlink (reaches_of_mem_vars hx))

theorem not_mem (h : s.Behind cells (.var v)) (hv : s.Grounded (.var v)) : v ∉ cells := by
  intro hmem
  obtain ⟨u, hlink, hu⟩ := h v hmem
  exact hv.not_circular (.here v) hlink (hu v (by simp [Ty.vars]))

theorem card_le (h : s.Behind cells t) : cells.card ≤ s.size := by
  have hsub : cells ⊆ Finset.range s.size := by
    intro v hv
    obtain ⟨u, hlink, -⟩ := h v hv
    exact Finset.mem_range.mpr (lt_size_of_link hlink)
  simpa using Finset.card_le_card hsub

end Store.Behind

/-- The recursion on the left type is right if it goes on rightly where a link leads out of it. The
store changes between the two halves of a function type, but the cells behind stay behind. -/
theorem unifyWith_outcome {follow : Ty → Ty → UnifyM Unit} {cells : Finset Nat} {size : Nat}
    (hfollow : ∀ {s : Store} {v : Nat} {t b : Ty}, s.size = size → s.Behind cells (.var v) →
      s.link v = some t → s.Proper (.var v) → s.Proper b → UnifyOutcome s t b (follow t b s))
    (hsize : s.size = size) (hcells : s.Behind cells a) (ha : s.Proper a) (hb : s.Proper b) :
    UnifyOutcome s a b (unifyWith follow a b s) := by
  induction a generalizing b s with
  | absent => exact absurd ha.complete (by simp [Ty.Complete])
  | unit =>
      simp only [unifyWith, bind_apply, get_apply]
      cases hhead : s.head b with
      | unit =>
          refine UnifyOutcome.of_head .unit hb.grounded ?_
          rw [hhead]
          exact .ok (unified_refl .unit .unit rfl)
      | var v => exact bindVar_outcome_right ha hb hhead (by simp)
      | arrow p' r' =>
          refine UnifyOutcome.of_head .unit hb.grounded ?_
          refine .error (clash_refl .unit hb.head.grounded fun θ => ?_)
          simp [hhead, Ty.subst]
      | absent => exact absurd hhead (head_ne_absent hb)
  | var v =>
      cases hlink : s.link v with
      | some t =>
          have ht := ha.of_link hlink
          simp only [unifyWith, bind_apply, get_apply, hlink]
          exact (hfollow hsize hcells hlink ha hb).congr ht.grounded ha.grounded hb.grounded
            hb.grounded (resolve_of_link hlink ht.grounded) rfl
      | none =>
          simp only [unifyWith, bind_apply, get_apply, hlink, ite_run, pure_apply]
          refine UnifyOutcome.of_head ha.grounded hb.grounded ?_
          split
          · rename_i hhead
            rw [hhead]
            exact .ok (unified_refl ha.grounded ha.grounded rfl)
          · rename_i hhead
            have hv : v < s.size :=
              ha.grounded.lt_size_of_mem_unbound (by simp [unbound_of_free hlink])
            exact bindVar_outcome hv hlink hb.head.grounded hb.head.complete fun h =>
              hhead (hb.grounded.isHead.eq_var h)
  | arrow p r ihp ihr =>
      obtain ⟨hp, hr⟩ := proper_arrow.mp ha
      simp only [unifyWith, bind_apply, get_apply]
      cases hhead : s.head b with
      | unit =>
          refine UnifyOutcome.of_head ha.grounded hb.grounded ?_
          refine .error (clash_refl ha.grounded hb.head.grounded fun θ => ?_)
          simp [hhead, Ty.subst]
      | var v => exact bindVar_outcome_right ha hb hhead (by simp)
      | absent => exact absurd hhead (head_ne_absent hb)
      | arrow p' r' =>
          obtain ⟨hp', hr'⟩ := proper_arrow.mp (hhead ▸ hb.head)
          refine UnifyOutcome.of_head ha.grounded hb.grounded ?_
          rw [hhead]
          -- the results are unified in the store that the parameters leave
          refine UnifyOutcome.arrow hp.grounded hr.grounded hp'.grounded hr'.grounded
            (ihp hsize hcells.param hp hp') fun s₁ h => ?_
          exact ihr (h.size_eq.trans hsize) (hcells.ret.of_extends h.touches.toExtends)
            (h.touches.proper hr) (h.touches.proper hr')

/-- A budget of one link for each cell that does not lie behind is enough. -/
theorem unifyUpTo_outcome (n : Nat) {cells : Finset Nat} (hn : s.size ≤ n + cells.card)
    (hcells : s.Behind cells a) (ha : s.Proper a) (hb : s.Proper b) :
    UnifyOutcome s a b (unifyUpTo n a b s) := by
  induction n generalizing s a b cells with
  | zero =>
      refine unifyWith_outcome ?_ rfl hcells ha hb
      intro s' v t b hsize hcells hlink hv _
      -- all cells lie behind, and the linked one would be one more
      have hcard := (hcells.insert hlink).card_le
      rw [Finset.card_insert_of_notMem (hcells.not_mem hv.grounded)] at hcard
      omega
  | succ n ih =>
      refine unifyWith_outcome ?_ rfl hcells ha hb
      intro s' v t b hsize hcells hlink hv hb
      refine ih ?_ (hcells.insert hlink) (hv.of_link hlink) hb
      rw [Finset.card_insert_of_notMem (hcells.not_mem hv.grounded)]
      omega

theorem unify_outcome (ha : s.Proper a) (hb : s.Proper b) :
    UnifyOutcome s a b (unify a b s) := by
  have hnone : s.Behind ∅ a := by simp [Behind]
  exact unifyUpTo_outcome s.size (Nat.le_add_right _ _) hnone ha hb

theorem unified_of_unify (ha : s.Proper a) (hb : s.Proper b) (hrun : unify a b s = .ok () s') :
    Unified s s' a b := by
  have hout := unify_outcome ha hb
  rw [hrun] at hout
  cases hout with
  | ok h => exact h

theorem unify_ok_of_subst_eq {θ : Nat → Ty} (ha : s.Proper a) (hb : s.Proper b)
    (hθ : (s.resolve a).subst θ = (s.resolve b).subst θ) : ∃ s', unify a b s = .ok () s' := by
  have hout := unify_outcome ha hb
  generalize unify a b s = result at hout
  cases hout with
  | @ok s' _ => exact ⟨s', rfl⟩
  | error h => exact absurd hθ (h.ne θ)

end LetPoly
