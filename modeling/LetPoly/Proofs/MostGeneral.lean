import LetPoly.Proofs.Unification

/-! # Most general unifiers

On a store without circles unification comes to an end by itself. It succeeds exactly on the types
that have a unifier, and every unifier factors through the store that it leaves.
-/

namespace LetPoly

open Store

variable {s s' : Store} {a b : Ty}

/-! ## Independence of the budget -/

/-- The computation did not stop for want of budget. -/
def Ends (result : EStateM.Result (Stop UnifyError) Store Unit) : Prop :=
  ∀ s, result ≠ .error (.fault .endless) s

theorem Ends.of_bind {x y : UnifyM Unit} (h : Ends ((x >>= fun _ => y) s)) : Ends (x s) := by
  intro s' hx
  refine h s' ?_
  rw [bind_apply, hx]

/-- Where the links are followed to the end, another way to follow them makes no difference. -/
theorem unifyWith_eq_of_ends {follow follow' : Ty → Ty → UnifyM Unit}
    (hfollow : ∀ t b s, Ends (follow t b s) → follow' t b s = follow t b s)
    (h : Ends (unifyWith follow a b s)) :
    unifyWith follow' a b s = unifyWith follow a b s := by
  induction a generalizing b s with
  | unit | absent => simp only [unifyWith]
  | var v =>
      cases hlink : s.link v with
      | none => simp only [unifyWith, bind_apply, get_apply, hlink]
      | some t =>
          simp only [unifyWith, bind_apply, get_apply, hlink] at h ⊢
          exact hfollow t b s h
  | arrow p r ihp ihr =>
      simp only [unifyWith, bind_apply, get_apply] at h ⊢
      cases hhead : s.head b with
      | unit | var | absent => rfl
      | arrow p' r' =>
          rw [hhead] at h
          change Ends ((unifyWith follow p p' >>= fun _ => unifyWith follow r r') s) at h
          change (unifyWith follow' p p' >>= fun _ => unifyWith follow' r r') s =
            (unifyWith follow p p' >>= fun _ => unifyWith follow r r') s
          rw [bind_apply, bind_apply, ihp h.of_bind]
          cases hrun : unifyWith follow p p' s with
          | error e s₁ => rfl
          | ok _ s₁ =>
              rw [bind_apply, hrun] at h
              exact ihr h

theorem unifyUpTo_succ_of_ends (n : Nat) (h : Ends (unifyUpTo n a b s)) :
    unifyUpTo (n + 1) a b s = unifyUpTo n a b s := by
  induction n generalizing s a b with
  | zero => exact unifyWith_eq_of_ends (fun t b s h => absurd rfl (h s)) h
  | succ n ih => exact unifyWith_eq_of_ends (fun t b s h => ih h) h

theorem unifyUpTo_of_le_of_ends {n m : Nat} (hm : n ≤ m) (h : Ends (unifyUpTo n a b s)) :
    unifyUpTo m a b s = unifyUpTo n a b s := by
  induction m, hm using Nat.le_induction with
  | base => rfl
  | succ m _ ih => rw [unifyUpTo_succ_of_ends m (ih ▸ h), ih]

/-- A larger budget makes no difference to types that can be read off. -/
theorem unifyUpTo_eq_unify (ha : s.Proper a) (hb : s.Proper b) {n : Nat} (hn : s.size ≤ n) :
    unifyUpTo n a b s = unify a b s := by
  apply unifyUpTo_of_le_of_ends hn
  intro s' hrun
  have hout := unify_outcome ha hb
  have hunify : unify a b s = .error (.fault .endless) s' := hrun
  rw [hunify] at hout
  cases hout

/-! ## Unifiers -/

/-- Some substitution of types for the variables makes the two types equal. -/
def Ty.Unifiable (a b : Ty) : Prop :=
  ∃ θ : Nat → Ty, (∀ v, (θ v).Complete) ∧ a.subst θ = b.subst θ

/-- The store that unification leaves is itself a unifier. -/
theorem Unified.unifiable (h : Unified s s' a b) (ha : s.Grounded a) (hb : s.Grounded b) :
    (s.resolve a).Unifiable (s.resolve b) := by
  have hactive := active_involved ha hb
  let θ : Nat → Ty := fun v =>
    if v ∈ s.unbound a ∨ v ∈ s.unbound b then s'.resolve (.var v) else .unit
  have hsubst : ∀ t, (∀ v ∈ s.unbound t, v ∈ s.involved a b) → s.Grounded t →
      (s.resolve t).subst θ = s'.resolve t := by
    intro t ht hg
    rw [h.touches.toExtends.resolve_eq hg]
    refine Ty.subst_congr fun v hv => ?_
    exact if_pos (ht v hv)
  refine ⟨θ, fun v => ?_, ?_⟩
  · by_cases hv : v ∈ s.involved a b
    · have hproper := h.touches.proper (proper_of_free (hactive v hv).1 (hactive v hv).2)
      have hθ : θ v = s'.resolve (.var v) := if_pos hv
      exact hθ ▸ hproper.complete
    · have hθ : θ v = .unit := if_neg hv
      simp [hθ, Ty.Complete]
  · rw [hsubst a (fun v hv => .inl hv) ha, hsubst b (fun v hv => .inr hv) hb, h.equal]

theorem Unified.acyclic (h : Unified s s' a b) (hs : ∀ v < s.size, s.Grounded (.var v)) :
    s'.Acyclic := by
  refine acyclic_of_grounded fun v hv => ?_
  exact h.touches.grounded (hs v (h.size_eq ▸ hv))

/-- Unification comes to an end whatever the budget, succeeds exactly on types that have a unifier,
keeps the store free of circles, makes the types equal and loses no unifier. -/
theorem unify_most_general (s : Store) (a b : Ty) (hacyclic : s.Acyclic) (hclosed : s.Closed)
    (ha : ∀ v ∈ a.vars, v < s.size) (hb : ∀ v ∈ b.vars, v < s.size)
    (hca : (s.resolve a).Complete) (hcb : (s.resolve b).Complete) :
    ((∀ n, s.size ≤ n → unifyUpTo n a b s = unify a b s) ∧
      ∀ f s', unify a b s ≠ .error (.fault f) s') ∧
    ((∃ s', unify a b s = .ok () s') ↔ (s.resolve a).Unifiable (s.resolve b)) ∧
    ∀ s', unify a b s = .ok () s' →
      s'.Acyclic ∧ s'.resolve a = s'.resolve b ∧
      ∀ θ, (s.resolve a).subst θ = (s.resolve b).subst θ →
        ∃ σ : Nat → Ty, ∀ v < s.size,
          (s.resolve (.var v)).subst θ = (s'.resolve (.var v)).subst σ := by
  have hga : s.Grounded a := hacyclic.grounded hclosed ha
  have hgb : s.Grounded b := hacyclic.grounded hclosed hb
  have hcells : ∀ v < s.size, s.Grounded (.var v) := fun v hv =>
    hacyclic.grounded hclosed (by simpa [Ty.vars] using hv)
  have hpa : s.Proper a := ⟨hga, hca⟩
  have hpb : s.Proper b := ⟨hgb, hcb⟩
  have hfault : ∀ f s', unify a b s ≠ .error (.fault f) s' := by
    intro f s' hrun
    have hout := unify_outcome hpa hpb
    rw [hrun] at hout
    cases hout
  refine ⟨⟨fun n hn => ?_, hfault⟩, ⟨?_, ?_⟩, fun s' hrun => ?_⟩
  · exact unifyUpTo_of_le_of_ends hn fun s' => hfault .endless s'
  · rintro ⟨s', hrun⟩
    exact (unified_of_unify hpa hpb hrun).unifiable hga hgb
  · rintro ⟨θ, -, hθ⟩
    exact unify_ok_of_subst_eq hpa hpb hθ
  · have hunified := unified_of_unify hpa hpb hrun
    refine ⟨hunified.acyclic hcells, hunified.equal, fun θ hθ => ⟨θ, fun v hv => ?_⟩⟩
    exact (hunified.general θ hθ (.var v) (hcells v hv)).symm

/-- A store in which the second variable is linked to the first. -/
def chainStore : Store :=
  { cells := #[{ id := 0, level := 1 }, { id := 1, level := 2, link := some (.var 0) },
      { id := 2, level := 3 }] }

theorem chainStore_grounded : ∀ v < chainStore.size, chainStore.Grounded (.var v)
  | 0, _ => .free (by decide) rfl
  | 1, _ => .link rfl (.free (by decide) rfl)
  | 2, _ => .free (by decide) rfl

theorem chainStore_closed : chainStore.Closed := by
  rintro v w ⟨t, hlink, hw⟩
  have hcells : ∀ v < 3, ∀ t ∈ chainStore.link v, ∀ w ∈ t.vars, w < 3 := by decide
  exact hcells v (lt_size_of_link hlink) t hlink w hw

/-- The parameters are equal already, through the link; the results are linked to each other. -/
theorem unify_most_general_chain :
    chainStore.Acyclic ∧ chainStore.Closed ∧
    ∃ s', unify (.arrow (.var 1) (.var 2)) (.arrow (.var 0) (.arrow (.var 1) .unit)) chainStore =
        .ok () s' ∧
      s'.Acyclic ∧
      s'.resolve (.arrow (.var 1) (.var 2)) =
        s'.resolve (.arrow (.var 0) (.arrow (.var 1) .unit)) := by
  have hacyclic := acyclic_of_grounded chainStore_grounded
  obtain ⟨-, hiff, hok⟩ := unify_most_general chainStore (.arrow (.var 1) (.var 2))
    (.arrow (.var 0) (.arrow (.var 1) .unit)) hacyclic chainStore_closed (by decide) (by decide)
    (by decide) (by decide)
  have hunifiable : (chainStore.resolve (.arrow (.var 1) (.var 2))).Unifiable
      (chainStore.resolve (.arrow (.var 0) (.arrow (.var 1) .unit))) := by
    refine ⟨fun v => if v = 2 then .arrow .unit .unit else .unit, fun v => ?_, rfl⟩
    by_cases hv : v = 2 <;> simp [hv, Ty.Complete]
  obtain ⟨s', hrun⟩ := hiff.mpr hunifiable
  obtain ⟨hacyclic', hequal, -⟩ := hok s' hrun
  exact ⟨hacyclic, chainStore_closed, s', hrun, hacyclic', hequal⟩

end LetPoly
