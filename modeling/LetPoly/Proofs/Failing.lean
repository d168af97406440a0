import LetPoly.Proofs.Pairing

/-! # How unification fails

Unification fails at one place of the two types, after all that lies to the left of it has been
unified. A failure is derived along the way to this place, and what it blames is what the two types
come to there.
-/

namespace LetPoly

open Store

variable {s s' s₁ : Store} {a a' b b' p p' r r' t : Ty} {v : Nat} {e : UnifyError}

/-! ## Steps of unification -/

theorem Store.head_of_not_var (h : ∀ v, t ≠ .var v) : s.head t = t := by
  unfold head
  cases t with
  | var v => exact absurd rfl (h v)
  | unit | arrow | absent => simp [headUpTo]

theorem unify_eq_unifyWith (s : Store) :
    ∃ follow, ∀ a b s', s'.size = s.size → unify a b s' = unifyWith follow a b s' := by
  have hupTo : ∃ follow, unifyUpTo s.size = unifyWith follow := by
    cases s.size with
    | zero => exact ⟨_, rfl⟩
    | succ n => exact ⟨_, rfl⟩
  obtain ⟨follow, hfollow⟩ := hupTo
  refine ⟨follow, fun a b s' hsize => ?_⟩
  rw [← hfollow, ← hsize]
  rfl

/-- Of the right type only the end of its chain matters. -/
theorem unifyUpTo_congr_head (n : Nat) (h : s.head b = s.head b') :
    unifyUpTo n a b s = unifyUpTo n a b' s := by
  induction n generalizing a with
  | zero => cases a <;> simp only [unifyUpTo, unifyWith, bind_apply, get_apply, h]
  | succ n ih =>
      cases a with
      | unit | arrow | absent => simp only [unifyUpTo, unifyWith, bind_apply, get_apply, h]
      | var v =>
          simp only [unifyUpTo, unifyWith, bind_apply, get_apply, h]
          cases s.link v with
          | none => rfl
          | some t => exact ih

/-- A link on the left is followed. -/
theorem unify_link_left (hlink : s.link v = some t) (hv : s.Proper (.var v)) (hb : s.Proper b) :
    unify (.var v) b s = unify t b s := by
  rw [← unifyUpTo_eq_unify hv hb (Nat.le_succ _)]
  simp only [unifyUpTo, unifyWith, bind_apply, get_apply, hlink]
  rfl

/-- A link on the right is followed. -/
theorem unify_link_right (hlink : s.link v = some t) (ht : s.Grounded t) :
    unify a (.var v) s = unify a t s :=
  unifyUpTo_congr_head s.size (head_of_link hlink ht)

theorem unify_unit_arrow (s : Store) (p r : Ty) :
    unify .unit (.arrow p r) s = .error (.error (.mismatch .unit (.arrow p r))) s := by
  obtain ⟨follow, hfollow⟩ := unify_eq_unifyWith s
  simp [hfollow, unifyWith, bind_apply, get_apply, throw_apply, head_of_not_var]

theorem unify_arrow_unit (s : Store) (p r : Ty) :
    unify (.arrow p r) .unit s = .error (.error (.mismatch (.arrow p r) .unit)) s := by
  obtain ⟨follow, hfollow⟩ := unify_eq_unifyWith s
  simp [hfollow, unifyWith, bind_apply, get_apply, throw_apply, head_of_not_var]

theorem unify_var_arrow (hfree : s.link v = none) :
    unify (.var v) (.arrow p r) s = bindVar v (.arrow p r) s := by
  obtain ⟨follow, hfollow⟩ := unify_eq_unifyWith s
  simp [hfollow, unifyWith, bind_apply, get_apply, hfree, head_of_not_var]

theorem unify_arrow_var (hfree : s.link v = none) :
    unify (.arrow p r) (.var v) s = bindVar v (.arrow p r) s := by
  obtain ⟨follow, hfollow⟩ := unify_eq_unifyWith s
  simp [hfollow, unifyWith, bind_apply, get_apply, head, headUpTo_of_free _ hfree]

/-- Function types are unified by their parameters and then by their results. -/
theorem unify_arrow (hp : s.Proper p) (hp' : s.Proper p') :
    unify (.arrow p r) (.arrow p' r') s = (unify p p' >>= fun _ => unify r r') s := by
  obtain ⟨follow, hfollow⟩ := unify_eq_unifyWith s
  have hhead : s.head (.arrow p' r') = .arrow p' r' := head_of_not_var (by simp)
  rw [hfollow _ _ s rfl]
  simp only [unifyWith, bind_apply, get_apply, hhead]
  rw [← hfollow p p' s rfl]
  cases hrun : unify p p' s with
  | error e s₁ => rfl
  | ok _ s₁ => exact (hfollow r r' s₁ (unified_of_unify hp hp' hrun).size_eq).symm

/-! ## Derivations of a failure -/

/-- Unification of the two types in the first store fails with the error and leaves the second
store. -/
inductive Fails : Store → Ty → Ty → UnifyError → Store → Prop where
  | left {s s' : Store} {v : Nat} {t b : Ty} {e : UnifyError} (hlink : s.link v = some t)
      (h : Fails s t b e s') : Fails s (.var v) b e s'
  | right {s s' : Store} {a t : Ty} {v : Nat} {e : UnifyError} (hlink : s.link v = some t)
      (h : Fails s a t e s') : Fails s a (.var v) e s'
  | unit {s : Store} {p r : Ty} :
      Fails s .unit (.arrow p r) (.mismatch .unit (.arrow p r)) s
  | arrow {s : Store} {p r : Ty} :
      Fails s (.arrow p r) .unit (.mismatch (.arrow p r) .unit) s
  | occursLeft {s : Store} {v : Nat} {p r : Ty} (hfree : s.link v = none)
      (h : v ∈ s.unbound (.arrow p r)) :
      Fails s (.var v) (.arrow p r) (.occurs v (.arrow p r))
        (s.adjust v (s.level v) (.arrow p r)).2
  | occursRight {s : Store} {v : Nat} {p r : Ty} (hfree : s.link v = none)
      (h : v ∈ s.unbound (.arrow p r)) :
      Fails s (.arrow p r) (.var v) (.occurs v (.arrow p r))
        (s.adjust v (s.level v) (.arrow p r)).2
  | param {s s' : Store} {p r p' r' : Ty} {e : UnifyError} (h : Fails s p p' e s') :
      Fails s (.arrow p r) (.arrow p' r') e s'
  | ret {s s₁ s' : Store} {p r p' r' : Ty} {e : UnifyError} (hparam : unify p p' s = .ok () s₁)
      (h : Fails s₁ r r' e s') : Fails s (.arrow p r) (.arrow p' r') e s'

theorem Fails.of_head_left (ha : s.Grounded a) (h : Fails s (s.head a) b e s') :
    Fails s a b e s' := by
  induction ha with
  | unit => rwa [head_of_not_var (by simp)] at h
  | absent => rwa [head_of_not_var (by simp)] at h
  | arrow => rwa [head_of_not_var (by simp)] at h
  | free _ hlink => rwa [head, headUpTo_of_free _ hlink] at h
  | link hlink ht ih =>
      rw [head_of_link hlink ht] at h
      exact .left hlink (ih h)

theorem Fails.of_head_right (hb : s.Grounded b) (h : Fails s a (s.head b) e s') :
    Fails s a b e s' := by
  induction hb with
  | unit => rwa [head_of_not_var (by simp)] at h
  | absent => rwa [head_of_not_var (by simp)] at h
  | arrow => rwa [head_of_not_var (by simp)] at h
  | free _ hlink => rwa [head, headUpTo_of_free _ hlink] at h
  | link hlink ht ih =>
      rw [head_of_link hlink ht] at h
      exact .right hlink (ih h)

/-- What fails at the ends of two chains fails from their beginnings. -/
theorem Fails.of_heads (ha : s.Grounded a) (hb : s.Grounded b) (hahead : s.head a = a')
    (hbhead : s.head b = b') (h : Fails s a' b' e s') : Fails s a b e s' := by
  subst hahead hbhead
  exact .of_head_left ha (.of_head_right hb h)

/-! ### From the run to the derivation -/

theorem bindVar_eq_error (hfree : s.link v = none) (ht : t ≠ .absent)
    (hrun : bindVar v t s = .error (.error e) s') :
    v ∈ s.unbound t ∧ e = .occurs v t ∧ s' = (s.adjust v (s.level v) t).2 := by
  by_cases hmem : v ∈ s.unbound t
  · rw [bindVar_of_mem hmem] at hrun
    cases hrun
    exact ⟨hmem, rfl, rfl⟩
  · rw [bindVar_of_not_mem hmem hfree ht] at hrun
    cases hrun

/-- A variable that occurs in a type at the end of its chain, and is not this type, occurs in a
function type. -/
theorem Store.IsHead.exists_arrow {h : Ty} (hh : s.IsHead t h) (hmem : v ∈ s.unbound h)
    (hne : h ≠ .var v) : ∃ p r, h = .arrow p r := by
  cases h with
  | unit | absent => simp at hmem
  | arrow p r => exact ⟨p, r, rfl⟩
  | var w =>
      rw [unbound_of_free (hh.free w rfl), List.mem_singleton] at hmem
      exact absurd (by rw [hmem]) hne

theorem unify_eq_of_unifyUpTo_eq_ok {n : Nat} (ha : s.Proper a) (hb : s.Proper b)
    (hrun : unifyUpTo n a b s = .ok () s') : unify a b s = .ok () s' := by
  have hends : Ends (unifyUpTo n a b s) := by
    intro s₁ hstop
    rw [hrun] at hstop
    cases hstop
  rw [← hrun, ← unifyUpTo_of_le_of_ends (Nat.le_max_left n s.size) hends]
  exact (unifyUpTo_eq_unify ha hb (Nat.le_max_right n s.size)).symm

section Steps

variable {follow : Ty → Ty → UnifyM Unit}

theorem fails_of_unifyWith_unit (hb : s.Proper b)
    (hrun : unifyWith follow .unit b s = .error (.error e) s') : Fails s .unit b e s' := by
  have hh := hb.grounded.isHead
  apply Fails.of_head_right hb.grounded
  simp only [unifyWith, bind_apply, get_apply] at hrun
  cases hhead : s.head b with
  | unit =>
      rw [hhead] at hrun
      cases hrun
  | var v =>
      rw [hhead] at hrun hh
      obtain ⟨hmem, -⟩ := bindVar_eq_error (hh.free v rfl) (by simp) hrun
      simp at hmem
  | arrow p r =>
      rw [hhead] at hrun
      cases hrun
      exact .unit
  | absent => exact absurd hhead (head_ne_absent hb)

theorem fails_of_unifyWith_var (hfollow : ∀ t, s.link v = some t →
      follow t b s = .error (.error e) s' → Fails s t b e s')
    (hb : s.Proper b) (hrun : unifyWith follow (.var v) b s = .error (.error e) s') :
    Fails s (.var v) b e s' := by
  simp only [unifyWith, bind_apply, get_apply] at hrun
  cases hlink : s.link v with
  | some t =>
      rw [hlink] at hrun
      exact .left hlink (hfollow t hlink hrun)
  | none =>
      simp only [hlink, ite_run, pure_apply] at hrun
      apply Fails.of_head_right hb.grounded
      split at hrun
      · cases hrun
      · rename_i hne
        obtain ⟨hmem, rfl, rfl⟩ := bindVar_eq_error hlink (head_ne_absent hb) hrun
        obtain ⟨p, r, hhead⟩ := hb.grounded.isHead.exists_arrow hmem hne
        rw [hhead] at hmem ⊢
        exact .occursLeft hlink hmem

theorem fails_of_unifyWith {n : Nat} (hn : unifyUpTo n = unifyWith follow)
    (hfollow : ∀ {s s' : Store} {a b : Ty} {e : UnifyError}, s.Proper a → s.Proper b →
      follow a b s = .error (.error e) s' → Fails s a b e s')
    (ha : s.Proper a) (hb : s.Proper b) (hrun : unifyWith follow a b s = .error (.error e) s') :
    Fails s a b e s' := by
  induction a generalizing b s with
  | absent => exact absurd ha.complete (by simp [Ty.Complete])
  | unit => exact fails_of_unifyWith_unit hb hrun
  | var v => exact fails_of_unifyWith_var (fun _ hlink => hfollow (ha.of_link hlink) hb) hb hrun
  | arrow p r ihp ihr =>
      obtain ⟨hp, hr⟩ := proper_arrow.mp ha
      have hh := hb.grounded.isHead
      apply Fails.of_head_right hb.grounded
      simp only [unifyWith, bind_apply, get_apply] at hrun
      cases hhead : s.head b with
      | unit =>
          rw [hhead] at hrun
          cases hrun
          exact .arrow
      | var v =>
          rw [hhead] at hrun hh
          obtain ⟨hmem, rfl, rfl⟩ := bindVar_eq_error (hh.free v rfl) (by simp) hrun
          exact .occursRight (hh.free v rfl) hmem
      | absent => exact absurd hhead (head_ne_absent hb)
      | arrow p' r' =>
          obtain ⟨hp', hr'⟩ := proper_arrow.mp (hhead ▸ hb.head)
          rw [hhead] at hrun
          change (unifyWith follow p p' >>= fun _ => unifyWith follow r r') s = _ at hrun
          rw [bind_apply] at hrun
          cases hparam : unifyWith follow p p' s with
          | error stop s₁ =>
              rw [hparam] at hrun
              cases hrun
              exact .param (ihp hp hp' hparam)
          | ok _ s₁ =>
              rw [hparam] at hrun
              -- the budget was enough for the parameters, so it makes no difference to them
              have hunify := unify_eq_of_unifyUpTo_eq_ok hp hp' (hn ▸ hparam)
              have ht := (unified_of_unify hp hp' hunify).touches
              exact .ret hunify (ihr (ht.proper hr) (ht.proper hr') hrun)

end Steps

theorem fails_of_unifyUpTo (n : Nat) (ha : s.Proper a) (hb : s.Proper b)
    (hrun : unifyUpTo n a b s = .error (.error e) s') : Fails s a b e s' := by
  induction n generalizing s s' a b e with
  | zero =>
      refine fails_of_unifyWith (n := 0) rfl (fun _ _ hstop => ?_) ha hb hrun
      cases hstop
  | succ n ih => exact fails_of_unifyWith (n := n + 1) rfl ih ha hb hrun

/-! ### From the derivation to the run -/

theorem Fails.unify_eq (h : Fails s a b e s') (ha : s.Proper a) (hb : s.Proper b) :
    unify a b s = .error (.error e) s' := by
  induction h with
  | left hlink _ ih =>
      rw [unify_link_left hlink ha hb]
      exact ih (ha.of_link hlink) hb
  | right hlink _ ih =>
      have ht := hb.of_link hlink
      rw [unify_link_right hlink ht.grounded]
      exact ih ha ht
  | unit => exact unify_unit_arrow _ _ _
  | arrow => exact unify_arrow_unit _ _ _
  | occursLeft hfree hmem => exact (unify_var_arrow hfree).trans (bindVar_of_mem hmem)
  | occursRight hfree hmem => exact (unify_arrow_var hfree).trans (bindVar_of_mem hmem)
  | param _ ih =>
      obtain ⟨hp, -⟩ := proper_arrow.mp ha
      obtain ⟨hp', -⟩ := proper_arrow.mp hb
      rw [unify_arrow hp hp', bind_apply, ih hp hp']
  | ret hparam _ ih =>
      obtain ⟨hp, hr⟩ := proper_arrow.mp ha
      obtain ⟨hp', hr'⟩ := proper_arrow.mp hb
      have ht := (unified_of_unify hp hp' hparam).touches
      rw [unify_arrow hp hp', bind_apply, hparam]
      exact ih (ht.proper hr) (ht.proper hr')

/-- Unification fails just where a failure can be derived. -/
theorem unify_eq_error_iff (ha : s.Proper a) (hb : s.Proper b) :
    unify a b s = .error (.error e) s' ↔ Fails s a b e s' :=
  ⟨fails_of_unifyUpTo s.size ha hb, fun h => h.unify_eq ha hb⟩

/-! ## The place of a failure -/

/-- A way down into a function type. -/
inductive Ty.Half where
  | param
  | ret

/-- The component of a type at a position, if the type has that position. -/
def Ty.component? : List Half → Ty → Option Ty
  | [], t => some t
  | .param :: pos, .arrow p _ => p.component? pos
  | .ret :: pos, .arrow _ r => r.component? pos
  | _ :: _, _ => none

/-- The type is a function type. -/
def Ty.IsArrow (t : Ty) : Prop :=
  ∃ p r, t = .arrow p r

/-- The error is about the components of the two trees at the position: they are unit and a function
type, or an unbound variable and a function type that contains it. -/
def UnifyError.Blames (s : Store) (A B : Ty) (pos : List Ty.Half) : UnifyError → Prop
  | .mismatch left right =>
    (left = .unit ∧ right.IsArrow ∨ left.IsArrow ∧ right = .unit) ∧
      A.component? pos = some (s.resolve left) ∧ B.component? pos = some (s.resolve right)
  | .occurs v t =>
    t.IsArrow ∧ s.link v = none ∧ v ∈ s.unbound t ∧
      (A.component? pos = some (.var v) ∧ B.component? pos = some (s.resolve t) ∨
        A.component? pos = some (s.resolve t) ∧ B.component? pos = some (.var v))

variable {A A' B B' : Ty} {pos : List Ty.Half}

theorem UnifyError.Blames.param (h : e.Blames s A B pos) :
    e.Blames s (.arrow A A') (.arrow B B') (.param :: pos) := by
  cases e <;> exact h

theorem UnifyError.Blames.ret (h : e.Blames s A B pos) :
    e.Blames s (.arrow A' A) (.arrow B' B) (.ret :: pos) := by
  cases e <;> exact h

theorem Fails.touches (h : Fails s a b e s') (ha : s.Proper a) (hb : s.Proper b) :
    s.Touches s' (s.involved a b) := by
  have hout := unify_outcome ha hb
  rw [h.unify_eq ha hb] at hout
  cases hout with
  | error hclash => exact hclash.touches

theorem Store.Touches.resolve_of_link {A : Set Nat} (h : s.Touches s' A)
    (hv : s.Grounded (.var v)) (hlink : s.link v = some t) :
    s'.resolve (.var v) = s'.resolve t :=
  Store.resolve_of_link (h.toExtends.link_eq hlink) (h.grounded (hv.of_link hlink))

/-- The occurs check leaves the variable unbound, in the type as it was. -/
theorem blames_occurs (ht : s.Grounded (.arrow p r)) (hfree : s.link v = none)
    (hmem : v ∈ s.unbound (.arrow p r))
    (hs' : s' = (s.adjust v (s.level v) (.arrow p r)).2)
    (hcomponents : A = .var v ∧ B = s'.resolve (.arrow p r) ∨
      A = s'.resolve (.arrow p r) ∧ B = .var v) :
    (UnifyError.occurs v (.arrow p r)).Blames s' A B [] := by
  subst hs'
  have hlinks : ∀ w, (s.adjust v (s.level v) (.arrow p r)).2.link w = s.link w :=
    link_lowerAll _ _
  refine ⟨⟨p, r, rfl⟩, (hlinks v).trans hfree, ?_, ?_⟩
  · rw [unbound, resolve_of_link_eq (by simp [adjust]) hlinks ht]
    exact hmem
  · simpa only [Ty.component?, Option.some.injEq] using hcomponents

/-- What the types come to at the place of a failure does not change any more. -/
theorem Fails.blames (h : Fails s a b e s') (ha : s.Proper a) (hb : s.Proper b) :
    ∃ pos, e.Blames s' (s'.resolve a) (s'.resolve b) pos := by
  induction h with
  | @left s s' v t b e hlink h ih =>
      have htouches := h.touches (ha.of_link hlink) hb
      rw [htouches.resolve_of_link ha.grounded hlink]
      exact ih (ha.of_link hlink) hb
  | @right s s' a t v e hlink h ih =>
      have htouches := h.touches ha (hb.of_link hlink)
      rw [htouches.resolve_of_link hb.grounded hlink]
      exact ih ha (hb.of_link hlink)
  | @unit s p r => exact ⟨[], .inl ⟨rfl, p, r, rfl⟩, rfl, rfl⟩
  | @arrow s p r => exact ⟨[], .inr ⟨⟨p, r, rfl⟩, rfl⟩, rfl, rfl⟩
  | @occursLeft s v p r hfree hmem =>
      refine ⟨[], blames_occurs hb.grounded hfree hmem rfl (.inl ⟨resolve_of_free ?_, rfl⟩)⟩
      exact (link_lowerAll _ _ v).trans hfree
  | @occursRight s v p r hfree hmem =>
      refine ⟨[], blames_occurs ha.grounded hfree hmem rfl (.inr ⟨rfl, resolve_of_free ?_⟩)⟩
      exact (link_lowerAll _ _ v).trans hfree
  | param h ih =>
      obtain ⟨hp, -⟩ := proper_arrow.mp ha
      obtain ⟨hp', -⟩ := proper_arrow.mp hb
      obtain ⟨pos, hpos⟩ := ih hp hp'
      rw [resolve_arrow, resolve_arrow]
      exact ⟨.param :: pos, hpos.param⟩
  | ret hparam h ih =>
      obtain ⟨hp, hr⟩ := proper_arrow.mp ha
      obtain ⟨hp', hr'⟩ := proper_arrow.mp hb
      have ht := (unified_of_unify hp hp' hparam).touches
      obtain ⟨pos, hpos⟩ := ih (ht.proper hr) (ht.proper hr')
      rw [resolve_arrow, resolve_arrow]
      exact ⟨.ret :: pos, hpos.ret⟩

/-! ## Effects and failures -/

/-- The second store differs from the first one at most in the links and levels of unbound cells
that one of the types reaches, and it has no circle. -/
structure Store.Confined (s s' : Store) (a b : Ty) : Prop where
  size_eq : s'.size = s.size
  id_eq : ∀ v < s.size, s'.id v = s.id v
  linked_eq : ∀ v t, s.link v = some t → s'.cell v = s.cell v
  frame : ∀ v < s.size, s'.cell v ≠ s.cell v → s.link v = none ∧ (s.Reaches a v ∨ s.Reaches b v)
  acyclic : s'.Acyclic

theorem Store.Touches.confined (h : s.Touches s' (s.involved a b)) (hsize : s'.size = s.size)
    (hs : ∀ v < s.size, s.Grounded (.var v)) (ha : s.Grounded a) (hb : s.Grounded b) :
    s.Confined s' a b where
  size_eq := hsize
  id_eq := h.id_eq
  linked_eq v t hlink := by
    apply h.frame v (lt_size_of_link hlink)
    intro hv
    simp [(h.active v hv).2] at hlink
  frame v hv hne := by
    have hmem : v ∈ s.involved a b := by
      by_contra hnot
      exact hne (h.frame v hv hnot)
    refine ⟨(h.active v hmem).2, hmem.imp (fun hva => ?_) fun hvb => ?_⟩
    · exact (ha.mem_unbound.mp hva).1
    · exact (hb.mem_unbound.mp hvb).1
  acyclic := acyclic_of_grounded fun v hv => h.grounded (hs v (hsize ▸ hv))

/-- Unification works on the unbound cells of its two types only. If it fails, its error is about
what the types have come to at some position. -/
theorem unify_confined (s : Store) (a b : Ty) (hacyclic : s.Acyclic) (hclosed : s.Closed)
    (ha : ∀ v ∈ a.vars, v < s.size) (hb : ∀ v ∈ b.vars, v < s.size)
    (hca : (s.resolve a).Complete) (hcb : (s.resolve b).Complete) :
    s.Confined (leaves (unify a b s)) a b ∧
    ((∃ s', unify a b s = .ok () s') ∨
      ∃ e s' pos, unify a b s = .error (.error e) s' ∧
        e.Blames s' (s'.resolve a) (s'.resolve b) pos) := by
  have hcells : ∀ v < s.size, s.Grounded (.var v) := fun v hv =>
    hacyclic.grounded hclosed (by simpa [Ty.vars] using hv)
  have hpa : s.Proper a := ⟨hacyclic.grounded hclosed ha, hca⟩
  have hpb : s.Proper b := ⟨hacyclic.grounded hclosed hb, hcb⟩
  have hout := unify_outcome hpa hpb
  generalize hrun : unify a b s = result at hout
  cases hout with
  | @ok s' h =>
      exact ⟨h.touches.confined h.size_eq hcells hpa.grounded hpb.grounded, .inl ⟨s', rfl⟩⟩
  | @error s' e h =>
      obtain ⟨pos, hpos⟩ := ((unify_eq_error_iff hpa hpb).mp hrun).blames hpa hpb
      exact ⟨h.touches.confined h.size_eq hcells hpa.grounded hpb.grounded,
        .inr ⟨e, s', pos, rfl, hpos⟩⟩

/-- The parameters are unified, which lowers the third cell. Then the third cell is found in the
result that it would be linked to. -/
theorem unify_confined_chain :
    chainStore.Acyclic ∧ chainStore.Closed ∧
    ∃ s' pos,
      unify (.arrow (.var 1) (.var 2)) (.arrow (.var 2) (.arrow (.var 0) .unit)) chainStore =
        .error (.error (.occurs 2 (.arrow (.var 0) .unit))) s' ∧
      chainStore.Confined s' (.arrow (.var 1) (.var 2)) (.arrow (.var 2) (.arrow (.var 0) .unit)) ∧
      (UnifyError.occurs 2 (.arrow (.var 0) .unit)).Blames s' (.arrow (.var 2) (.var 2))
        (.arrow (.var 2) (.arrow (.var 2) .unit)) pos ∧
      s'.link 0 = some (.var 2) ∧ s'.level 2 = 1 := by
  have hacyclic := acyclic_of_grounded chainStore_grounded
  obtain ⟨hconfined, ⟨s', hok⟩ | ⟨e, s', pos, hrun, hpos⟩⟩ := unify_confined chainStore
    (.arrow (.var 1) (.var 2)) (.arrow (.var 2) (.arrow (.var 0) .unit)) hacyclic
    chainStore_closed (by decide) (by decide) (by decide) (by decide)
  · cases hok
  · cases hrun
    exact ⟨hacyclic, chainStore_closed, _, pos, rfl, hconfined, hpos, by decide, by decide⟩

end LetPoly
