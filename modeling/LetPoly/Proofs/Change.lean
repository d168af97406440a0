import LetPoly.Proofs.Inference

/-! # Single changes of a store

Whatever inference does to a store comes down to three changes: a cell is added, unbound cells are
lowered to the level of some cell, or an unbound cell is linked to a type that does not contain it.
What holds of a store for good is proved for one change, and with it for any number of them.
-/

namespace LetPoly

open Store

variable {ε α β : Type} {s s' : Store} {st : State} {a b t : Ty} {v w : Nat} {G : Scope}

/-- A single change. -/
inductive Store.Change : Store → Store → Prop where
  | alloc (s : Store) (id : Int64) {ℓ : Int} (hℓ : 1 ≤ ℓ) : Change s (s.alloc id ℓ)
  | lower {s : Store} {v : Nat} {vs : List Nat} (hv : v < s.size) (hvs : s.Active {w | w ∈ vs}) :
      Change s (s.lowerAll vs (s.level v))
  | link {s : Store} {v : Nat} {t : Ty} (h : s.Linkable v t) (hc : (s.resolve t).Complete) :
      Change s (s.linked v t)

/-- A sequence of changes. -/
abbrev Store.Changes : Store → Store → Prop :=
  Relation.ReflTransGen Change

/-! ## What changes leave alone -/

/-- All unbound cells of the store. -/
def Store.unlinked (s : Store) : Set Nat :=
  {v | v < s.size ∧ s.link v = none}

theorem Store.active_unlinked : s.Active s.unlinked :=
  fun _ hv => hv

theorem Store.touches_alloc {A : Set Nat} (hA : s.Active A) (id : Int64) (ℓ : Int) :
    s.Touches (s.alloc id ℓ) A := by
  apply touches_of_link_eq hA
  · simp
  · exact link_alloc id ℓ
  · intro v hv
    simp [Store.id, cell_alloc_of_ne s id ℓ (Nat.ne_of_lt hv)]
  · intro v hv
    simp [Store.level, cell_alloc_of_ne s id ℓ (Nat.ne_of_lt hv)]
  · intro v hv _
    exact cell_alloc_of_ne s id ℓ (Nat.ne_of_lt hv)

theorem Store.Change.touches (h : s.Change s') : s.Touches s' s.unlinked := by
  cases h with
  | alloc id hℓ => exact touches_alloc active_unlinked id _
  | lower hv hvs => exact touches_lowerAll active_unlinked hvs _
  | link h hc =>
      have ht := h.touches hc
      exact ht.mono ht.active active_unlinked

theorem Store.Changes.touches (h : s.Changes s') : s.Touches s' s.unlinked := by
  induction h with
  | refl => exact .refl active_unlinked
  | tail _ hstep ih =>
      apply ih.trans hstep.touches
      intro v hv
      by_cases hlt : v < s.size
      · exact .inl ⟨hlt, ih.toExtends.free hv.2⟩
      · exact .inr (Nat.le_of_not_lt hlt)

theorem Store.Changes.cell_eq (h : s.Changes s') (hlink : s.link v = some t) :
    s'.cell v = s.cell v := by
  apply h.touches.frame v (lt_size_of_link hlink)
  intro hv
  simp [hv.2] at hlink

/-- Nothing that a type comes to reach is above what it reached before. -/
theorem Store.Touches.level_le_of_unbound {A : Set Nat} {ℓ : Int} (h : s.Touches s' A)
    (ht : s.Grounded t) (hℓ : ∀ w ∈ s.unbound t, s.level w ≤ ℓ) :
    ∀ w ∈ s'.unbound t, s'.level w ≤ ℓ := by
  intro w hw
  rcases h.mem_unbound_cases ht hw with ⟨hw, -⟩ | ⟨u, hu, huA, hw⟩
  · exact (h.level_le w (ht.lt_size_of_mem_unbound hw)).trans (hℓ w hw)
  · exact (h.level_reach u huA w hw).trans (hℓ u hu)

theorem Store.Touches.level_le_of_free {A : Set Nat} {ℓ : Int} {σ : Scheme} (h : s.Touches s' A)
    (hA : ∀ u ∈ A, s.level u ≤ ℓ) (hσ : s.Grounded σ.body)
    (hℓ : ∀ v, s.Free σ v → s.level v ≤ ℓ) : ∀ v, s'.Free σ v → s'.level v ≤ ℓ := by
  intro v hv
  obtain ⟨hmem, hq⟩ := (free_iff (h.grounded hσ)).mp hv
  rcases h.mem_unbound_cases hσ hmem with ⟨hmem, -⟩ | ⟨u, -, hu, hmem⟩
  · have hlt := hσ.lt_size_of_mem_unbound hmem
    rw [h.id_eq v hlt] at hq
    exact (h.level_le v hlt).trans (hℓ v ((free_iff hσ).mpr ⟨hmem, hq⟩))
  · exact (h.level_reach u hu v hmem).trans (hA u hu)

/-! ## Sound stores -/

/-- All cells can be read off, all levels are positive, and what stands behind a link is not above
the linked cell. -/
structure Store.Sound (s : Store) : Prop where
  proper : ∀ v < s.size, s.Proper (.var v)
  positive : ∀ v < s.size, 1 ≤ s.level v
  level_le : ∀ v t, s.link v = some t → ∀ w ∈ s.unbound t, s.level w ≤ s.level v

namespace Store.Sound

theorem empty : ({} : Store).Sound where
  proper v hv := absurd hv (Nat.not_lt_zero v)
  positive v hv := absurd hv (Nat.not_lt_zero v)
  level_le v _ hlink := absurd (lt_size_of_link hlink) (Nat.not_lt_zero v)

theorem acyclic (hs : s.Sound) : s.Acyclic :=
  acyclic_of_grounded fun v hv => (hs.proper v hv).grounded

theorem grounded_of_link (hs : s.Sound) (hlink : s.link v = some t) : s.Grounded t :=
  (hs.proper v (lt_size_of_link hlink)).grounded.of_link hlink

theorem proper_change (hs : s.Sound) (h : s.Change s') : ∀ v < s'.size, s'.Proper (.var v) := by
  intro v hv
  by_cases hlt : v < s.size
  · exact h.touches.proper (hs.proper v hlt)
  · cases h with
    | alloc id hℓ =>
        apply proper_of_free hv
        rw [link_alloc, link_of_size_le (Nat.le_of_not_lt hlt)]
    | lower _ _ => exact absurd (by simpa using hv) hlt
    | link _ _ => exact absurd (by simpa using hv) hlt

theorem positive_change (hs : s.Sound) (h : s.Change s') : ∀ v < s'.size, 1 ≤ s'.level v := by
  intro w hw
  cases h with
  | alloc id hℓ =>
      rw [size_alloc] at hw
      by_cases hlt : w < s.size
      · simpa [Store.level, cell_alloc_of_ne s id _ (Nat.ne_of_lt hlt)] using hs.positive w hlt
      · obtain rfl : w = s.size := by omega
        simpa [Store.level] using hℓ
  | @lower v vs hv _ =>
      rw [size_lowerAll] at hw
      have hwpos := hs.positive w hw
      have hvpos := hs.positive v hv
      rw [Store.level, cell_lowerAll]
      split
      · exact le_min hwpos hvpos
      · exact hwpos
  | link h _ =>
      rw [size_linked] at hw
      have hwpos := hs.positive w hw
      have hvpos := hs.positive _ h.lt
      rw [h.level_eq]
      split
      · exact le_min hwpos hvpos
      · exact hwpos

theorem level_le_change (hs : s.Sound) (h : s.Change s') :
    ∀ v t, s'.link v = some t → ∀ w ∈ s'.unbound t, s'.level w ≤ s'.level v := by
  -- a link that was there before is unchanged, and so is the level of its cell
  have hold : ∀ v t, s.link v = some t → ∀ w ∈ s'.unbound t, s'.level w ≤ s'.level v := by
    intro v t hlink w hw
    have hlevel : s'.level v = s.level v := by
      rw [Store.level, Changes.cell_eq (.single h) hlink, Store.level]
    rw [hlevel]
    exact h.touches.level_le_of_unbound (hs.grounded_of_link hlink) (hs.level_le v t hlink) w hw
  intro v t hlink w hw
  cases h with
  | alloc id _ => exact hold v t (by rwa [link_alloc] at hlink) w hw
  | lower _ _ =>
      refine hold v t ?_ w hw
      rw [Store.link, cell_lowerAll] at hlink
      split at hlink <;> exact hlink
  | @link u _ h _ =>
      by_cases hv : v = u
      · subst hv
        rw [h.link_self] at hlink
        cases hlink
        have hmem : w ∈ s.unbound t := by
          rw [← h.unbound_self, unbound_of_link h.link_self h.grounded_linked]
          exact hw
        rw [h.level_eq, h.level_eq, if_pos hmem, if_neg h.apart]
        exact min_le_right _ _
      · exact hold v t (by rwa [h.link_of_ne hv] at hlink) w hw

theorem change (hs : s.Sound) (h : s.Change s') : s'.Sound :=
  ⟨hs.proper_change h, hs.positive_change h, hs.level_le_change h⟩

theorem changes (hs : s.Sound) (h : s.Changes s') : s'.Sound := by
  induction h with
  | refl => exact hs
  | tail _ hstep ih => exact ih.change hstep

end Store.Sound

/-! ## Types over a store -/

/-- The type is built from cells of the store, and no part of it was left out. -/
def Store.Builds (s : Store) (t : Ty) : Prop :=
  t.Complete ∧ ∀ v ∈ t.vars, v < s.size

instance (s : Store) (t : Ty) : Decidable (s.Builds t) :=
  inferInstanceAs (Decidable (_ ∧ _))

theorem Store.Sound.proper_of_builds (hs : s.Sound) (ht : s.Builds t) : s.Proper t := by
  obtain ⟨hc, hvars⟩ := ht
  induction t with
  | unit => exact ⟨.unit, by simp [Ty.Complete]⟩
  | absent => exact hc.elim
  | var v => exact hs.proper v (hvars v (by simp [Ty.vars]))
  | arrow p r hp hr =>
      apply proper_arrow.mpr
      constructor
      · exact hp hc.1 fun v hv => hvars v (List.mem_append_left _ hv)
      · exact hr hc.2 fun v hv => hvars v (List.mem_append_right _ hv)

theorem Store.Proper.builds (ht : s.Proper t) : s.Builds t := by
  induction t with
  | unit => exact ⟨trivial, by simp [Ty.vars]⟩
  | absent => exact absurd ht.complete (by simp [Ty.Complete])
  | var v =>
      refine ⟨trivial, fun w hw => ?_⟩
      obtain rfl : w = v := by simpa [Ty.vars] using hw
      cases ht.grounded with
      | free hlt _ => exact hlt
      | link hlink _ => exact lt_size_of_link hlink
  | arrow p r ihp ihr =>
      obtain ⟨hp, hr⟩ := proper_arrow.mp ht
      refine ⟨⟨(ihp hp).1, (ihr hr).1⟩, fun w hw => ?_⟩
      rcases List.mem_append.mp hw with hw | hw
      · exact (ihp hp).2 w hw
      · exact (ihr hr).2 w hw

/-! ## Unification -/

theorem bindVar_changes (hv : v < s.size) (hfree : s.link v = none) (ht : s.Proper t) :
    s.Changes (leaves (bindVar v t s)) := by
  by_cases hmem : v ∈ s.unbound t
  · rw [bindVar_of_mem hmem]
    apply Relation.ReflTransGen.single
    apply Change.lower hv
    intro w hw
    have hw := List.mem_of_mem_take hw
    exact ⟨ht.grounded.lt_size_of_mem_unbound hw, ht.grounded.link_of_mem_unbound hw⟩
  · have habsent : t ≠ .absent := by
      rintro rfl
      exact absurd ht.complete (by simp [Ty.Complete])
    rw [bindVar_of_not_mem hmem hfree habsent]
    exact .single (.link ⟨hv, hfree, ht.grounded, hmem⟩ ht.complete)

theorem bindVar_head_changes (hb : s.Proper b) (hhead : s.head b = .var v) (ha : s.Proper a) :
    s.Changes (leaves (bindVar v a s)) := by
  have hh := hb.grounded.isHead
  rw [hhead] at hh
  have hfree := hh.free v rfl
  exact bindVar_changes (hh.grounded.lt_size_of_mem_unbound (by simp [unbound_of_free hfree]))
    hfree ha

/-- Whatever becomes of a link that is followed, the recursion on the left type adds only changes
of its own. -/
theorem unifyWith_changes {follow : Ty → Ty → UnifyM Unit}
    (hfollow : ∀ {s : Store} {a b : Ty}, s.Proper a → s.Proper b →
      s.Changes (leaves (follow a b s)))
    (ha : s.Proper a) (hb : s.Proper b) : s.Changes (leaves (unifyWith follow a b s)) := by
  induction a generalizing b s with
  | absent => exact absurd ha.complete (by simp [Ty.Complete])
  | unit =>
      simp only [unifyWith, bind_apply, get_apply]
      cases hhead : s.head b with
      | var v => exact bindVar_head_changes hb hhead ha
      | unit | arrow | absent => exact .refl
  | var v =>
      simp only [unifyWith, bind_apply, get_apply]
      cases hlink : s.link v with
      | some t => exact hfollow (ha.of_link hlink) hb
      | none =>
          simp only [ite_run, pure_apply]
          split
          · exact .refl
          · have hv : v < s.size :=
              ha.grounded.lt_size_of_mem_unbound (by simp [unbound_of_free hlink])
            exact bindVar_changes hv hlink hb.head
  | arrow p r ihp ihr =>
      obtain ⟨hp, hr⟩ := proper_arrow.mp ha
      simp only [unifyWith, bind_apply, get_apply]
      cases hhead : s.head b with
      | var v => exact bindVar_head_changes hb hhead ha
      | unit | absent => exact .refl
      | arrow p' r' =>
          obtain ⟨hp', hr'⟩ := proper_arrow.mp (hhead ▸ hb.head)
          have hparam := ihp hp hp'
          simp only [bind_apply]
          cases hrun : unifyWith follow p p' s with
          | error e s₁ => simpa [hrun, leaves] using hparam
          | ok _ s₁ =>
              have hparam : s.Changes s₁ := by simpa [hrun, leaves] using hparam
              have ht := hparam.touches
              exact hparam.trans (ihr (ht.proper hr) (ht.proper hr'))

theorem unify_changes (ha : s.Proper a) (hb : s.Proper b) :
    s.Changes (leaves (unify a b s)) := by
  have hupTo : ∀ (n : Nat) {s : Store} {a b : Ty}, s.Proper a → s.Proper b →
      s.Changes (leaves (unifyUpTo n a b s)) := by
    intro n
    induction n with
    | zero => exact unifyWith_changes fun _ _ => .refl
    | succ n ih => exact unifyWith_changes ih
  exact hupTo s.size ha hb

/-! ## Inference -/

theorem changes_bind_right {x : Action ε α} {f : α → Action ε β}
    (hf : ∀ a st₁, x st = .ok a st₁ → st₁.store.Changes (leaves (f a st₁)).store) :
    (leaves (x st)).store.Changes (leaves ((x >>= f) st)).store := by
  rw [bind_apply]
  cases hrun : x st with
  | error e st₁ => exact .refl
  | ok a st₁ => exact hf a st₁ hrun

theorem changes_bind {x : Action ε α} {f : α → Action ε β}
    (hx : st.store.Changes (leaves (x st)).store)
    (hf : ∀ a st₁, x st = .ok a st₁ → st₁.store.Changes (leaves (f a st₁)).store) :
    st.store.Changes (leaves ((x >>= f) st)).store :=
  hx.trans (changes_bind_right hf)

theorem changes_afterFresh (hpos : 1 ≤ st.supply.level) :
    st.store.Changes st.afterFresh.store :=
  .single (.alloc st.store st.supply.nextId hpos)

theorem freshImages_changes (ids : List Int64) (hpos : 1 ≤ st.supply.level) :
    st.store.Changes (leaves ((freshImages ids : Action ε Unit) st)).store := by
  induction ids generalizing st with
  | nil => exact .refl
  | cons id ids ih =>
      have hfresh := changes_afterFresh hpos
      simp only [freshImages, bind_apply, fresh_apply, get_apply]
      cases st.afterFresh.supply.table with
      | none => exact hfresh
      | some table =>
          let st₁ : State :=
            { st.afterFresh with supply.table := some ((id, .var st.store.size) :: table) }
          exact hfresh.trans (@ih st₁ hpos)

theorem instantiate_changes (σ : Scheme) (hpos : 1 ≤ st.supply.level) :
    st.store.Changes (leaves ((instantiate σ : Action ε Ty) st)).store := by
  unfold instantiate
  split
  · apply changes_bind (freshImages_changes σ.vars hpos)
    intro _ st₁ _
    exact .refl
  · exact .refl

theorem unifyOr_changes (failure : UnifyError → Failure) (ha : st.store.Proper a)
    (hb : st.store.Proper b) : st.store.Changes (leaves (unifyOr failure a b st)).store := by
  have hchanges := unify_changes ha hb
  rw [unifyOr_apply]
  generalize unify a b st.store = result at hchanges
  match result with
  | .ok _ s => exact hchanges
  | .error (.error e) s => exact hchanges
  | .error (.fault f) s => exact hchanges

theorem store_atNextLevel (act : Action ε α) (st : State) :
    (leaves (atNextLevel act st)).store =
      (leaves (act (st.atLevel (st.supply.level + 1)))).store := by
  have hleave : ∀ (x : Action ε α) (st₁ : State), (∀ st₂, (leaves (x st₂)).store = st₂.store) →
      (leaves ((leaveLevel >>= fun _ => x : Action ε α) st₁)).store = st₁.store := by
    intro x st₁ hx
    rw [bind_apply, leaveLevel_apply]
    by_cases hlevel : st₁.supply.level ≤ 1
    · rw [if_pos hlevel]
      rfl
    · rw [if_neg hlevel]
      exact hx _
  rw [atNextLevel_apply]
  match act (st.atLevel (st.supply.level + 1)) with
  | .ok a st₁ => exact hleave (pure a) st₁ fun _ => rfl
  | .error (.error e) st₁ => exact hleave (throw (.error e)) st₁ fun _ => rfl
  | .error (.fault f) st₁ => rfl

/-- The changes of a call after its function and its argument. -/
theorem Operands.changes {func arg : Ty} {st₂ : State} (h : Operands G st func arg st₂)
    (hpos : 1 ≤ st.supply.level) (failure : UnifyError → Failure) :
    st₂.store.Changes (leaves ((do
      let ret ← fresh
      unifyOr failure func (.arrow arg (.var ret))
      return .var ret : InferM Ty) st₂)).store := by
  have hlevel : st₂.supply.level = st.supply.level := h.advance.level_eq
  apply changes_bind (changes_afterFresh (hlevel ▸ hpos))
  rintro _ _ ⟨⟩
  apply changes_bind (unifyOr_changes _ h.proper_func h.proper_arg)
  intro _ _ _
  exact .refl

theorem infer_changes (e : Expr) (h : G.Usable st) :
    st.store.Changes (leaves (infer e G st)).store := by
  induction e generalizing G st with
  | unit | absent | foreign => exact .refl
  | var x =>
      unfold infer
      cases G[x]? with
      | none => exact .refl
      | some σ => exact instantiate_changes σ h.positive
  | lam x e ih =>
      unfold infer
      apply changes_bind (changes_afterFresh h.positive)
      rintro _ _ ⟨⟩
      apply changes_bind (ih (h.insert_fresh x))
      intro _ _ _
      exact .refl
  | call f a ihf iha =>
      unfold infer
      apply changes_bind (ihf h)
      intro func st₁ hf
      have hf := infer_ok h hf
      have h₁ := h.progress hf.toProgress
      apply changes_bind (iha h₁)
      intro arg st₂ ha
      exact (hf.operands h (infer_ok h₁ ha)).changes h.positive _
  | letIn x e e' ihe ihe' =>
      unfold infer
      apply changes_bind
      · rw [store_atNextLevel]
        exact ihe h.nextLevel
      · intro t st₁ hrun
        have hinf := inferred_of_atNextLevel h hrun
        apply changes_bind .refl
        rintro _ _ ⟨⟩
        exact ihe' (h.insert_generalize hinf x)

end LetPoly
