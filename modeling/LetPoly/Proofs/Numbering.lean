import LetPoly.Infer
import LetPoly.Proofs.Evolution
import LetPoly.Proofs.Running

/-! # Identifiers

A computation gives out identifiers in order, one for each new cell, and changes none that it gave
out. This holds in every state and whatever way the computation ends.
-/

namespace LetPoly

open Store

variable {ε α : Type} {s s' : Store} {st st' st₁ st₂ : State}

/-! ## Unification changes no identifier -/

/-- The same cells with the same identifiers. -/
structure Store.SameIds (s s' : Store) : Prop where
  size_eq : s'.size = s.size
  id_eq : ∀ v, s'.id v = s.id v

theorem Store.SameIds.refl (s : Store) : s.SameIds s :=
  ⟨rfl, fun _ => rfl⟩

theorem Store.SameIds.trans {s₁ s₂ s₃ : Store} (h : s₁.SameIds s₂) (h' : s₂.SameIds s₃) :
    s₁.SameIds s₃ :=
  ⟨h'.size_eq.trans h.size_eq, fun v => (h'.id_eq v).trans (h.id_eq v)⟩

instance : Std.Refl SameIds := ⟨.refl⟩

instance : Trans SameIds SameIds SameIds := ⟨.trans⟩

theorem Store.sameIds_lowerAll (s : Store) (vs : List Nat) (ℓ : Int) :
    s.SameIds (s.lowerAll vs ℓ) := by
  refine ⟨size_lowerAll vs ℓ, fun v => ?_⟩
  rw [Store.id, cell_lowerAll]
  split <;> rfl

theorem Store.sameIds_setLink (s : Store) (v : Nat) (t : Ty) : s.SameIds (s.setLink v t) := by
  refine ⟨size_modify s v _, fun w => ?_⟩
  by_cases hw : v = w
  · subst hw
    by_cases hlt : v < s.size
    · simp [Store.id, setLink, cell_modify_self s _ hlt]
    · have hnone : s.cells[v]? = none := Array.getElem?_eq_none (Nat.le_of_not_lt hlt)
      simp [Store.id, setLink, Store.modify, cell, Array.getElem?_modify, hnone]
  · simp [Store.id, setLink, cell_modify_of_ne s _ hw]

theorem assign_keeps (v : Nat) (t : Ty) :
    Keeps SameIds (assign v t : EStateM (Stop ε) Store Unit) := by
  intro s
  simp only [assign, bind_apply, get_apply]
  by_cases hlink : (s.link v).isSome
  · simp only [hlink, if_true]
    exact .refl s
  · simp only [hlink]
    by_cases ht : t = .absent
    · simp only [ht]
      exact .refl s
    · simp only [ht]
      exact s.sameIds_setLink v t

theorem bindVar_keeps (v : Nat) (t : Ty) : Keeps SameIds (bindVar v t) := by
  intro s
  let s' := s.lowerAll ((s.unbound t).take ((s.unbound t).idxOf v + 1)) (s.level v)
  have hlower : s.SameIds s' := s.sameIds_lowerAll _ _
  by_cases hmem : v ∈ s.unbound t
  · have hrun : bindVar v t s = .error (.error (.occurs v t)) s' := by
      simp [bindVar, adjust, bind_apply, get_apply, set_apply, throw_apply, hmem, s']
    rw [hrun]
    exact hlower
  · have hrun : bindVar v t s = assign v t s' := by
      simp [bindVar, adjust, bind_apply, get_apply, set_apply, hmem, s']
    rw [hrun]
    exact hlower.trans (assign_keeps v t s')

theorem unifyWith_keeps {follow : Ty → Ty → UnifyM Unit}
    (hfollow : ∀ a b, Keeps SameIds (follow a b)) (a b : Ty) :
    Keeps SameIds (unifyWith follow a b) := by
  induction a generalizing b with
  | unit | absent =>
      intro s
      simp only [unifyWith, bind_apply, get_apply]
      cases s.head b with
      | var v => exact bindVar_keeps v _ s
      | unit | arrow | absent => exact .refl s
  | var v =>
      intro s
      simp only [unifyWith, bind_apply, get_apply]
      cases s.link v with
      | some t => exact hfollow t b s
      | none =>
          by_cases hb : s.head b = .var v
          · simp only [hb, if_true]
            exact .refl s
          · simp only [hb, if_false]
            exact bindVar_keeps v _ s
  | arrow p r ihp ihr =>
      intro s
      simp only [unifyWith, bind_apply, get_apply]
      cases s.head b with
      | var v => exact bindVar_keeps v (.arrow p r) s
      | arrow p' r' => exact Keeps.bind (ihp p') (fun _ => ihr r') s
      | unit | absent => exact .refl s

theorem unify_keeps (a b : Ty) : Keeps SameIds (unify a b) := by
  have hkeeps : ∀ n a b, Keeps SameIds (unifyUpTo n a b) := by
    intro n
    induction n with
    | zero => exact unifyWith_keeps fun _ _ => .throw _
    | succ n ih => exact unifyWith_keeps ih
  exact fun s => hkeeps s.size a b s

/-! ## The cells of a run -/

/-- The cells from `n` on have the identifiers from `i` on, and the supply goes on after them. -/
structure Numbered (n : Nat) (i : Int64) (st : State) : Prop where
  size_le : n ≤ st.store.size
  id_eq : ∀ v, n ≤ v → v < st.store.size → st.store.id v = i + Int64.ofNat (v - n)
  nextId_eq : st.supply.nextId = i + Int64.ofNat (st.store.size - n)
  count_eq : st.supply.count = st.store.size - n

theorem Numbered.of_sameIds {n : Nat} {i : Int64} (h : Numbered n i st)
    (hstore : st.store.SameIds st'.store) (hnext : st'.supply.nextId = st.supply.nextId)
    (hcount : st'.supply.count = st.supply.count) : Numbered n i st' where
  size_le := hstore.size_eq ▸ h.size_le
  id_eq v hn hv := by
    rw [hstore.size_eq] at hv
    rw [hstore.id_eq, h.id_eq v hn hv]
  nextId_eq := by rw [hnext, hstore.size_eq, h.nextId_eq]
  count_eq := by rw [hcount, hstore.size_eq, h.count_eq]

/-- The state went on to hand out identifiers in order. -/
structure Issues (st st' : State) : Prop where
  size_le : st.store.size ≤ st'.store.size
  id_eq : ∀ v < st.store.size, st'.store.id v = st.store.id v
  numbered : ∀ {n i}, Numbered n i st → Numbered n i st'

theorem Issues.trans (h : Issues st st₁) (h₁ : Issues st₁ st₂) : Issues st st₂ where
  size_le := h.size_le.trans h₁.size_le
  id_eq v hv := (h₁.id_eq v (hv.trans_le h.size_le)).trans (h.id_eq v hv)
  numbered hn := h₁.numbered (h.numbered hn)

theorem Issues.of_sameIds (hstore : st.store.SameIds st'.store)
    (hnext : st'.supply.nextId = st.supply.nextId) (hcount : st'.supply.count = st.supply.count) :
    Issues st st' where
  size_le := Nat.le_of_eq hstore.size_eq.symm
  id_eq v _ := hstore.id_eq v
  numbered hn := hn.of_sameIds hstore hnext hcount

theorem Issues.refl (st : State) : Issues st st :=
  .of_sameIds (.refl _) rfl rfl

instance : Std.Refl Issues := ⟨.refl⟩

instance : Trans Issues Issues Issues := ⟨.trans⟩

/-- The state after a variable was allocated. -/
def State.afterFresh (st : State) : State where
  store := st.store.alloc st.supply.nextId st.supply.level
  supply := { st.supply with nextId := st.supply.nextId + 1, count := st.supply.count + 1 }

theorem fresh_apply (st : State) :
    (fresh : Action ε Nat) st = .ok st.store.size st.afterFresh := rfl

theorem size_afterFresh (st : State) : st.afterFresh.store.size = st.store.size + 1 :=
  size_alloc ..

theorem issues_afterFresh (st : State) : Issues st st.afterFresh where
  size_le := by simp [size_afterFresh]
  id_eq v hv := by simp [Store.id, State.afterFresh, cell_alloc_of_ne _ _ _ (Nat.ne_of_lt hv)]
  numbered {n i} h := by
    have hle := h.size_le
    have hsucc : i + Int64.ofNat (st.store.size - n) + 1 =
        i + Int64.ofNat (st.store.size + 1 - n) := by
      rw [Nat.sub_add_comm hle, Int64.ofNat_add, Int64.add_assoc]
      rfl
    refine ⟨?_, ?_, ?_, ?_⟩ <;> simp only [State.afterFresh, size_alloc]
    · omega
    · intro v hn hv
      by_cases hlt : v < st.store.size
      · rw [← h.id_eq v hn hlt]
        simp [Store.id, cell_alloc_of_ne _ _ _ (Nat.ne_of_lt hlt)]
      · obtain rfl : v = st.store.size := by omega
        simpa [Store.id] using h.nextId_eq
    · rw [h.nextId_eq, hsucc]
    · rw [h.count_eq]
      omega

theorem freshImages_issues (ids : List Int64) : Keeps Issues (freshImages ids : Action ε Unit) := by
  induction ids with
  | nil => exact .pure ()
  | cons id ids ih =>
      intro st
      have hfresh := issues_afterFresh st
      simp only [freshImages, bind_apply, fresh_apply, get_apply]
      cases st.afterFresh.supply.table with
      | none => exact hfresh
      | some table =>
          let st₁ : State :=
            { st.afterFresh with supply.table := some ((id, .var st.store.size) :: table) }
          have hset : Issues st.afterFresh st₁ := .of_sameIds (.refl _) rfl rfl
          exact (hfresh.trans hset).trans (ih st₁)

theorem instantiate_issues (σ : Scheme) : Keeps Issues (instantiate σ : Action ε Ty) := by
  intro st
  unfold instantiate
  split
  · refine Keeps.bind (freshImages_issues σ.vars) (fun _ st₁ => ?_) st
    simp only [bind_apply, get_apply, set_apply, pure_apply]
    exact .of_sameIds (.refl _) rfl rfl
  · exact .refl st

/-! ## Binding levels -/

/-- The state with another binding level. -/
def State.atLevel (st : State) (ℓ : Int) : State :=
  { st with supply.level := ℓ }

theorem issues_atLevel (st : State) (ℓ : Int) : Issues st (st.atLevel ℓ) :=
  .of_sameIds (.refl _) rfl rfl

theorem leaveLevel_apply (st : State) :
    (leaveLevel : Action ε Unit) st =
      if st.supply.level ≤ 1 then .error (.fault .unbalancedLevel) st
      else .ok () (st.atLevel (st.supply.level - 1)) := by
  by_cases h : st.supply.level ≤ 1
  · simp only [leaveLevel, bind_apply, get_apply, h, if_true]
    rfl
  · simp only [leaveLevel, bind_apply, get_apply, h, if_false]
    rfl

theorem atNextLevel_apply (act : Action ε α) (st : State) :
    atNextLevel act st =
      match (act (st.atLevel (st.supply.level + 1)) : EStateM.Result (Stop ε) State α) with
      | .ok a st₁ => (leaveLevel >>= fun _ => pure a : Action ε α) st₁
      | .error (.error e) st₁ => (leaveLevel >>= fun _ => throw (.error e) : Action ε α) st₁
      | .error (.fault f) st₁ => .error (.fault f) st₁ := rfl

theorem leaveLevel_issues : Keeps Issues (leaveLevel : Action ε Unit) := by
  intro st
  rw [leaveLevel_apply]
  split
  · exact .refl st
  · exact issues_atLevel st _

/-- What is left one level down is left, but for the level. -/
theorem issues_atNextLevel (act : Action ε α) (st : State) :
    Issues (leaves (act (st.atLevel (st.supply.level + 1)))) (leaves (atNextLevel act st)) := by
  rw [atNextLevel_apply]
  match act (st.atLevel (st.supply.level + 1)) with
  | .ok a st₁ => exact Keeps.bind leaveLevel_issues (fun _ => .pure a) st₁
  | .error (.error e) st₁ =>
      exact Keeps.bind leaveLevel_issues (fun _ => .throw _) st₁
  | .error (.fault f) st₁ => exact .refl st₁

theorem atNextLevel_issues {act : Action ε α} (h : Keeps Issues act) :
    Keeps Issues (atNextLevel act) := fun st =>
  ((issues_atLevel st _).trans (h _)).trans (issues_atNextLevel act st)

/-! ## Inference -/

theorem unifyOr_issues (failure : UnifyError → Failure) (a b : Ty) :
    Keeps Issues (unifyOr failure a b) := by
  intro st
  have hkeeps := unify_keeps a b st.store
  unfold unifyOr
  generalize unify a b st.store = result at hkeeps
  match result with
  | .ok _ s => exact .of_sameIds hkeeps rfl rfl
  | .error (.error e) s => exact .of_sameIds hkeeps rfl rfl
  | .error (.fault f) s => exact .of_sameIds hkeeps rfl rfl

theorem apply_issues (func arg : Ty) (failure : UnifyError → Failure) :
    Keeps Issues (do
      let ret ← fresh
      unifyOr failure func (.arrow arg (.var ret))
      return .var ret : InferM Ty) := by
  refine .bind issues_afterFresh fun v => ?_
  exact .bind (unifyOr_issues _ _ _) fun _ => .pure _

theorem infer_issues (e : Expr) (G : Scope) : Keeps Issues (infer e G) := by
  induction e generalizing G with
  | unit => exact .pure _
  | var x =>
      unfold infer
      split
      · exact instantiate_issues _
      · exact .throw _
  | lam x e ih =>
      refine .bind issues_afterFresh fun v => ?_
      exact .bind (ih _) fun _ => .pure _
  | call f a ihf iha =>
      refine .bind (ihf G) fun func => ?_
      exact .bind (iha G) fun arg => apply_issues func arg _
  | letIn x e e' ihe ihe' =>
      refine .bind (atNextLevel_issues (ihe G)) fun t => ?_
      exact .bind (fun st => .refl st) fun σ => ihe' _
  | absent => exact .throw _
  | foreign form => exact .throw _

end LetPoly
