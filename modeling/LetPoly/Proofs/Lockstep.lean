import LetPoly.Proofs.PairedSchemes
import LetPoly.Proofs.Query

/-! # Inference in step

Inference that starts in paired states does the same to both of them, to the end.
-/

namespace LetPoly.Pairing

open Store

variable {Φ : Pairing} {s s' : Store} {a b t : Ty} {v : Nat} {st st' st₁ st₁' : State}
  {σ σ' : Scheme} {G G' : Scope}

/-! ## Unification -/

/-- Unification ended well in both runs. What was in play stays in play. -/
def Unifies (Φ : Pairing) (s : Store) (_ : Unit) (s₁ : Store) (_ : Unit) (s₁' : Store) : Prop :=
  Φ.Paired s₁ s₁' ∧ ∀ t, Φ.InPlay s t → Φ.InPlay s₁ t

/-- Unification stopped in both runs, for the same reason. -/
inductive UnifyStops (Φ : Pairing) :
    Stop UnifyError → Store → Stop UnifyError → Store → Prop where
  | error {e : UnifyError} {s s' : Store} (h : Φ.Paired s s') (he : ∀ t ∈ e.types, Φ.InPlay s t) :
      UnifyStops Φ (.error e) s (.error (e.rename Φ.cell)) s'
  | fault {f : Fault} {s s' : Store} : UnifyStops Φ (.fault f) s (.fault f) s'

theorem unifies_refl (h : Φ.Paired s s') : Φ.Unifies s () s () s' :=
  ⟨h, fun _ ht => ht⟩

theorem mismatch_stops (h : Φ.Paired s s') (ha : Φ.InPlay s a) (hb : Φ.InPlay s b) :
    Φ.UnifyStops (.error (.mismatch a b)) s
      (.error (.mismatch (a.rename Φ.cell) (b.rename Φ.cell))) s' := by
  refine UnifyStops.error (e := .mismatch a b) h fun t ht => ?_
  simp only [UnifyError.types, List.mem_cons, List.not_mem_nil, or_false] at ht
  rcases ht with rfl | rfl
  · exact ha
  · exact hb

theorem bindVar_inStep (h : Φ.Paired s s') (hv : v ∈ Φ.active) (hlt : v < s.size)
    (hfree : s.link v = none) (ht : Φ.InPlay s t) :
    InStep (Φ.Unifies s) Φ.UnifyStops (bindVar v t s)
      (bindVar (Φ.cell v) (t.rename Φ.cell) s') := by
  have hunbound := h.unbound_rename ht.proper.grounded ht.live
  have hlive : ∀ w ∈ s.unbound t, w ∈ Φ.live := fun w hw => Φ.active_live (ht.active w hw)
  have hmem' := mem_map_cell hlive (Φ.active_live hv)
  have hvar := inPlay_of_free hv hlt hfree
  by_cases hmem : v ∈ s.unbound t
  · -- the walk over the type comes as far in both runs
    have hidx : ((s.unbound t).map Φ.cell).idxOf (Φ.cell v) = (s.unbound t).idxOf v :=
      idxOf_map fun w hw => Φ.cell_injOn (hlive w hw) (Φ.active_live hv)
    rw [bindVar_of_mem hmem, bindVar_of_mem (hunbound ▸ hmem'.mpr hmem), hunbound, hidx,
      ← List.map_take, h.level_eq v hv hlt]
    have hA : s.Active {w | w ∈ s.unbound t} := fun w hw =>
      ⟨ht.proper.grounded.lt_size_of_mem_unbound hw, ht.proper.grounded.link_of_mem_unbound hw⟩
    have htake : ∀ w ∈ (s.unbound t).take ((s.unbound t).idxOf v + 1), w ∈ s.unbound t :=
      fun w hw => List.mem_of_mem_take hw
    have htouch := touches_lowerAll hA htake (s.level v)
    have hlowered := h.lowerAll (fun w hw => ht.active w (htake w hw)) (s.level v)
    refine .error (UnifyStops.error (e := .occurs v t) hlowered fun u hu => ?_)
    simp only [UnifyError.types, List.mem_cons, List.not_mem_nil, or_false] at hu
    rcases hu with rfl | rfl
    · exact hvar.touches htouch ht.active h.first_le
    · exact ht.touches htouch ht.active h.first_le
  · have hlink : s.Linkable v t := ⟨hlt, hfree, ht.proper.grounded, hmem⟩
    have hne : t ≠ .absent := by
      rintro rfl
      exact absurd ht.proper.complete (by simp [Ty.Complete])
    have hne' : t.rename Φ.cell ≠ .absent := by
      cases t <;> simp at hne ⊢
    rw [bindVar_of_not_mem hmem hfree hne, bindVar_of_not_mem (fun hmem₁ => hmem
      (hmem'.mp (hunbound ▸ hmem₁))) (h.link_none (Φ.active_live hv) hfree) hne']
    refine .ok ⟨h.linked hv ht hlink, fun u hu => ?_⟩
    refine hu.touches (hlink.touches ht.proper.complete) ?_ h.first_le
    rintro w (rfl | hw)
    · exact hv
    · exact ht.active w hw

/-- The recursion on the left type stays in step if it does so where a link leads out of it. -/
theorem unifyWith_inStep {follow : Ty → Ty → UnifyM Unit}
    (hfollow : ∀ {s s' t b}, Φ.Paired s s' → Φ.InPlay s t → Φ.InPlay s b →
      InStep (Φ.Unifies s) Φ.UnifyStops (follow t b s)
        (follow (t.rename Φ.cell) (b.rename Φ.cell) s'))
    (h : Φ.Paired s s') (ha : Φ.InPlay s a) (hb : Φ.InPlay s b) :
    InStep (Φ.Unifies s) Φ.UnifyStops (unifyWith follow a b s)
      (unifyWith follow (a.rename Φ.cell) (b.rename Φ.cell) s') := by
  induction a generalizing b s s' with
  | absent => exact absurd ha.proper.complete (by simp [Ty.Complete])
  | unit =>
      have hhead' := (h.head_rename hb.proper.grounded hb.live).1
      have hplay := hb.head h
      simp only [Ty.rename_unit, unifyWith, bind_apply, get_apply, hhead']
      cases hhead : s.head b with
      | unit => exact .ok (unifies_refl h)
      | var v =>
          obtain ⟨hv, hlt, hfree⟩ := hb.active_of_head h hhead
          exact bindVar_inStep h hv hlt hfree inPlay_unit
      | arrow p' r' => exact .error (mismatch_stops h inPlay_unit (hhead ▸ hplay))
      | absent => exact absurd hhead (head_ne_absent hb.proper)
  | var v =>
      have hlive := live_var.mp ha.live
      cases hlink : s.link v with
      | some t =>
          simp only [Ty.rename_var, unifyWith, bind_apply, get_apply, hlink,
            h.link_some hlive hlink]
          exact hfollow h (ha.of_link h hlink) hb
      | none =>
          obtain ⟨hhead', hliveb⟩ := h.head_rename hb.proper.grounded hb.live
          have hmem : v ∈ s.unbound (.var v) := by simp [unbound_of_free hlink]
          have hsame : (s.head b).rename Φ.cell = .var (Φ.cell v) ↔ s.head b = .var v :=
            rename_eq_var hliveb hlive
          simp only [Ty.rename_var, unifyWith, bind_apply, get_apply, hlink,
            h.link_none hlive hlink, hhead', ite_run, hsame, pure_apply]
          split
          · exact .ok (unifies_refl h)
          · exact bindVar_inStep h (ha.active v hmem)
              (ha.proper.grounded.lt_size_of_mem_unbound hmem) hlink (hb.head h)
  | arrow p r ihp ihr =>
      have hhead' := (h.head_rename hb.proper.grounded hb.live).1
      have hplay := hb.head h
      simp only [Ty.rename_arrow, unifyWith, bind_apply, get_apply, hhead']
      cases hhead : s.head b with
      | unit => exact .error (mismatch_stops h ha (hhead ▸ hplay))
      | var v =>
          obtain ⟨hv, hlt, hfree⟩ := hb.active_of_head h hhead
          exact bindVar_inStep h hv hlt hfree ha
      | absent => exact absurd hhead (head_ne_absent hb.proper)
      | arrow p' r' =>
          obtain ⟨hp, hr⟩ := inPlay_arrow.mp ha
          obtain ⟨hp', hr'⟩ := inPlay_arrow.mp (hhead ▸ hplay)
          refine InStep.bind (ihp h hp hp') ?_
          rintro _ s₁ _ s₁' - - ⟨h₁, hkept⟩
          refine (ihr h₁ (hkept r hr) (hkept r' hr')).imp ?_
          rintro _ s₂ _ s₂' ⟨h₂, hkept₁⟩
          exact ⟨h₂, fun t ht => hkept₁ t (hkept t ht)⟩

theorem unifyUpTo_inStep (n : Nat) (h : Φ.Paired s s') (ha : Φ.InPlay s a) (hb : Φ.InPlay s b) :
    InStep (Φ.Unifies s) Φ.UnifyStops (unifyUpTo n a b s)
      (unifyUpTo n (a.rename Φ.cell) (b.rename Φ.cell) s') := by
  induction n generalizing s s' a b with
  | zero => exact unifyWith_inStep (fun _ _ _ => .error .fault) h ha hb
  | succ n ih => exact unifyWith_inStep ih h ha hb

/-- Unification of types in play stays in step. The budgets of the two runs may differ, but both are
large enough. -/
theorem unify_inStep (h : Φ.Paired s s') (ha : Φ.InPlay s a) (hb : Φ.InPlay s b) :
    InStep (Φ.Unifies s) Φ.UnifyStops (unify a b s)
      (unify (a.rename Φ.cell) (b.rename Φ.cell) s') := by
  rw [← unifyUpTo_eq_unify ha.proper hb.proper (Nat.le_max_left s.size s'.size),
    ← unifyUpTo_eq_unify (h.proper ha.proper ha.live) (h.proper hb.proper hb.live)
      (Nat.le_max_right s.size s'.size)]
  exact unifyUpTo_inStep _ h ha hb

/-! ## Results of inference -/

/-- What two runs start from: states and scopes that answer to each other, and both can be used. -/
structure Starts (Φ : Pairing) (G : Scope) (st : State) (G' : Scope) (st' : State) : Prop where
  states : Φ.States st st'
  scopes : Φ.Scopes st.store st'.store G G'
  usable : G.Usable st
  usable' : G'.Usable st'

/-- Both runs came to a type, the same one but for the names of its cells. -/
structure Infers (Φ : Pairing) (t : Ty) (st : State) (t' : Ty) (st' : State) : Prop where
  states : Φ.States st st'
  ty_eq : t' = t.rename Φ.cell
  live : Φ.Live t

/-- Both runs failed at the same expression and for the same reason. -/
inductive InferStops (Φ : Pairing) : Stop Failure → State → Stop Failure → State → Prop where
  | error {e : InferError} {x : Expr} {st st' : State} (h : Φ.States st st')
      (he : ∀ t ∈ e.types, Φ.InPlay st.store t) :
      InferStops Φ (.error ⟨e, x⟩) st (.error ⟨e.rename Φ.cell, x⟩) st'

theorem Starts.inPlay (h : Φ.Starts G st G' st') (hinf : Inferred G st t st₁) (hlive : Φ.Live t) :
    Φ.InPlay st₁.store t where
  proper := hinf.proper
  live := hlive
  active v hv := by
    rcases hinf.within v hv with hv | hv
    · exact h.scopes.active hv
    · exact Φ.new_active v (h.states.stores.first_le.trans hv)

/-! ## Names -/

theorem live_substitute {table : List (Int64 × Ty)} (hs : Φ.Paired s s')
    (ht : s.Grounded t) (hlive : Φ.Live t) (htable : ∀ entry ∈ table, Φ.Live entry.2) :
    Φ.Live (s.substitute table t) := by
  intro v hv
  rw [substitute, Ty.vars_subst, List.mem_flatMap] at hv
  obtain ⟨u, hu, hv⟩ := hv
  cases hlookup : table.lookup (s.id u) with
  | none =>
      obtain rfl : v = u := by simpa [hlookup, Ty.vars] using hv
      exact hs.live_resolve ht hlive v hu
  | some image =>
      obtain ⟨l₁, l₂, hl, -⟩ := List.lookup_eq_some_iff.mp hlookup
      rw [hlookup] at hv
      exact htable (s.id u, image) (by simp [hl]) v hv

theorem instantiate_inStep (hst : Φ.States st st') (hσ : Φ.Schemes st.store st'.store σ σ')
    (hproper : st.store.Proper σ.body) (hready : st.supply.table = some [])
    (hready' : st'.supply.table = some []) :
    InStep Φ.Infers Φ.InferStops (instantiate σ st) (instantiate σ' st') := by
  obtain ⟨δ, hvars, hids⟩ := hσ.vars_eq
  have hgeneric : σ'.isGeneric = σ.isGeneric := by simp [Scheme.isGeneric, hvars]
  unfold instantiate
  rw [hgeneric]
  split
  · have hg := hproper.grounded
    obtain ⟨table, st₁, st₁', hrun, hrun', h₁⟩ := freshImages_inStep σ.vars
      (⟨hst, hready, hready', by simp⟩ : Φ.Tables δ [] st st')
    rw [← hvars] at hrun'
    have halloc := allocated_of_freshImages hready hrun
    have hissues' : Issues st' st₁' := by
      simpa [hrun', leaves] using freshImages_issues (ε := Failure) σ'.vars st'
    have hids₁ : ∀ v ∈ st₁.store.unbound σ.body,
        st₁'.store.id (Φ.cell v) = st₁.store.id v + δ := by
      intro v hv
      rw [unbound, halloc.resolve_eq hg] at hv
      have hlt := hg.lt_size_of_mem_unbound hv
      have hlive := hst.stores.live_resolve hg hσ.live v hv
      have hid : st₁.store.id v = st.store.id v := by simp [Store.id, halloc.cell_eq v hlt]
      rw [hissues'.id_eq _ ((hst.stores.cell_lt hlive).mpr hlt), hid, hids v hv]
    have hg₁ := halloc.toExtends.grounded hg
    simp only [bind_apply, hrun, hrun', get_apply, set_apply, pure_apply, h₁.table_eq,
      h₁.table_eq', Option.getD_some, hσ.body_eq]
    exact .ok ⟨h₁.states.withTable _ _, substitute_rename h₁.states.stores hg₁ hσ.live hids₁,
      live_substitute h₁.states.stores hg₁ hσ.live h₁.live⟩
  · exact .ok ⟨hst, hσ.body_eq, hσ.live⟩

/-! ## Calls -/

theorem application_stops {cause : UnifyError} (h : Φ.States st st') (ha : Φ.InPlay st.store a)
    (hb : Φ.InPlay st.store b) (hcause : ∀ t ∈ cause.types, Φ.InPlay st.store t) (x : Expr) :
    Φ.InferStops (.error ⟨.application a b cause, x⟩) st
      (.error ⟨.application (a.rename Φ.cell) (b.rename Φ.cell) (cause.rename Φ.cell), x⟩) st' := by
  refine InferStops.error (e := .application a b cause) h fun t ht => ?_
  simp only [InferError.types, List.mem_cons] at ht
  rcases ht with rfl | rfl | ht
  · exact ha
  · exact hb
  · exact hcause t ht

theorem apply_inStep (hst : Φ.States st st') (ha : Φ.InPlay st.store a) (hb : Φ.InPlay st.store b)
    (x : Expr) :
    InStep Φ.Infers Φ.InferStops
      ((do
        let ret ← fresh
        unifyOr (fun e => ⟨.application a b e, x⟩) a (.arrow b (.var ret))
        return .var ret : InferM Ty) st)
      ((do
        let ret ← fresh
        unifyOr (fun e => ⟨.application (a.rename Φ.cell) (b.rename Φ.cell) e, x⟩)
          (a.rename Φ.cell) (.arrow (b.rename Φ.cell) (.var ret))
        return .var ret : InferM Ty) st') := by
  have hfresh := hst.afterFresh
  have htouch := (allocated_fresh st).touches active_empty
  have hret := hst.inPlay_fresh
  have ha := ha.touches htouch (by simp) hst.stores.first_le
  have hb := hb.touches htouch (by simp) hst.stores.first_le
  have hcall := inPlay_arrow.mpr ⟨hb, hret⟩
  have hstep := unify_inStep hfresh.stores ha hcall
  have hout := unify_outcome ha.proper hcall.proper
  simp only [Ty.rename_arrow, Ty.rename_var, hst.stores.cell_size] at hstep
  simp only [bind_apply, fresh_apply, unifyOr_apply]
  generalize unify a (.arrow b (.var st.store.size)) st.afterFresh.store = result at hstep hout
  generalize unify (a.rename Φ.cell) _ st'.afterFresh.store = result' at hstep
  cases hstep with
  | ok h =>
      refine .ok ⟨hfresh.withStore h.1, ?_, hret.live⟩
      rw [Ty.rename_var, hst.stores.cell_size]
  | error h =>
      cases hout with
      | error hclash =>
          have hinvolved : ∀ v ∈ st.afterFresh.store.involved a (.arrow b (.var st.store.size)),
              v ∈ Φ.active := fun v hv => hv.elim (ha.active v) (hcall.active v)
          cases h with
          | error h he =>
              have ha := ha.touches hclash.touches hinvolved hfresh.stores.first_le
              have hb := hb.touches hclash.touches hinvolved hfresh.stores.first_le
              exact .error (application_stops (hfresh.withStore h) ha hb he x)

/-! ## Local definitions -/

theorem atNextLevel_inStep {act act' : InferM Ty} (hst : Φ.States st st')
    (hpos : 1 ≤ st.supply.level) (hpos' : 1 ≤ st'.supply.level)
    (hout : InferOutcome G (st.atLevel (st.supply.level + 1))
      (act (st.atLevel (st.supply.level + 1))))
    (hout' : InferOutcome G' (st'.atLevel (st'.supply.level + 1))
      (act' (st'.atLevel (st'.supply.level + 1))))
    (h : InStep Φ.Infers Φ.InferStops (act (st.atLevel (st.supply.level + 1)))
      (act' (st'.atLevel (st'.supply.level + 1)))) :
    InStep Φ.Infers Φ.InferStops (atNextLevel act st) (atNextLevel act' st') := by
  rw [atNextLevel_of_outcome hpos hout, atNextLevel_of_outcome hpos' hout']
  generalize act (st.atLevel (st.supply.level + 1)) = result at h
  generalize act' (st'.atLevel (st'.supply.level + 1)) = result' at h
  cases h with
  | ok h => exact .ok ⟨h.states.atLevel hst.base_le hst.level_eq, h.ty_eq, h.live⟩
  | error h =>
      cases h with
      | error h he => exact .error (.error (h.atLevel hst.base_le hst.level_eq) he)

/-! ## All expressions -/

theorem Starts.nextLevel (h : Φ.Starts G st G' st') :
    Φ.Starts G (st.atLevel (st.supply.level + 1)) G' (st'.atLevel (st'.supply.level + 1)) :=
  ⟨h.states.nextLevel, h.scopes, h.usable.nextLevel, h.usable'.nextLevel⟩

/-- The body of a function starts with a new cell in both runs. -/
theorem Starts.insert_fresh (h : Φ.Starts G st G' st') (x : String) :
    Φ.Starts (G.insert x (.mono (.var st.store.size))) st.afterFresh
      (G'.insert x (.mono (.var st'.store.size))) st'.afterFresh := by
  have hfresh := h.states.afterFresh
  have hmono := hfresh.stores.schemes_mono h.states.inPlay_fresh
  rw [Ty.rename_var, h.states.stores.cell_size] at hmono
  have hscopes : Φ.Scopes st.afterFresh.store st'.afterFresh.store G G' :=
    h.scopes.touches h.usable.proper ((allocated_fresh st).touches active_empty) (by simp)
      h.states.stores hfresh.stores (issues_afterFresh st').id_eq
  exact ⟨hfresh, hscopes.insert hmono x, h.usable.insert_fresh x, h.usable'.insert_fresh x⟩

/-- What follows an inference starts from what it leaves. -/
theorem Starts.inferred (h : Φ.Starts G st G' st') {t' : Ty} (hinf : Inferred G st t st₁)
    (hinf' : Inferred G' st' t' st₁') (hst₁ : Φ.States st₁ st₁') : Φ.Starts G st₁ G' st₁' where
  states := hst₁
  scopes := h.scopes.touches h.usable.proper hinf.touches (fun _ hv => h.scopes.active hv)
    h.states.stores hst₁.stores hinf'.touches.id_eq
  usable := h.usable.progress hinf.toProgress
  usable' := h.usable'.progress hinf'.toProgress

theorem Ordered.part {k k' q q' : Query} (h : Φ.Ordered k.final.store k'.final.store)
    (hk : k.Starts q) (hk' : k'.Starts q') : Φ.Ordered q.final.store q'.final.store :=
  h.of_issues hk.issues.2 hk'.issues.2

/-- Runs that start in step stay in step to the end, as long as the identifiers that they give out
come in the same order. -/
theorem infer_inStep (e : Expr) (h : Φ.Starts G st G' st')
    (hord : Φ.Ordered (Query.final ⟨e, G, st⟩).store (Query.final ⟨e, G', st'⟩).store) :
    InStep Φ.Infers Φ.InferStops (infer e G st) (infer e G' st') := by
  induction e generalizing G G' st st' with
  | unit => exact .ok ⟨h.states, rfl, by simp [Live, Ty.vars]⟩
  | var x =>
      have hx := h.scopes x
      simp only [infer]
      generalize hGx : G[x]? = o at hx
      generalize G'[x]? = o' at hx
      cases hx with
      | none => exact .error (.error h.states (by simp [InferError.types]))
      | some hσ =>
          have hproper := h.usable.proper _ ⟨x, hGx⟩
          exact instantiate_inStep h.states hσ hproper h.usable.ready h.usable'.ready
  | lam x e ih =>
      rw [infer, infer, bind_apply, bind_apply, fresh_apply, fresh_apply]
      refine .bind (ih (h.insert_fresh x) (hord.part .lam .lam)) ?_
      rintro t st₁ _ st₁' - - ⟨hst₁, rfl, hlive⟩
      refine .ok ⟨hst₁, ?_, live_arrow.mpr ⟨h.states.inPlay_fresh.live, hlive⟩⟩
      rw [Ty.rename_arrow, Ty.rename_var, h.states.stores.cell_size]
  | call f a ihf iha =>
      rw [infer, infer]
      refine .bind (ihf h (hord.part .func .func)) ?_
      rintro func st₁ _ st₁' hrun hrun' ⟨hst₁, rfl, hlive⟩
      have hinf := infer_ok h.usable hrun
      have h₁ := h.inferred hinf (infer_ok h.usable' hrun') hst₁
      refine .bind (iha h₁ (hord.part (.arg hrun) (.arg hrun'))) ?_
      rintro arg st₂ _ st₂' hrun₁ hrun₁' ⟨hst₂, rfl, hlive₁⟩
      have hinf₁ := infer_ok h₁.usable hrun₁
      have hfunc := (h.inPlay hinf hlive).touches hinf₁.touches
        (fun _ hv => h₁.scopes.active hv) hst₁.stores.first_le
      exact apply_inStep hst₂ hfunc (h₁.inPlay hinf₁ hlive₁) _
  | letIn x e e' ihe ihe' =>
      have hvalue := atNextLevel_inStep h.states h.usable.positive h.usable'.positive
        (infer_outcome e h.usable.nextLevel) (infer_outcome e h.usable'.nextLevel)
        (ihe h.nextLevel (hord.part .value .value))
      rw [infer, infer]
      refine .bind hvalue ?_
      rintro t st₁ _ st₁' hrun hrun' ⟨hst₁, rfl, hlive⟩
      have hinf := inferred_of_atNextLevel h.usable hrun
      have hinf' := inferred_of_atNextLevel h.usable' hrun'
      have h₁ := h.inferred hinf hinf' hst₁
      have hbody := hord.part (.body hrun) (.body hrun')
      have hord₁ : Φ.Ordered st₁.store st₁'.store :=
        hbody.of_issues (infer_issues e' _ st₁) (infer_issues e' _ st₁')
      have hscheme :=
        hst₁.stores.schemes_generalizeAt (h.inPlay hinf hlive) hst₁.base_le hord₁
      rw [← hst₁.level_eq] at hscheme
      exact ihe' ⟨hst₁, h₁.scopes.insert hscheme x, h.usable.insert_generalize hinf x,
        h.usable'.insert_generalize hinf' x⟩ hbody
  | absent => exact .error (.error h.states (by simp [InferError.types]))
  | foreign form => exact .error (.error h.states (by simp [InferError.types]))

end LetPoly.Pairing
