import LetPoly.Proofs.Inference

/-! # Parts of a run

Inference of an expression consists of inference of its parts, in the scopes and states that it
makes for them. What the identifiers of a run say about its scopes is passed on from each part to
the parts it starts.
-/

namespace LetPoly

open Store

variable {st st₁ st₂ : State} {G : Scope}

/-- An expression whose type is to be inferred, with the scope and the state to start from. -/
structure Query where
  expr : Expr
  scope : Scope
  state : State

/-- The state that the query leaves. -/
def Query.final (k : Query) : State :=
  leaves (infer k.expr k.scope k.state)

/-- Inference of the first expression starts inference of the second one, which is part of it. -/
inductive Query.Starts : Query → Query → Prop where
  | lam {x e G st} : Starts ⟨.lam x e, G, st⟩
      ⟨e, G.insert x (.mono (.var st.store.size)), st.afterFresh⟩
  | func {f a G st} : Starts ⟨.call f a, G, st⟩ ⟨f, G, st⟩
  | arg {f a G st t st₁} (hf : infer f G st = .ok t st₁) : Starts ⟨.call f a, G, st⟩ ⟨a, G, st₁⟩
  | value {x e e' G st} : Starts ⟨.letIn x e e', G, st⟩ ⟨e, G, st.atLevel (st.supply.level + 1)⟩
  | body {x e e' G st t st₁} (he : atNextLevel (infer e G) st = .ok t st₁) :
      Starts ⟨.letIn x e e', G, st⟩
        ⟨e', G.insert x (st₁.store.generalizeAt st₁.supply.level t), st₁⟩

theorem Query.Starts.issues {k k' : Query} (h : k.Starts k') :
    Issues k.state k'.state ∧ Issues k'.final k.final := by
  cases h with
  | @lam x e G st =>
      refine ⟨issues_afterFresh st, ?_⟩
      exact Keeps.bind_right (fun _ => .pure _) st.afterFresh
  | @func f a G st =>
      refine ⟨.refl st, Keeps.bind_right (fun func => ?_) st⟩
      exact .bind (infer_issues a G) fun arg => apply_issues func arg _
  | @arg f a G st t st₁ hf =>
      refine ⟨by simpa [hf, leaves] using infer_issues f G st, ?_⟩
      simp only [Query.final]
      rw [infer, bind_apply, hf]
      exact Keeps.bind_right (fun arg => apply_issues t arg _) st₁
  | @value x e e' G st =>
      refine ⟨issues_atLevel st _, (issues_atNextLevel (infer e G) st).trans ?_⟩
      refine Keeps.bind_right (fun t => ?_) st
      exact .bind (fun st => .refl st) fun σ => infer_issues e' _
  | @body x e e' G st t st₁ he =>
      refine ⟨by simpa [he, leaves] using atNextLevel_issues (infer_issues e G) st, ?_⟩
      simp only [Query.final]
      rw [infer, bind_apply, he]
      exact .refl _

/-! ## Identifiers that tell cells apart -/

/-- Identifiers for the cells of a run, which has less than `bound` cells. They are different for
the cells that matter. -/
structure Numbering where
  id : Nat → Int64
  live : Set Nat
  bound : Nat
  inj : Set.InjOn id live

/-- The state has the identifiers of the numbering, and all cells to come matter. -/
structure Numbering.Covers (N : Numbering) (st : State) : Prop where
  id_eq : ∀ v < st.store.size, st.store.id v = N.id v
  size_le : st.store.size ≤ N.bound
  live : ∀ v, st.store.size ≤ v → v < N.bound → v ∈ N.live

theorem Numbering.Covers.between {N : Numbering} (h : N.Covers st) (h₂ : N.Covers st₂)
    (h₁ : Issues st st₁) (h₁₂ : Issues st₁ st₂) : N.Covers st₁ where
  id_eq v hv := (h₁₂.id_eq v hv).symm.trans (h₂.id_eq v (hv.trans_le h₁₂.size_le))
  size_le := h₁₂.size_le.trans h₂.size_le
  live v hv := h.live v (h₁.size_le.trans hv)

/-- The numbering covers the query from its start to its end. -/
def Numbering.CoversQuery (N : Numbering) (k : Query) : Prop :=
  N.Covers k.state ∧ N.Covers k.final

theorem Numbering.CoversQuery.starts {N : Numbering} {k k' : Query} (h : N.CoversQuery k)
    (hk : k.Starts k') : N.CoversQuery k' := by
  obtain ⟨hstate, hfinal⟩ := hk.issues
  have hrun : Issues k'.state k'.final := infer_issues k'.expr k'.scope k'.state
  exact ⟨h.1.between h.2 hstate (hrun.trans hfinal),
    h.1.between h.2 (hstate.trans hrun) hfinal⟩

/-! ## Cells of a scope -/

variable {k k' : Query} {N : Numbering}

/-- All cells that a scheme of the scope leads to matter, unless none of them does and the scheme is
generic in all its variables, with an identifier for each. -/
def Scope.Live (G : Scope) (N : Numbering) (s : Store) : Prop :=
  ∀ σ, G.Has σ → s.Seals N.live σ ∧ Set.InjOn s.id {v | v ∈ s.unbound σ.body} ∨
    ∀ v ∈ s.unbound σ.body, v ∈ N.live

theorem Scope.Live.of_free {s : Store} {v : Nat} (h : G.Live N s) (hG : G.Proper s)
    (hv : G.Free s v) : v ∈ N.live := by
  obtain ⟨σ, hσ, hv⟩ := hv
  have hg := (hG σ hσ).grounded
  rcases h σ hσ with ⟨hsealed, -⟩ | hlive
  · exact absurd hv (hsealed.not_free hg)
  · exact hlive v ((free_iff hg).mp hv).1

theorem Scope.Live.insert {s : Store} {σ : Scheme} (h : G.Live N s)
    (hσ : ∀ v ∈ s.unbound σ.body, v ∈ N.live) (x : String) : Scope.Live (G.insert x σ) N s := by
  intro σ' hσ'
  rcases Scope.has_insert hσ' with rfl | hσ'
  · exact .inr hσ
  · exact h σ' hσ'

theorem Scope.Live.touches {s s' : Store} {A : Set Nat} (h : G.Live N s) (hG : G.Proper s)
    (ht : s.Touches s' A) (hA : ∀ v ∈ A, v ∈ N.live)
    (hnew : ∀ v, s.size ≤ v → v < s'.size → v ∈ N.live) : G.Live N s' := by
  intro σ hσ
  have hg := (hG σ hσ).grounded
  rcases h σ hσ with ⟨hsealed, hinj⟩ | hlive
  · refine .inl ⟨hsealed.touches hg ht hA, ?_⟩
    rw [hsealed.unbound_eq hg ht hA]
    exact hinj.congr fun v hv => (ht.id_eq v (hg.lt_size_of_mem_unbound hv)).symm
  · refine .inr fun v hv => ?_
    have hlt := (ht.grounded hg).lt_size_of_mem_unbound hv
    rcases ht.mem_unbound_cases hg hv with ⟨hv, -⟩ | ⟨u, -, hu, hv⟩
    · exact hlive v hv
    · rcases ht.reach u hu v hv with hv | hv
      · exact hA v hv
      · exact hnew v hv hlt

theorem Inferred.live {t : Ty} (h : Inferred G st t st₁) (hG : G.Fits st)
    (hlive : G.Live N st.store) (hN : N.Covers st) (hN₁ : N.Covers st₁) :
    G.Live N st₁.store ∧ ∀ v ∈ st₁.store.unbound t, v ∈ N.live := by
  have hfree : ∀ v, G.Free st.store v → v ∈ N.live := fun v hv => hlive.of_free hG.proper hv
  have hnew : ∀ v, st.store.size ≤ v → v < st₁.store.size → v ∈ N.live := fun v hv hlt =>
    hN.live v hv (hlt.trans_le hN₁.size_le)
  refine ⟨hlive.touches hG.proper h.touches hfree hnew, fun v hv => ?_⟩
  rcases h.within v hv with hfreev | hle
  · exact hfree v hfreev
  · exact hnew v hle (h.proper.grounded.lt_size_of_mem_unbound hv)

/-- The scope fits the state, and the numbering covers all that matters in it. -/
structure Query.Tracked (k : Query) (N : Numbering) : Prop where
  fits : k.scope.Fits k.state
  covers : N.CoversQuery k
  live : k.scope.Live N k.state.store

theorem Query.Tracked.starts (h : k.Tracked N) (hk : k.Starts k') : k'.Tracked N := by
  have hcovers := h.covers.starts hk
  cases hk with
  | @lam x e G st =>
      have hfits : G.Fits st := h.fits
      have halloc := allocated_fresh st
      have hnew : ∀ v, st.store.size ≤ v → v < st.afterFresh.store.size → v ∈ N.live :=
        fun v hv hlt => h.covers.1.live v hv (hlt.trans_le hcovers.1.size_le)
      refine ⟨hfits.insert_fresh x, hcovers, ?_⟩
      have hlive : G.Live N st.afterFresh.store := h.live.touches hfits.proper
        (halloc.touches hfits.active) (fun v hv => h.live.of_free hfits.proper hv) hnew
      refine hlive.insert (fun v hv => ?_) x
      obtain rfl : v = st.store.size := by simpa [Scheme.mono, unbound_fresh] using hv
      exact hnew _ (Nat.le_refl _) (by simp [size_afterFresh])
  | func => exact ⟨h.fits, hcovers, h.live⟩
  | @arg f a G st t st₁ hf =>
      have hinf := infer_ok h.fits.toUsable hf
      exact ⟨h.fits.inferred hinf, hcovers, (hinf.live h.fits h.live h.covers.1 hcovers.1).1⟩
  | @value x e e' G st =>
      have hfits : G.Fits st := h.fits
      exact ⟨hfits.atLevel (by omega), hcovers, h.live⟩
  | @body x e e' G st t st₁ he =>
      have hinf := inferred_of_atNextLevel h.fits.toUsable he
      obtain ⟨hlive, hvars⟩ := hinf.live h.fits h.live h.covers.1 hcovers.1
      exact ⟨h.fits.insert_generalize hinf x, hcovers, hlive.insert hvars x⟩

/-- The cell is free in the scope of the query or to come. -/
def Query.Open (k : Query) (v : Nat) : Prop :=
  k.scope.Free k.state.store v ∨ k.state.store.size ≤ v

theorem Query.Tracked.live_of_open {v : Nat} (h : k.Tracked N) (hv : k.Open v)
    (hlt : v < N.bound) : v ∈ N.live :=
  hv.elim (h.live.of_free h.fits.proper) fun hle => h.covers.1.live v hle hlt

/-- What is open to a part was open from the start. -/
theorem Query.Open.of_starts {v : Nat} (hv : k'.Open v) (hk : k.Starts k')
    (h : k.scope.Usable k.state) : k.Open v := by
  have hle := hk.issues.1.size_le
  rcases hv with hv | hv
  swap
  · exact .inr (hle.trans hv)
  cases hk with
  | func | value => exact .inl hv
  | arg hf => exact hv.of_touches_self h.proper (infer_ok h hf).touches
  | lam => exact h.free_insert_fresh hv
  | body he => exact (inferred_of_atNextLevel h he).free_insert_generalize h hv

/-- A part starts after work on the free cells of the scope. -/
theorem Query.Starts.touches (hk : k.Starts k') (h : k.scope.Usable k.state) :
    k.state.store.Touches k'.state.store {v | k.scope.Free k.state.store v} := by
  cases hk with
  | func | value => exact .refl h.active
  | arg hf => exact (infer_ok h hf).touches
  | lam => exact (allocated_fresh _).touches h.active
  | body he => exact (inferred_of_atNextLevel h he).touches

/-! ## Quantified identifiers -/

/-- No scheme that leads to a free cell of the scope quantifies the identifier of a cell to come. -/
def Scope.Uncaptured (G : Scope) (N : Numbering) (s : Store) : Prop :=
  ∀ σ, G.Has σ → G.Shares s σ → ∀ v, s.size ≤ v → v < N.bound → σ.quantifies (N.id v) = false

/-- A scheme that leads to a free cell of a part's scope did so from the start. -/
theorem Query.Starts.shares {σ : Scheme} (hk : k.Starts k') (h : k.scope.Usable k.state)
    (hσ : k.scope.Has σ) (hshares : k'.scope.Shares k'.state.store σ) :
    k.scope.Shares k.state.store σ := by
  obtain ⟨u, hreach, hfree⟩ := hshares
  have hg := (h.proper σ hσ).grounded
  have htouches := hk.touches h
  have hlink : k'.state.store.link u = none := by
    obtain ⟨_, _, hfree⟩ := hfree
    exact hfree.2.1
  have hmem := (htouches.grounded hg).mem_unbound.mpr ⟨hreach, hlink⟩
  rcases htouches.mem_unbound_cases hg hmem with ⟨hmem, -⟩ | ⟨w, hw, hfree, -⟩
  · have hlt := hg.lt_size_of_mem_unbound hmem
    rcases Query.Open.of_starts (.inl hfree) hk h with hfree | hle
    · exact ⟨u, (hg.mem_unbound.mp hmem).1, hfree⟩
    · exact absurd hlt (Nat.not_lt_of_le hle)
  · exact ⟨w, (hg.mem_unbound.mp hw).1, hfree⟩

/-- What a scheme quantifies at a level is above the level. -/
theorem Numbering.Covers.level_of_quantifies {t : Ty} {v : Nat} {ℓ : Int} (hN : N.Covers st)
    (ht : st.store.Grounded t) (hlive : ∀ v ∈ st.store.unbound t, v ∈ N.live) (hv : v ∈ N.live)
    (hq : (st.store.generalizeAt ℓ t).quantifies (N.id v) = true) :
    v < st.store.size ∧ ℓ < st.store.level v := by
  have hmem : N.id v ∈ (st.store.generalizeAt ℓ t).vars := by
    simpa [Scheme.quantifies] using hq
  obtain ⟨u, hu, hlevel, hid⟩ := mem_vars_generalizeAt.mp hmem
  have hlt := ht.lt_size_of_mem_unbound hu
  obtain rfl : u = v := N.inj (hlive u hu) hv ((hN.id_eq u hlt).symm.trans hid)
  exact ⟨hlt, hlevel⟩

/-- The scheme of a local definition quantifies nothing that is open to the body. -/
theorem Query.Tracked.not_quantifies_of_open {x : String} {e e' : Expr} {t : Ty} {v : Nat}
    (h : Query.Tracked ⟨.letIn x e e', G, st⟩ N) (he : atNextLevel (infer e G) st = .ok t st₁)
    (hv : Query.Open ⟨e', G.insert x (st₁.store.generalizeAt st₁.supply.level t), st₁⟩ v)
    (hlt : v < N.bound) :
    (st₁.store.generalizeAt st₁.supply.level t).quantifies (N.id v) = false := by
  have htracked := h.starts (.body he)
  have hinf := inferred_of_atNextLevel h.fits.toUsable he
  have hvars := (hinf.live h.fits h.live h.covers.1 htracked.covers.1).2
  by_contra hq
  obtain ⟨hlt', hlevel⟩ := htracked.covers.1.level_of_quantifies hinf.proper.grounded hvars
    (htracked.live_of_open hv hlt) (by simpa using hq)
  rcases hv with hv | hv
  · exact Int.not_lt.mpr (htracked.fits.level_le v hv) hlevel
  · exact Nat.not_lt_of_le hv hlt'

theorem Query.Tracked.uncaptured_starts (h : k.Tracked N)
    (huncaptured : k.scope.Uncaptured N k.state.store) (hk : k.Starts k') :
    k'.scope.Uncaptured N k'.state.store := by
  have hkeep : ∀ σ, k.scope.Has σ → k'.scope.Shares k'.state.store σ →
      ∀ v, k'.state.store.size ≤ v → v < N.bound → σ.quantifies (N.id v) = false :=
    fun σ hσ hshares v hv => huncaptured σ hσ (hk.shares h.fits.toUsable hσ hshares) v
      (hk.issues.1.size_le.trans hv)
  intro σ hσ hshares v hv hlt
  cases hk with
  | func | arg | value => exact hkeep σ hσ hshares v hv hlt
  | lam =>
      rcases Scope.has_insert hσ with rfl | hσ
      · rfl
      · exact hkeep σ hσ hshares v hv hlt
  | body he =>
      rcases Scope.has_insert hσ with rfl | hσ
      · exact h.not_quantifies_of_open he (.inr hv) hlt
      · exact hkeep σ hσ hshares v hv hlt

end LetPoly
