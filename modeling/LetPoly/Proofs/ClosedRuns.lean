import LetPoly.Proofs.Independence
import LetPoly.Proofs.Merging
import LetPoly.Proofs.Nesting
import LetPoly.Proofs.Principality
import LetPoly.Proofs.Soundness

/-! # Runs over closed environments

The schemes of a closed environment quantify all their cells, so a run leaves them alone. Whatever
identifiers they have, a run infers a type just if the expression has one, and the type is
principal.
-/

namespace LetPoly

open Store

variable {env : Env} {G : Scope} {s : Store} {st st' : State} {e : Expr} {t τ : Ty} {σ : Scheme}
  {N : Numbering}

/-- A type of the expression of which all its types are instances. -/
structure Principal (Γ : Assumptions) (e : Expr) (t : Ty) : Prop where
  hasType : HasType Γ e t
  general : ∀ τ, HasType Γ e τ → ∃ ψ : Nat → Ty, t.subst ψ = τ

/-! ## Sealed queries -/

/-- All schemes of the scope are sealed, with an identifier for each variable. -/
structure Query.Sealed (k : Query) (N : Numbering) : Prop where
  fits : k.scope.Fits k.state
  covers : N.CoversQuery k
  seals : ∀ σ, k.scope.Has σ → k.state.store.Seals N.live σ
  distinct : ∀ σ, k.scope.Has σ →
    Set.InjOn k.state.store.id {v | v ∈ k.state.store.unbound σ.body}

namespace Query.Sealed

variable {k : Query}

theorem tracked (h : k.Sealed N) : k.Tracked N where
  fits := h.fits
  covers := h.covers
  live σ hσ := .inl ⟨h.seals σ hσ, h.distinct σ hσ⟩

theorem not_free (h : k.Sealed N) (v : Nat) : ¬ k.scope.Free k.state.store v := by
  intro hv
  obtain ⟨σ, hσ, hv⟩ := hv
  exact (h.seals σ hσ).not_free (h.fits.proper σ hσ).grounded hv

/-- A run changes nothing of what the scope stands for. -/
theorem assumptions_eq (h : Query.Sealed ⟨e, G, st⟩ N) (hrun : infer e G st = .ok t st') :
    st'.store.assumptions G = st.store.assumptions G := by
  have htouches := (infer_ok h.fits.toUsable hrun).touches
  have hpoly : ∀ σ, G.Has σ → st'.store.poly σ = (st.store.poly σ).subst .var := fun σ hσ =>
    (h.seals σ hσ).poly_eq (h.fits.proper σ hσ).grounded htouches
      (fun v hv => absurd hv (h.not_free v)) _
  rw [assumptions_eq_subst hpoly, Assumptions.subst_var]

theorem complete (h : Query.Sealed ⟨e, G, st⟩ N)
    (hτ : HasType (st.store.assumptions G) e τ) :
    ∃ t st', infer e G st = .ok t st' ∧ ∃ ψ : Nat → Ty, (st'.store.resolve t).subst ψ = τ := by
  have hmatches := matches_assumptions h.fits.proper (fun _ _ v _ _ => h.not_free v) .var
  rw [Assumptions.subst_var] at hmatches
  obtain ⟨t, st', ψ, hrun, -, ht⟩ := infer_complete hτ h.tracked hmatches
  exact ⟨t, st', hrun, ψ, ht⟩

theorem principal (h : Query.Sealed ⟨e, G, st⟩ N) (hrun : infer e G st = .ok t st') :
    Principal (st.store.assumptions G) e (st'.store.resolve t) where
  hasType := by
    rw [← h.assumptions_eq hrun]
    refine infer_hasType h.tracked (fun σ hσ => .inl ?_) hrun
    exact Query.seals_of_not_shares h.fits.proper hσ fun ⟨v, _, hv⟩ => h.not_free v hv
  general τ hτ := by
    obtain ⟨t', st₁, hrun', hψ⟩ := h.complete hτ
    rw [hrun] at hrun'
    cases hrun'
    exact hψ

/-- The value of a local definition is inferred in the same scope. -/
theorem value {x : String} {e' : Expr} (h : Query.Sealed ⟨.letIn x e e', G, st⟩ N) :
    Query.Sealed ⟨e, G, st.atLevel (st.supply.level + 1)⟩ N where
  fits := (h.tracked.starts .value).fits
  covers := (h.tracked.starts .value).covers
  seals := h.seals
  distinct := h.distinct

end Query.Sealed

/-! ## Numbering new cells -/

/-- As many new cells as there are identifiers have different ones. -/
theorem Numbered.injOn {n : Nat} {i : Int64} (h : Numbered n i st)
    (hsize : st.store.size ≤ n + 2 ^ 64) :
    Set.InjOn st.store.id {v | n ≤ v ∧ v < st.store.size} := by
  rintro u ⟨hu, hult⟩ v ⟨hv, hvlt⟩ hid
  rw [h.id_eq u hu hult, h.id_eq v hv hvlt, Int64.add_right_inj] at hid
  have hint := congrArg (fun j : Int64 => j.toInt % Int64.size) hid
  have hpow : Int64.size = 2 ^ 64 := rfl
  simp only [Int64.toInt_ofNat', Int.bmod_emod, hpow] at hint
  omega

/-- The numbering of the cells that a run makes. -/
def Numbered.numbering {n : Nat} {i : Int64} (h : Numbered n i st)
    (hsize : st.store.size ≤ n + 2 ^ 64) : Numbering where
  id := st.store.id
  live := {v | n ≤ v ∧ v < st.store.size}
  bound := st.store.size
  inj := h.injOn hsize

/-! ## Closed environments -/

/-- The environment with one cell for each identifier of a scheme. -/
def Env.merged (env : Env) (s : Store) : Env :=
  { env with scope := env.scope.map fun _ σ => s.merge σ }

/-- What the names of the environment stand for. -/
def Env.assumptions (env : Env) (s : Store) : Assumptions :=
  s.assumptions (env.merged s).scope

/-- A run over the environment infers a type for the expression. -/
def Env.Accepts (env : Env) (s : Store) (e : Expr) : Prop :=
  ∃ t st, env.inference s e false = .ok t st

/-- A run over the environment makes no more cells than there are identifiers. -/
def Env.IdsSuffice (env : Env) (s : Store) (e : Expr) : Prop :=
  (leaves (env.inference s e false)).store.size ≤ s.size + 2 ^ 64

namespace Env.Closed

variable (hclosed : env.Closed s) (henv : env.Readable s)
include hclosed henv

theorem seals (hσ : env.scope.Has σ) : s.Seals {v | s.size ≤ v} σ := by
  have hg := (henv.proper σ hσ).grounded
  refine ⟨fun v hv => Nat.not_le_of_lt (hg.lt_size_of_mem_unbound hv), fun v hv => ?_⟩
  by_contra hq
  exact hclosed v ⟨σ, hσ, (free_iff hg).mpr ⟨hv, by simpa using hq⟩⟩

theorem merges : env.scope.Merges (env.merged s).scope s {v | s.size ≤ v} := by
  intro x
  rw [Env.merged, Std.TreeMap.getElem?_map]
  cases hx : env.scope[x]? with
  | none => exact .none
  | some σ =>
      refine .some ?_
      by_cases hgeneric : σ.isGeneric = true
      · exact .inr (merges_merge hgeneric (henv.proper σ ⟨x, hx⟩) (hclosed.seals henv ⟨x, hx⟩))
      · exact .inl (if_neg hgeneric).symm

theorem has_merged (hσ : (env.merged s).scope.Has σ) :
    s.Proper σ.body ∧ s.Seals {v | s.size ≤ v} σ ∧
      Set.InjOn s.id {v | v ∈ s.unbound σ.body} := by
  obtain ⟨x, hx⟩ := hσ
  rw [Env.merged, Std.TreeMap.getElem?_map] at hx
  obtain ⟨σ₀, hσ₀, rfl⟩ := Option.map_eq_some_iff.mp hx
  have hproper := henv.proper σ₀ ⟨x, hσ₀⟩
  have hseals := hclosed.seals henv ⟨x, hσ₀⟩
  by_cases hgeneric : σ₀.isGeneric = true
  · exact ⟨(proper_merge hgeneric hproper).1, (merges_merge hgeneric hproper hseals).seals',
      injOn_merge hgeneric hproper⟩
  · -- without quantifiers there are no variables
    have hnone : ∀ v, v ∉ s.unbound σ₀.body := by
      intro v hv
      have hq := hseals.quantified v hv
      simp_all [Scheme.quantifies, Scheme.isGeneric]
    rw [merge, if_neg hgeneric]
    exact ⟨hproper, hseals, fun v hv => absurd hv (hnone v)⟩

theorem proper_merged : (env.merged s).scope.Proper s :=
  fun _ hσ => (hclosed.has_merged henv hσ).1

theorem merged : (env.merged s).Closed s := by
  intro v hv
  obtain ⟨σ, hσ, hv⟩ := hv
  obtain ⟨hproper, hseals, -⟩ := hclosed.has_merged henv hσ
  exact hseals.not_free hproper.grounded hv

theorem not_free_assumptions (v : Nat) : ¬ (env.assumptions s).Free v :=
  fun hv => hclosed.merged henv v (free_of_free_assumptions (hclosed.proper_merged henv) hv)

/-- Inference does not tell the environment from the merged one. -/
theorem infer_merged (e : Expr) (nested : Bool) :
    infer e (env.merged s).scope (env.query s e nested).state =
      infer e env.scope (env.query s e nested).state := by
  have hmerges : ((env.merged s).query s e nested).Merges env.scope {v | s.size ≤ v} := by
    refine ⟨(hclosed.proper_merged henv).usable_query e nested, fun v hv => ?_,
      hclosed.merges henv⟩
    exact hv.elim (fun hfree => absurd hfree (hclosed.merged henv v)) id
  exact (infer_merges hmerges).symm

/-- A run leaves the merged environment alone. -/
theorem sealed (hids : env.IdsSuffice s e) :
    ∃ N, ((env.merged s).query s e false).Sealed N := by
  have hrun : (env.merged s).inference s e false = env.inference s e false :=
    hclosed.infer_merged henv e false
  rw [IdsSuffice, ← hrun] at hids
  have hissues := (env.merged s).inference_issues s e false
  have hnum := hissues.numbered ((env.merged s).start_numbered s)
  have hfits : (env.merged s).scope.Fits ((env.merged s).query s e false).state :=
    ⟨(hclosed.proper_merged henv).usable_query e false,
      fun v hv => absurd hv (hclosed.merged henv v)⟩
  refine ⟨hnum.numbering hids, hfits,
    (env.merged s).covers_query rfl rfl fun _ hv hlt => ⟨hv, hlt⟩, fun σ hσ => ?_,
    fun σ hσ => (hclosed.has_merged henv hσ).2.2⟩
  obtain ⟨-, hseals, -⟩ := hclosed.has_merged henv hσ
  exact ⟨fun v hv hlive => hseals.apart v hv hlive.1, hseals.quantified⟩

/-! ## Principal types -/

theorem principal (hids : env.IdsSuffice s e) (hrun : env.inference s e false = .ok t st) :
    Principal (env.assumptions s) e (st.store.resolve t) := by
  obtain ⟨N, hsealed⟩ := hclosed.sealed henv hids
  exact hsealed.principal ((hclosed.infer_merged henv e false).trans hrun)

theorem accepts (hids : env.IdsSuffice s e) (hτ : HasType (env.assumptions s) e τ) :
    env.Accepts s e := by
  obtain ⟨N, hsealed⟩ := hclosed.sealed henv hids
  obtain ⟨t, st, hrun, -⟩ := hsealed.complete hτ
  exact ⟨t, st, (hclosed.infer_merged henv e false).symm.trans hrun⟩

/-- New cells are all that an inferred type has, and they have different identifiers. -/
theorem id_injOn (hids : env.IdsSuffice s e) (hrun : env.inference s e false = .ok t st) :
    Set.InjOn st.store.id {v | v ∈ st.store.unbound t} := by
  have hinf : Inferred env.scope (env.start s) t st := infer_ok henv.proper.usable hrun
  have hissues := env.inference_issues s e false
  rw [IdsSuffice, hrun] at hids
  rw [hrun] at hissues
  have hinj := (hissues.numbered (env.start_numbered s)).injOn hids
  refine hinj.mono fun v hv => ?_
  have hnew : s.size ≤ v := (hinf.within v hv).resolve_left (hclosed v)
  exact ⟨hnew, hinf.proper.grounded.lt_size_of_mem_unbound hv⟩

/-! ## The value of a local definition -/

/-- The value is inferred one level down as part of the definition, and on its own with the same
outcome. -/
theorem accepts_iff_nested (e : Expr) : env.Accepts s e ↔
    ∃ t st, infer e (env.merged s).scope (env.query s e true).state = .ok t st := by
  rw [hclosed.infer_merged henv e true]
  exact (Env.nesting_inStep henv (fun v hv => absurd hv (hclosed v)) e).ok_iff.symm

variable {x : String} {value body : Expr} (hids : env.IdsSuffice s (.letIn x value body))
include hids

theorem principal_value (hvalue : env.Accepts s value) :
    ∃ t, Principal (env.assumptions s) value t := by
  obtain ⟨N, hsealed⟩ := hclosed.sealed henv hids
  obtain ⟨t, st, hrun⟩ := (hclosed.accepts_iff_nested henv value).mp hvalue
  exact ⟨_, hsealed.value.principal hrun⟩

theorem accepts_value (hτ : HasType (env.assumptions s) value τ) : env.Accepts s value := by
  obtain ⟨N, hsealed⟩ := hclosed.sealed henv hids
  obtain ⟨t, st, hrun, -⟩ := hsealed.value.complete hτ
  exact (hclosed.accepts_iff_nested henv value).mpr ⟨t, st, hrun⟩

end Env.Closed

end LetPoly
