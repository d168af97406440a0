import LetPoly.Proofs.Pairing

/-! # Texts of paired types

The text of a type names its variables by the order in which their identifiers appear. Types that
answer to each other in two runs have the same text.
-/

namespace LetPoly

open Store

variable {f : Nat → Nat} {name name' : Nat → String} {s s' : Store} {t : Ty} {ts : List Ty}

theorem Ty.renderAt_rename (atomic : Bool) (h : ∀ v ∈ t.vars, name' (f v) = name v) :
    (t.rename f).renderAt name' atomic = t.renderAt name atomic := by
  induction t generalizing atomic with
  | unit | absent => rfl
  | var v => exact h v (by simp [vars])
  | arrow p r hp hr =>
      simp only [vars, List.mem_append, or_imp, forall_and] at h
      simp only [rename_arrow, renderAt, hp true h.1, hr false h.2]

theorem Ty.renderAt_congr (atomic : Bool) (h : ∀ v ∈ t.vars, name' v = name v) :
    t.renderAt name' atomic = t.renderAt name atomic := by
  have hself : t.rename id = t := t.subst_var
  have htext := renderAt_rename (f := id) atomic h
  rwa [hself] at htext

/-- Duplicates stay duplicates under an injective function, and no new ones arise. -/
theorem eraseDups_map {α β : Type} [DecidableEq α] [DecidableEq β] {g : α → β} :
    ∀ l : List α, Set.InjOn g {a | a ∈ l} → (l.map g).eraseDups = l.eraseDups.map g
  | [], _ => rfl
  | a :: l, hg => by
      have hlt : (l.filter fun b => !b == a).length < l.length + 1 :=
        Nat.lt_succ_of_le (List.length_filter_le _ _)
      have hkeep : l.filter ((fun b => !b == g a) ∘ g) = l.filter fun b => !b == a := by
        refine List.filter_congr fun b hb => ?_
        have heq : g b = g a ↔ b = a := hg.eq_iff (List.mem_cons_of_mem a hb) List.mem_cons_self
        simp [beq_eq_decide, heq]
      have hinj : Set.InjOn g {b | b ∈ l.filter fun b => !b == a} :=
        hg.mono fun b hb => List.mem_cons_of_mem a (List.mem_filter.mp hb).1
      rw [List.map_cons, List.eraseDups_cons, List.eraseDups_cons, List.map_cons, List.filter_map,
        hkeep, eraseDups_map _ hinj]
termination_by l => l.length

/-! ## Types that differ by a renaming -/

/-- Two types that are instances of each other differ by a renaming of their variables. -/
theorem Ty.exists_rename {t' : Ty} {ψ ψ' : Nat → Ty} (h : t.subst ψ = t')
    (h' : t'.subst ψ' = t) :
    ∃ f : Nat → Nat, t' = t.rename f ∧ Set.InjOn f {v | v ∈ t.vars} := by
  have hback : ∀ v ∈ t.vars, (ψ v).subst ψ' = .var v := by
    apply eq_of_subst_eq
    rw [← subst_subst, h, h', subst_var]
  have hvar : ∀ v ∈ t.vars, ∃ w, ψ v = .var w := by
    intro v hv
    have hv := hback v hv
    cases hψ : ψ v with
    | var w => exact ⟨w, rfl⟩
    | unit | absent | arrow => simp [hψ, subst] at hv
  choose! f hf using hvar
  refine ⟨f, ?_, fun u hu v hv heq => ?_⟩
  · rw [← h]
    exact subst_congr hf
  · have hu' := hback u hu
    have hv' := hback v hv
    rw [hf u hu, heq, ← hf v hv, hv'] at hu'
    exact (Ty.var.inj hu').symm

/-- A variable with an identifier of its own is counted by its own place. -/
theorem Store.idxOf_idsOf (hinj : Set.InjOn s.id {v | v ∈ s.unbound t}) {v : Nat}
    (hv : v ∈ s.unbound t) :
    (s.idsOf [t]).idxOf (s.id v) = (s.unbound t).eraseDups.idxOf v := by
  have hids : s.idsOf [t] = (s.unbound t).eraseDups.map s.id := by
    simp only [idsOf, List.flatMap_cons, List.flatMap_nil, List.append_nil]
    exact eraseDups_map _ hinj
  rw [hids]
  exact idxOf_map fun w hw hid => hinj (List.mem_eraseDups.mp hw) hv hid

theorem Store.renderTy_eq_of_rename {t' : Ty} (hinj : Set.InjOn s.id {v | v ∈ s.unbound t})
    (hinj' : Set.InjOn s'.id {v | v ∈ s'.unbound t'}) (hf : Set.InjOn f {v | v ∈ s.unbound t})
    (h : s'.resolve t' = (s.resolve t).rename f) : s'.renderTy t' = s.renderTy t := by
  have hunbound : s'.unbound t' = (s.unbound t).map f := by rw [unbound, h, Ty.vars_rename, unbound]
  rw [renderTy, renderTy, h]
  refine Ty.renderAt_rename false fun v hv => ?_
  have hv : v ∈ s.unbound t := hv
  have hfv : f v ∈ s'.unbound t' := hunbound ▸ List.mem_map_of_mem hv
  rw [nameIn, nameIn, idxOf_idsOf hinj hv, idxOf_idsOf hinj' hfv, hunbound, eraseDups_map _ hf]
  rw [idxOf_map fun w hw heq => hf (List.mem_eraseDups.mp hw) hv heq]

/-! ## Types of paired runs -/

namespace Pairing

variable {Φ : Pairing}

theorem Paired.idsOf_rename (h : Φ.Paired s s') (hts : ∀ t ∈ ts, Φ.InPlay s t) :
    s'.idsOf (ts.map (Ty.rename Φ.cell)) = (s.idsOf ts).map (· + Φ.shift) := by
  have hinj : Function.Injective (· + Φ.shift) := fun _ _ => (Int64.add_left_inj _).mp
  have hids : ((ts.map (Ty.rename Φ.cell)).flatMap s'.unbound).map s'.id =
      ((ts.flatMap s.unbound).map s.id).map (· + Φ.shift) := by
    simp only [List.map_flatMap, List.flatMap_map, List.map_map]
    refine List.flatMap_congr fun t ht => ?_
    have hplay := hts t ht
    rw [h.unbound_rename hplay.proper.grounded hplay.live, List.map_map]
    refine List.map_congr_left fun v hv => ?_
    exact h.id_eq v (hplay.active v hv) (hplay.proper.grounded.lt_size_of_mem_unbound hv)
  rw [idsOf, hids, eraseDups_map _ hinj.injOn, idsOf]

theorem Paired.render_rename (h : Φ.Paired s s') (hts : ∀ t ∈ ts, Φ.InPlay s t) (ht : t ∈ ts) :
    (s'.resolve (t.rename Φ.cell)).renderAt
        (s'.nameIn (s'.idsOf (ts.map (Ty.rename Φ.cell)))) false =
      (s.resolve t).renderAt (s.nameIn (s.idsOf ts)) false := by
  have hplay := hts t ht
  rw [h.resolve_rename hplay.proper.grounded hplay.live]
  refine Ty.renderAt_rename false fun v hv => ?_
  have hid := h.id_eq v (hplay.active v hv) (hplay.proper.grounded.lt_size_of_mem_unbound hv)
  have hidx : ((s.idsOf ts).map (· + Φ.shift)).idxOf (s.id v + Φ.shift) =
      (s.idsOf ts).idxOf (s.id v) := idxOf_map fun i _ => (Int64.add_left_inj Φ.shift).mp
  simp only [nameIn, h.idsOf_rename hts, hid, hidx]

theorem Paired.renderTys_rename (h : Φ.Paired s s') (hts : ∀ t ∈ ts, Φ.InPlay s t) :
    s'.renderTys (ts.map (Ty.rename Φ.cell)) = s.renderTys ts := by
  simp only [renderTys, List.map_map]
  exact List.map_congr_left fun t ht => h.render_rename hts ht

theorem Paired.renderTy_rename (h : Φ.Paired s s') (ht : Φ.InPlay s t) :
    s'.renderTy (t.rename Φ.cell) = s.renderTy t := by
  have hts : ∀ u ∈ [t], Φ.InPlay s u := by simpa using ht
  have hmap : [t.rename Φ.cell] = [t].map (Ty.rename Φ.cell) := rfl
  rw [renderTy, renderTy, hmap, h.render_rename hts (List.mem_singleton_self t)]

theorem Paired.renderTys_pair (h : Φ.Paired s s') {a b : Ty} (ha : Φ.InPlay s a)
    (hb : Φ.InPlay s b) :
    s'.renderTys [a.rename Φ.cell, b.rename Φ.cell] = s.renderTys [a, b] := by
  have hts : ∀ t ∈ [a, b], Φ.InPlay s t := by simp [ha, hb]
  have htexts := h.renderTys_rename hts
  rwa [List.map_cons, List.map_cons, List.map_nil] at htexts

theorem Paired.message_unify (h : Φ.Paired s s') {error : UnifyError}
    (herror : ∀ t ∈ error.types, Φ.InPlay s t) :
    (error.rename Φ.cell).message s' = error.message s := by
  cases error with
  | mismatch left right =>
      have htexts := h.renderTys_pair (herror left (by simp [UnifyError.types]))
        (herror right (by simp [UnifyError.types]))
      exact congrArg (fun texts => _ ++ String.intercalate _ texts) htexts
  | occurs v t =>
      have htexts := h.renderTys_pair (herror (.var v) (by simp [UnifyError.types]))
        (herror t (by simp [UnifyError.types]))
      exact congrArg (fun texts => _ ++ String.intercalate _ texts) htexts

/-- Failures that answer to each other have the same text. -/
theorem Paired.message_infer (h : Φ.Paired s s') {error : InferError}
    (herror : ∀ t ∈ error.types, Φ.InPlay s t) :
    (error.rename Φ.cell).message s' = error.message s := by
  cases error with
  | empty | unbound | unhandled => rfl
  | application func arg cause =>
      simp only [InferError.types, List.mem_cons, forall_eq_or_imp] at herror
      obtain ⟨hfunc, harg, hcause⟩ := herror
      exact congrArg₂ (fun texts cause => _ ++ String.intercalate _ texts ++ _ ++ cause)
        (h.renderTys_pair hfunc harg) (h.message_unify hcause)

end Pairing

end LetPoly
