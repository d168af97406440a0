import LetPoly.Proofs.MostGeneral
import LetPoly.Proofs.Numbering
import Mathlib.Data.Set.Function

/-! # Two stores in step

Two runs of inference may start from different stores or at different levels and still do the same
work. A pairing says which cell of the second run answers to a cell of the first one. Paired stores
have the same links, and unification keeps them paired.
-/

namespace LetPoly

open Store

variable {f : Nat → Nat} {s s' s₁ s₁' : Store} {a b p r t : Ty} {v w : Nat} {A : Set Nat}

/-! ## Renamed failures -/

/-- The types that a failure of unification is about. -/
def UnifyError.types : UnifyError → List Ty
  | mismatch left right => [left, right]
  | occurs v t => [.var v, t]

/-- Rename the variables of a failure. -/
def UnifyError.rename (f : Nat → Nat) : UnifyError → UnifyError
  | mismatch left right => .mismatch (left.rename f) (right.rename f)
  | occurs v t => .occurs (f v) (t.rename f)

/-- The types that a failure of inference is about. -/
def InferError.types : InferError → List Ty
  | empty | unbound _ | unhandled _ => []
  | application func arg cause => func :: arg :: cause.types

/-- Rename the variables of a failure. -/
def InferError.rename (f : Nat → Nat) : InferError → InferError
  | empty => .empty
  | unbound x => .unbound x
  | unhandled form => .unhandled form
  | application func arg cause => .application (func.rename f) (arg.rename f) (cause.rename f)

/-! ## Lists and stores -/

theorem idxOf_map {α β : Type} [DecidableEq α] [DecidableEq β] {f : α → β} {l : List α} {a : α}
    (h : ∀ b ∈ l, f b = f a → b = a) : (l.map f).idxOf (f a) = l.idxOf a := by
  induction l with
  | nil => rfl
  | cons b l ih =>
      have hb : f b = f a ↔ b = a := ⟨h b (by simp), congrArg f⟩
      have htail := ih fun c hc => h c (List.mem_cons_of_mem b hc)
      simp [List.idxOf_cons, hb, htail, beq_eq_decide]

theorem Store.level_lowerAll {vs : List Nat} {ℓ : Int} (hv : v < s.size) :
    (s.lowerAll vs ℓ).level v = if v ∈ vs then min (s.level v) ℓ else s.level v := by
  rw [Store.level, cell_lowerAll]
  by_cases hmem : v ∈ vs <;> simp [hmem, hv, Store.level]

theorem Store.Linkable.id_eq (h : s.Linkable v t) (w : Nat) : (s.linked v t).id w = s.id w := by
  by_cases hw : w = v
  · subst hw
    simp [Store.id, h.cell_linked]
  · by_cases hmem : w ∈ s.unbound t <;> simp [Store.id, h.cell_linked, hw, hmem]

/-! ## Pairings -/

/-- The cell that takes the place of `v` in a run that starts with `first'` cells and not with
`first` ones. -/
def twin (first first' v : Nat) : Nat :=
  if v < first then v else first' + (v - first)

/-- How a second run answers to a first one. -/
structure Pairing where
  /-- The number of cells at the start of the first run, and of the second one. -/
  first : Nat
  first' : Nat
  /-- The cells of the first run that there are in the second one. -/
  live : Set Nat
  /-- Those that the runs work on. -/
  active : Set Nat
  /-- The difference between the identifiers of such cells. -/
  shift : Int64
  /-- The level in the second run for a level of the first one, which goes on from `base`. -/
  level : Int → Int
  base : Int
  active_live : active ⊆ live
  new_active : ∀ v, first ≤ v → v ∈ active
  lt_first : ∀ v ∈ live, v < first → v < first'
  level_mono : ∀ ℓ m, ℓ ≤ m → level ℓ ≤ level m
  level_succ : ∀ ℓ, base ≤ ℓ → level (ℓ + 1) = level ℓ + 1

namespace Pairing

variable {Φ : Pairing}

/-- The cell of the second run for a cell of the first one. -/
def cell (Φ : Pairing) (v : Nat) : Nat :=
  twin Φ.first Φ.first' v

theorem cell_of_le (h : Φ.first ≤ v) : Φ.cell v = Φ.first' + (v - Φ.first) :=
  if_neg (Nat.not_lt_of_le h)

theorem cell_succ (h : Φ.first ≤ v) : Φ.cell (v + 1) = Φ.cell v + 1 := by
  rw [cell_of_le h, cell_of_le (Nat.le_succ_of_le h)]
  omega

theorem cell_injOn (Φ : Pairing) : Set.InjOn Φ.cell Φ.live := by
  intro v hv w hw h
  have hv' := Φ.lt_first v hv
  have hw' := Φ.lt_first w hw
  unfold cell twin at h
  split at h <;> split at h <;> omega

theorem cell_lt_iff (hv : v ∈ Φ.live) {n : Nat} (hn : Φ.first ≤ n) :
    Φ.cell v < Φ.cell n ↔ v < n := by
  have hv' := Φ.lt_first v hv
  rw [cell_of_le hn]
  unfold cell twin
  split <;> omega

theorem mem_map_cell {vs : List Nat} (hvs : ∀ w ∈ vs, w ∈ Φ.live) (hv : v ∈ Φ.live) :
    Φ.cell v ∈ vs.map Φ.cell ↔ v ∈ vs := by
  constructor
  · intro hmem
    obtain ⟨w, hw, heq⟩ := List.mem_map.mp hmem
    rwa [← Φ.cell_injOn (hvs w hw) hv heq]
  · exact List.mem_map_of_mem

theorem level_min (Φ : Pairing) (ℓ m : Int) : Φ.level (min ℓ m) = min (Φ.level ℓ) (Φ.level m) := by
  rcases Int.le_total ℓ m with hle | hle
  · rw [Int.min_eq_left hle, Int.min_eq_left (Φ.level_mono ℓ m hle)]
  · rw [Int.min_eq_right hle, Int.min_eq_right (Φ.level_mono m ℓ hle)]

/-- All variables of the type are there in the second run. -/
def Live (Φ : Pairing) (t : Ty) : Prop :=
  ∀ v ∈ t.vars, v ∈ Φ.live

theorem live_var : Φ.Live (.var v) ↔ v ∈ Φ.live := by
  simp [Live, Ty.vars]

theorem live_arrow : Φ.Live (.arrow p r) ↔ Φ.Live p ∧ Φ.Live r := by
  simp only [Live, Ty.vars, List.mem_append, or_imp, forall_and]

theorem rename_eq_var (ht : Φ.Live t) (hv : v ∈ Φ.live) :
    t.rename Φ.cell = .var (Φ.cell v) ↔ t = .var v := by
  cases t with
  | unit | absent | arrow => simp
  | var w =>
      have hinj : Φ.cell w = Φ.cell v → w = v := Φ.cell_injOn (live_var.mp ht) hv
      simp only [Ty.rename_var, Ty.var.injEq]
      exact ⟨hinj, congrArg Φ.cell⟩

/-- A type that both runs can work on. -/
structure InPlay (Φ : Pairing) (s : Store) (t : Ty) : Prop where
  proper : s.Proper t
  live : Φ.Live t
  active : ∀ v ∈ s.unbound t, v ∈ Φ.active

theorem inPlay_unit : Φ.InPlay s .unit :=
  ⟨⟨.unit, by simp [Ty.Complete]⟩, by simp [Live, Ty.vars], by simp⟩

theorem inPlay_of_free (hv : v ∈ Φ.active) (hlt : v < s.size) (hfree : s.link v = none) :
    Φ.InPlay s (.var v) :=
  ⟨proper_of_free hlt hfree, live_var.mpr (Φ.active_live hv), by simpa [unbound_of_free hfree]⟩

theorem inPlay_arrow : Φ.InPlay s (.arrow p r) ↔ Φ.InPlay s p ∧ Φ.InPlay s r := by
  constructor
  · rintro ⟨hproper, hlive, hactive⟩
    rw [proper_arrow] at hproper
    rw [live_arrow] at hlive
    simp only [unbound_arrow, List.mem_append, or_imp, forall_and] at hactive
    exact ⟨⟨hproper.1, hlive.1, hactive.1⟩, hproper.2, hlive.2, hactive.2⟩
  · rintro ⟨hp, hr⟩
    refine ⟨proper_arrow.mpr ⟨hp.proper, hr.proper⟩, live_arrow.mpr ⟨hp.live, hr.live⟩, ?_⟩
    simp only [unbound_arrow, List.mem_append, or_imp, forall_and]
    exact ⟨hp.active, hr.active⟩

/-- Work on cells that both runs work on leaves a type in play. -/
theorem InPlay.touches (h : Φ.InPlay s t) (ht : s.Touches s₁ A) (hA : A ⊆ Φ.active)
    (hfirst : Φ.first ≤ s.size) : Φ.InPlay s₁ t where
  proper := ht.proper h.proper
  live := h.live
  active v hv := by
    rcases ht.mem_unbound_cases h.proper.grounded hv with ⟨hv, -⟩ | ⟨u, -, hu, hv⟩
    · exact h.active v hv
    · rcases ht.reach u hu v hv with hv | hv
      · exact hA hv
      · exact Φ.new_active v (hfirst.trans hv)

/-! ## Paired stores -/

/-- The cells of the second store answer to those of the first one. -/
structure Paired (Φ : Pairing) (s s' : Store) : Prop where
  first_le : Φ.first ≤ s.size
  size_eq : s'.size = Φ.cell s.size
  link_eq : ∀ v ∈ Φ.live, s'.link (Φ.cell v) = (s.link v).map (Ty.rename Φ.cell)
  live_link : ∀ v ∈ Φ.live, ∀ t, s.link v = some t → Φ.Live t
  id_eq : ∀ v ∈ Φ.active, v < s.size → s'.id (Φ.cell v) = s.id v + Φ.shift
  level_eq : ∀ v ∈ Φ.active, v < s.size → s'.level (Φ.cell v) = Φ.level (s.level v)

namespace Paired

theorem cell_lt (h : Φ.Paired s s') (hv : v ∈ Φ.live) : Φ.cell v < s'.size ↔ v < s.size := by
  rw [h.size_eq]
  exact cell_lt_iff hv h.first_le

theorem link_none (h : Φ.Paired s s') (hv : v ∈ Φ.live) (hfree : s.link v = none) :
    s'.link (Φ.cell v) = none := by
  rw [h.link_eq v hv, hfree]
  rfl

theorem link_some (h : Φ.Paired s s') (hv : v ∈ Φ.live) (hlink : s.link v = some t) :
    s'.link (Φ.cell v) = some (t.rename Φ.cell) := by
  rw [h.link_eq v hv, hlink]
  rfl

theorem grounded (h : Φ.Paired s s') (ht : s.Grounded t) (hlive : Φ.Live t) :
    s'.Grounded (t.rename Φ.cell) := by
  induction ht with
  | unit => exact .unit
  | absent => exact .absent
  | free hv hnone =>
      rw [live_var] at hlive
      exact .free ((h.cell_lt hlive).mpr hv) (h.link_none hlive hnone)
  | link hlink _ ih =>
      rw [live_var] at hlive
      exact .link (h.link_some hlive hlink) (ih (h.live_link _ hlive _ hlink))
  | arrow _ _ ihp ihr =>
      rw [live_arrow] at hlive
      exact .arrow (ihp hlive.1) (ihr hlive.2)

theorem resolve_rename (h : Φ.Paired s s') (ht : s.Grounded t) (hlive : Φ.Live t) :
    s'.resolve (t.rename Φ.cell) = (s.resolve t).rename Φ.cell := by
  induction ht with
  | unit | absent => simp
  | free _ hnone =>
      rw [live_var] at hlive
      rw [resolve_of_free hnone, Ty.rename_var, resolve_of_free (h.link_none hlive hnone)]
  | link hlink ht ih =>
      rw [live_var] at hlive
      have hlive' := h.live_link _ hlive _ hlink
      rw [resolve_of_link hlink ht, Ty.rename_var,
        resolve_of_link (h.link_some hlive hlink) (h.grounded ht hlive'), ih hlive']
  | arrow _ _ ihp ihr =>
      rw [live_arrow] at hlive
      simp only [Ty.rename_arrow, resolve_arrow, ihp hlive.1, ihr hlive.2]

theorem unbound_rename (h : Φ.Paired s s') (ht : s.Grounded t) (hlive : Φ.Live t) :
    s'.unbound (t.rename Φ.cell) = (s.unbound t).map Φ.cell := by
  rw [unbound, h.resolve_rename ht hlive, Ty.vars_rename, unbound]

theorem live_resolve (h : Φ.Paired s s') (ht : s.Grounded t) (hlive : Φ.Live t) :
    Φ.Live (s.resolve t) := by
  induction ht with
  | unit | absent => simp [Live, Ty.vars]
  | free _ hnone => rwa [resolve_of_free hnone]
  | link hlink ht ih =>
      rw [resolve_of_link hlink ht]
      exact ih (h.live_link _ (live_var.mp hlive) _ hlink)
  | arrow _ _ ihp ihr =>
      rw [live_arrow] at hlive
      rw [resolve_arrow, live_arrow]
      exact ⟨ihp hlive.1, ihr hlive.2⟩

theorem proper (h : Φ.Paired s s') (ht : s.Proper t) (hlive : Φ.Live t) :
    s'.Proper (t.rename Φ.cell) :=
  ⟨h.grounded ht.grounded hlive,
    by rw [h.resolve_rename ht.grounded hlive, Ty.complete_rename]; exact ht.complete⟩

theorem head_rename (h : Φ.Paired s s') (ht : s.Grounded t) (hlive : Φ.Live t) :
    s'.head (t.rename Φ.cell) = (s.head t).rename Φ.cell ∧ Φ.Live (s.head t) := by
  induction ht with
  | unit | absent | arrow => simpa [head, headUpTo] using hlive
  | free _ hnone =>
      have hfree := h.link_none (live_var.mp hlive) hnone
      simpa [head, headUpTo_of_free _ hnone, headUpTo_of_free _ hfree] using hlive
  | link hlink ht ih =>
      rw [live_var] at hlive
      have hlive' := h.live_link _ hlive _ hlink
      rw [Ty.rename_var, head_of_link hlink ht,
        head_of_link (h.link_some hlive hlink) (h.grounded ht hlive')]
      exact ih hlive'

end Paired

theorem InPlay.of_link (h : Φ.InPlay s (.var v)) (hs : Φ.Paired s s') (hlink : s.link v = some t) :
    Φ.InPlay s t where
  proper := h.proper.of_link hlink
  live := hs.live_link v (live_var.mp h.live) t hlink
  active := by
    rw [← unbound_of_link hlink (h.proper.grounded.of_link hlink)]
    exact h.active

theorem InPlay.head (h : Φ.InPlay s t) (hs : Φ.Paired s s') : Φ.InPlay s (s.head t) where
  proper := h.proper.head
  live := (hs.head_rename h.proper.grounded h.live).2
  active := by
    rw [unbound, h.proper.grounded.isHead.resolve_eq]
    exact h.active

theorem InPlay.active_of_head (h : Φ.InPlay s t) (hs : Φ.Paired s s') (hhead : s.head t = .var v) :
    v ∈ Φ.active ∧ v < s.size ∧ s.link v = none := by
  have hfree : s.link v = none := h.proper.grounded.isHead.free v hhead
  have hplay := h.head hs
  rw [hhead] at hplay
  have hmem : v ∈ s.unbound (.var v) := by simp [unbound_of_free hfree]
  exact ⟨hplay.active v hmem, hplay.proper.grounded.lt_size_of_mem_unbound hmem, hfree⟩

/-! ## Allocation, lowering and linking -/

namespace Paired

theorem cell_size (h : Φ.Paired s s') : Φ.cell s.size = s'.size :=
  h.size_eq.symm

theorem alloc (h : Φ.Paired s s') (i : Int64) (ℓ : Int) :
    Φ.Paired (s.alloc i ℓ) (s'.alloc (i + Φ.shift) (Φ.level ℓ)) := by
  have hcell : ∀ v ∈ Φ.active, v < (s.alloc i ℓ).size →
      v = s.size ∧ Φ.cell v = s'.size ∨ v < s.size ∧ v ≠ s.size ∧ Φ.cell v ≠ s'.size := by
    intro v hv hlt
    rw [size_alloc] at hlt
    by_cases hvs : v = s.size
    · exact .inl ⟨hvs, hvs ▸ h.cell_size⟩
    · have hvlt : v < s.size := by omega
      exact .inr ⟨hvlt, hvs, Nat.ne_of_lt ((h.cell_lt (Φ.active_live hv)).mpr hvlt)⟩
  refine ⟨?_, ?_, ?_, ?_, ?_, ?_⟩
  · rw [size_alloc]
    exact Nat.le_succ_of_le h.first_le
  · rw [size_alloc, size_alloc, h.size_eq, cell_succ h.first_le]
  · intro v hv
    rw [link_alloc, link_alloc]
    exact h.link_eq v hv
  · intro v hv t
    rw [link_alloc]
    exact h.live_link v hv t
  · intro v hv hlt
    rcases hcell v hv hlt with ⟨rfl, hcell⟩ | ⟨hlt, hne, hne'⟩
    · simp [hcell, Store.id]
    · simpa [Store.id, cell_alloc_of_ne, hne, hne'] using h.id_eq v hv hlt
  · intro v hv hlt
    rcases hcell v hv hlt with ⟨rfl, hcell⟩ | ⟨hlt, hne, hne'⟩
    · simp [hcell, Store.level]
    · simpa [Store.level, cell_alloc_of_ne, hne, hne'] using h.level_eq v hv hlt

theorem lowerAll (h : Φ.Paired s s') {vs : List Nat} (hvs : ∀ v ∈ vs, v ∈ Φ.active) (ℓ : Int) :
    Φ.Paired (s.lowerAll vs ℓ) (s'.lowerAll (vs.map Φ.cell) (Φ.level ℓ)) where
  first_le := by simpa using h.first_le
  size_eq := by simpa using h.size_eq
  link_eq v hv := by simpa [link_lowerAll] using h.link_eq v hv
  live_link v hv t := by simpa [link_lowerAll] using h.live_link v hv t
  id_eq v hv hlt := by
    rw [size_lowerAll] at hlt
    rw [(s.sameIds_lowerAll vs ℓ).id_eq, (s'.sameIds_lowerAll _ _).id_eq, h.id_eq v hv hlt]
  level_eq v hv hlt := by
    rw [size_lowerAll] at hlt
    have hlive := Φ.active_live hv
    have hmem := mem_map_cell (fun w hw => Φ.active_live (hvs w hw)) hlive
    rw [level_lowerAll hlt, level_lowerAll ((h.cell_lt hlive).mpr hlt), h.level_eq v hv hlt]
    simp only [hmem]
    split
    · exact (Φ.level_min _ _).symm
    · rfl

theorem linkable (h : Φ.Paired s s') (hv : v ∈ Φ.active) (ht : Φ.InPlay s t)
    (hlink : s.Linkable v t) : s'.Linkable (Φ.cell v) (t.rename Φ.cell) where
  lt := (h.cell_lt (Φ.active_live hv)).mpr hlink.lt
  free := h.link_none (Φ.active_live hv) hlink.free
  grounded := h.grounded hlink.grounded ht.live
  apart := by
    rw [h.unbound_rename hlink.grounded ht.live,
      mem_map_cell (fun w hw => Φ.active_live (ht.active w hw)) (Φ.active_live hv)]
    exact hlink.apart

theorem linked (h : Φ.Paired s s') (hv : v ∈ Φ.active) (ht : Φ.InPlay s t)
    (hlink : s.Linkable v t) :
    Φ.Paired (s.linked v t) (s'.linked (Φ.cell v) (t.rename Φ.cell)) := by
  have hlink' := h.linkable hv ht hlink
  have hne : ∀ w ∈ Φ.live, w ≠ v → Φ.cell w ≠ Φ.cell v := fun w hw hwv heq =>
    hwv (Φ.cell_injOn hw (Φ.active_live hv) heq)
  refine ⟨by simpa using h.first_le, by simpa using h.size_eq, ?_, ?_, ?_, ?_⟩
  · intro w hw
    by_cases hwv : w = v
    · rw [hwv, hlink'.link_self, hlink.link_self]
      rfl
    · rw [hlink'.link_of_ne (hne w hw hwv), hlink.link_of_ne hwv, h.link_eq w hw]
  · intro w hw u hu
    by_cases hwv : w = v
    · rw [hwv, hlink.link_self] at hu
      cases hu
      exact ht.live
    · rw [hlink.link_of_ne hwv] at hu
      exact h.live_link w hw u hu
  · intro w hw hlt
    rw [size_linked] at hlt
    have hlt' := (h.cell_lt (Φ.active_live hw)).mpr hlt
    rw [hlink.id_eq, hlink'.id_eq, h.id_eq w hw hlt]
  · intro w hw hlt
    rw [size_linked] at hlt
    have hmem := mem_map_cell (fun u hu => Φ.active_live (ht.active u hu)) (Φ.active_live hw)
    rw [hlink.level_eq, hlink'.level_eq, h.unbound_rename hlink.grounded ht.live,
      h.level_eq w hw hlt, h.level_eq v hv hlink.lt]
    simp only [hmem]
    split
    · exact (Φ.level_min _ _).symm
    · rfl

end Paired

end Pairing

end LetPoly
