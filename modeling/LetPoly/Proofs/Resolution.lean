import LetPoly.Store
import Mathlib.Data.Finset.Card
import Mathlib.Data.Finset.Range
import Mathlib.Logic.Relation

/-! # Following links to the end

A type is grounded if its links can be followed to an end inside the store. The walks over a
grounded type never use up their budget, so that resolution obeys one equation for each form of a
type. Types over a store without circles are grounded.
-/

namespace LetPoly.Store

variable {s : Store}

/-! ## Cells that a type reaches -/

/-- The cell `v` stands in the type or behind links that start in it. -/
inductive Reaches (s : Store) : Ty → Nat → Prop where
  | here (v : Nat) : Reaches s (.var v) v
  | link {v w : Nat} {t : Ty} (hlink : s.link v = some t) (h : Reaches s t w) :
      Reaches s (.var v) w
  | param {p r : Ty} {w : Nat} (h : Reaches s p w) : Reaches s (.arrow p r) w
  | ret {p r : Ty} {w : Nat} (h : Reaches s r w) : Reaches s (.arrow p r) w

/-- Every link of the type can be followed to an end, and every end is a cell of the store. -/
inductive Grounded (s : Store) : Ty → Prop where
  | unit : Grounded s .unit
  | absent : Grounded s .absent
  | free {v : Nat} (hv : v < s.size) (hlink : s.link v = none) : Grounded s (.var v)
  | link {v : Nat} {t : Ty} (hlink : s.link v = some t) (h : Grounded s t) : Grounded s (.var v)
  | arrow {p r : Ty} (hp : Grounded s p) (hr : Grounded s r) : Grounded s (.arrow p r)

theorem lt_size_of_link {v : Nat} {t : Ty} (h : s.link v = some t) : v < s.size := by
  by_contra hv
  have hnone : s.cells[v]? = none := Array.getElem?_eq_none (Nat.le_of_not_lt hv)
  simp [link, cell, hnone] at h

theorem link_of_size_le {v : Nat} (h : s.size ≤ v) : s.link v = none := by
  cases hlink : s.link v with
  | none => rfl
  | some t => exact absurd (lt_size_of_link hlink) (Nat.not_lt_of_le h)

theorem Reaches.trans {t : Ty} {v w : Nat} (hv : s.Reaches t v) (hw : s.Reaches (.var v) w) :
    s.Reaches t w := by
  induction hv with
  | here v => exact hw
  | link hlink _ ih => exact .link hlink (ih hw)
  | param _ ih => exact .param (ih hw)
  | ret _ ih => exact .ret (ih hw)

theorem reaches_of_mem_vars {t : Ty} {v : Nat} (h : v ∈ t.vars) : s.Reaches t v := by
  induction t with
  | unit | absent => simp [Ty.vars] at h
  | var w =>
      obtain rfl : v = w := by simpa [Ty.vars] using h
      exact .here v
  | arrow p r hp hr =>
      rcases List.mem_append.mp h with h | h
      · exact .param (hp h)
      · exact .ret (hr h)

theorem reaches_var_of_free {v w : Nat} (hlink : s.link v = none) :
    s.Reaches (.var v) w ↔ w = v := by
  constructor
  · rintro (_ | ⟨h, _⟩)
    · rfl
    · simp [hlink] at h
  · rintro rfl
    exact .here w

theorem reaches_var_of_link {v w : Nat} {t : Ty} (hlink : s.link v = some t) :
    s.Reaches (.var v) w ↔ w = v ∨ s.Reaches t w := by
  constructor
  · rintro (_ | ⟨hlink', h⟩)
    · exact .inl rfl
    · rw [hlink] at hlink'
      cases hlink'
      exact .inr h
  · rintro (rfl | h)
    · exact .here w
    · exact .link hlink h

theorem reaches_arrow {p r : Ty} {w : Nat} :
    s.Reaches (.arrow p r) w ↔ s.Reaches p w ∨ s.Reaches r w := by
  constructor
  · rintro (_ | _ | h | h)
    · exact .inl h
    · exact .inr h
  · rintro (h | h)
    · exact .param h
    · exact .ret h

theorem Grounded.of_link {v : Nat} {t : Ty} (h : s.Grounded (.var v)) (hlink : s.link v = some t) :
    s.Grounded t := by
  cases h with
  | free _ hnone => simp [hnone] at hlink
  | link hlink' h =>
      rw [hlink] at hlink'
      cases hlink'
      exact h

theorem Grounded.of_reaches {t : Ty} {v : Nat} (ht : s.Grounded t) (h : s.Reaches t v) :
    s.Grounded (.var v) := by
  induction h with
  | here v => exact ht
  | link hlink _ ih => exact ih (ht.of_link hlink)
  | param _ ih =>
      cases ht with
      | arrow hp _ => exact ih hp
  | ret _ ih =>
      cases ht with
      | arrow _ hr => exact ih hr

/-- No cell that a grounded type reaches stands behind its own link. -/
theorem Grounded.not_circular {u : Ty} (hu : s.Grounded u) {v : Nat} {t : Ty}
    (hv : s.Reaches u v) (hlink : s.link v = some t) : ¬ s.Reaches t v := by
  induction hu generalizing v t with
  | unit | absent => cases hv
  | free _ hnone =>
      obtain rfl := (reaches_var_of_free hnone).mp hv
      simp [hnone] at hlink
  | link hlink' _ ih =>
      rcases (reaches_var_of_link hlink').mp hv with rfl | h
      · rw [hlink'] at hlink
        cases hlink
        intro hback
        exact ih hback hlink' hback
      · exact ih h hlink
  | arrow _ _ ihp ihr =>
      rcases reaches_arrow.mp hv with h | h
      · exact ihp h hlink
      · exact ihr h hlink

/-! ## The budget of a walk -/

/-- At most `n` links follow one another in the type. -/
inductive Within (s : Store) : Nat → Ty → Prop where
  | unit (n : Nat) : Within s n .unit
  | absent (n : Nat) : Within s n .absent
  | free (n : Nat) {v : Nat} (hlink : s.link v = none) : Within s n (.var v)
  | link {n v : Nat} {t : Ty} (hlink : s.link v = some t) (h : Within s n t) :
      Within s (n + 1) (.var v)
  | arrow {n : Nat} {p r : Ty} (hp : Within s n p) (hr : Within s n r) : Within s n (.arrow p r)

theorem Within.of_link {n v : Nat} {t : Ty} (h : s.Within n (.var v)) (hlink : s.link v = some t) :
    ∃ m, n = m + 1 ∧ s.Within m t := by
  cases h with
  | free _ hnone => simp [hnone] at hlink
  | @link m _ _ hlink' h =>
      rw [hlink] at hlink'
      cases hlink'
      exact ⟨m, rfl, h⟩

/-- The linked cells on the way to a type are different from each other, so the more of them lie
behind, the fewer can follow. -/
theorem Grounded.within_sub_card {t : Ty} (ht : s.Grounded t) (behind : Finset Nat)
    (hbehind : ∀ v ∈ behind, v < s.size ∧ ¬ s.Reaches t v) :
    s.Within (s.size - behind.card) t := by
  induction ht generalizing behind with
  | unit => exact .unit _
  | absent => exact .absent _
  | free _ hnone => exact .free _ hnone
  | @link v t hlink h ih =>
      have hnew : v ∉ behind := fun hv => (hbehind v hv).2 (.here v)
      have hcard : behind.card + 1 ≤ s.size := by
        have hsub : insert v behind ⊆ Finset.range s.size := by
          intro w hw
          rcases Finset.mem_insert.mp hw with rfl | hw
          · exact Finset.mem_range.mpr (lt_size_of_link hlink)
          · exact Finset.mem_range.mpr (hbehind w hw).1
        simpa [Finset.card_insert_of_notMem hnew] using Finset.card_le_card hsub
      have hnext : ∀ w ∈ insert v behind, w < s.size ∧ ¬ s.Reaches t w := by
        intro w hw
        rcases Finset.mem_insert.mp hw with rfl | hw
        · exact ⟨lt_size_of_link hlink, (Grounded.link hlink h).not_circular (.here w) hlink⟩
        · exact ⟨(hbehind w hw).1, fun hr => (hbehind w hw).2 (.link hlink hr)⟩
      have hrest := ih (insert v behind) hnext
      rw [Finset.card_insert_of_notMem hnew] at hrest
      have hsize : s.size - behind.card = s.size - (behind.card + 1) + 1 := by omega
      rw [hsize]
      exact .link hlink hrest
  | arrow _ _ ihp ihr =>
      refine .arrow (ihp behind fun v hv => ?_) (ihr behind fun v hv => ?_)
      · exact ⟨(hbehind v hv).1, fun h => (hbehind v hv).2 (.param h)⟩
      · exact ⟨(hbehind v hv).1, fun h => (hbehind v hv).2 (.ret h)⟩

theorem Grounded.within {t : Ty} (ht : s.Grounded t) : s.Within s.size t := by
  simpa using ht.within_sub_card ∅ (by simp)

/-! ## Resolution -/

theorem resolveUpTo_arrow (n : Nat) (p r : Ty) :
    s.resolveUpTo n (.arrow p r) = .arrow (s.resolveUpTo n p) (s.resolveUpTo n r) := by
  cases n <;> rfl

theorem resolveUpTo_of_free (n : Nat) {v : Nat} (hlink : s.link v = none) :
    s.resolveUpTo n (.var v) = .var v := by
  cases n with
  | zero => rfl
  | succ n => simp [resolveUpTo, Ty.subst, hlink]

theorem resolveUpTo_succ_of_link (n : Nat) {v : Nat} {t : Ty} (hlink : s.link v = some t) :
    s.resolveUpTo (n + 1) (.var v) = s.resolveUpTo n t := by
  simp [resolveUpTo, Ty.subst, hlink]

/-- A walk with a larger budget gives the same. -/
theorem Within.resolveUpTo_eq {n m : Nat} {t : Ty} (h : s.Within n t) (hm : n ≤ m) :
    s.resolveUpTo m t = s.resolveUpTo n t := by
  induction h generalizing m with
  | unit n | absent n => cases n <;> cases m <;> rfl
  | free n hnone => rw [resolveUpTo_of_free m hnone, resolveUpTo_of_free n hnone]
  | @link n v t hlink _ ih =>
      obtain ⟨m, rfl⟩ : ∃ k, m = k + 1 := ⟨m - 1, by omega⟩
      rw [resolveUpTo_succ_of_link m hlink, resolveUpTo_succ_of_link n hlink, ih (by omega)]
  | arrow _ _ ihp ihr => rw [resolveUpTo_arrow, resolveUpTo_arrow, ihp hm, ihr hm]

@[simp]
theorem resolve_unit : s.resolve .unit = .unit := by
  unfold resolve
  cases s.size <;> rfl

@[simp]
theorem resolve_absent : s.resolve .absent = .absent := by
  unfold resolve
  cases s.size <;> rfl

@[simp]
theorem resolve_arrow (p r : Ty) : s.resolve (.arrow p r) = .arrow (s.resolve p) (s.resolve r) :=
  resolveUpTo_arrow s.size p r

theorem resolve_of_free {v : Nat} (hlink : s.link v = none) : s.resolve (.var v) = .var v :=
  resolveUpTo_of_free s.size hlink

theorem resolve_of_link {v : Nat} {t : Ty} (hlink : s.link v = some t) (ht : s.Grounded t) :
    s.resolve (.var v) = s.resolve t := by
  obtain ⟨n, hn, hwithin⟩ := (Grounded.link hlink ht).within.of_link hlink
  unfold resolve
  rw [hn, resolveUpTo_succ_of_link n hlink, hwithin.resolveUpTo_eq (Nat.le_succ n)]

/-- Resolution leaves a type alone that has no linked variable. -/
theorem resolve_congr {s' : Store} (hsize : s'.size = s.size)
    (hlink : ∀ v, s'.link v = s.link v) (t : Ty) : s'.resolve t = s.resolve t := by
  have hupTo : ∀ n t, s'.resolveUpTo n t = s.resolveUpTo n t := by
    intro n
    induction n with
    | zero => exact fun _ => rfl
    | succ n ih => simp only [resolveUpTo, hlink, ih, implies_true]
  rw [resolve, hsize]
  exact hupTo s.size t

theorem resolve_eq_self {t : Ty} (h : ∀ v ∈ t.vars, s.link v = none) : s.resolve t = t := by
  induction t with
  | unit | absent => simp
  | var v => exact resolve_of_free (h v (by simp [Ty.vars]))
  | arrow p r hp hr =>
      rw [resolve_arrow, hp fun v hv => h v (List.mem_append_left _ hv),
        hr fun v hv => h v (List.mem_append_right _ hv)]

/-- A type over the store with no part left out. -/
structure Proper (s : Store) (t : Ty) : Prop where
  grounded : s.Grounded t
  complete : (s.resolve t).Complete

theorem proper_arrow {p r : Ty} : s.Proper (.arrow p r) ↔ s.Proper p ∧ s.Proper r := by
  constructor
  · rintro ⟨hg, hc⟩
    rw [resolve_arrow, Ty.Complete] at hc
    cases hg with
    | arrow hp hr => exact ⟨⟨hp, hc.1⟩, hr, hc.2⟩
  · rintro ⟨hp, hr⟩
    exact ⟨.arrow hp.grounded hr.grounded, by simpa [Ty.Complete] using ⟨hp.complete, hr.complete⟩⟩

theorem proper_of_free {v : Nat} (hv : v < s.size) (hlink : s.link v = none) :
    s.Proper (.var v) :=
  ⟨.free hv hlink, by simp [resolve_of_free hlink, Ty.Complete]⟩

theorem Proper.of_link {v : Nat} {t : Ty} (h : s.Proper (.var v)) (hlink : s.link v = some t) :
    s.Proper t := by
  have ht := h.grounded.of_link hlink
  exact ⟨ht, resolve_of_link hlink ht ▸ h.complete⟩

/-! ## Unbound variables -/

@[simp]
theorem unbound_unit : s.unbound .unit = [] := by simp [unbound, Ty.vars]

@[simp]
theorem unbound_absent : s.unbound .absent = [] := by simp [unbound, Ty.vars]

@[simp]
theorem unbound_arrow (p r : Ty) : s.unbound (.arrow p r) = s.unbound p ++ s.unbound r := by
  simp [unbound, Ty.vars]

theorem unbound_of_free {v : Nat} (hlink : s.link v = none) : s.unbound (.var v) = [v] := by
  simp [unbound, resolve_of_free hlink, Ty.vars]

theorem unbound_of_link {v : Nat} {t : Ty} (hlink : s.link v = some t) (ht : s.Grounded t) :
    s.unbound (.var v) = s.unbound t := by
  simp [unbound, resolve_of_link hlink ht]

/-- The unbound variables of a grounded type are the unbound cells that it reaches. -/
theorem Grounded.mem_unbound {t : Ty} (ht : s.Grounded t) {w : Nat} :
    w ∈ s.unbound t ↔ s.Reaches t w ∧ s.link w = none := by
  induction ht with
  | unit | absent =>
      constructor
      · simp
      · rintro ⟨h, -⟩
        cases h
  | free _ hnone =>
      rw [unbound_of_free hnone, reaches_var_of_free hnone, List.mem_singleton]
      constructor
      · rintro rfl
        exact ⟨rfl, hnone⟩
      · exact fun h => h.1
  | link hlink h ih =>
      rw [unbound_of_link hlink h, ih, reaches_var_of_link hlink]
      constructor
      · rintro ⟨hr, hw⟩
        exact ⟨.inr hr, hw⟩
      · rintro ⟨rfl | hr, hw⟩
        · simp [hw] at hlink
        · exact ⟨hr, hw⟩
  | arrow _ _ ihp ihr =>
      rw [unbound_arrow, List.mem_append, ihp, ihr, reaches_arrow, or_and_right]

theorem Grounded.link_of_mem_unbound {t : Ty} (ht : s.Grounded t) {w : Nat}
    (h : w ∈ s.unbound t) : s.link w = none :=
  (ht.mem_unbound.mp h).2

theorem Grounded.lt_size_of_mem_unbound {t : Ty} (ht : s.Grounded t) {w : Nat}
    (h : w ∈ s.unbound t) : w < s.size := by
  obtain ⟨hr, hw⟩ := ht.mem_unbound.mp h
  cases ht.of_reaches hr with
  | free hlt _ => exact hlt
  | link hlink _ => simp [hw] at hlink

theorem Grounded.proper_of_mem_unbound {t : Ty} (ht : s.Grounded t) {w : Nat}
    (h : w ∈ s.unbound t) : s.Proper (.var w) :=
  proper_of_free (ht.lt_size_of_mem_unbound h) (ht.link_of_mem_unbound h)

/-! ## The end of a chain -/

theorem headUpTo_of_free (n : Nat) {v : Nat} (hlink : s.link v = none) :
    s.headUpTo n (.var v) = .var v := by
  cases n with
  | zero => rfl
  | succ n => simp [headUpTo, hlink]

theorem Within.headUpTo_eq {n m : Nat} {t : Ty} (h : s.Within n t) (hm : n ≤ m) :
    s.headUpTo m t = s.headUpTo n t := by
  induction h generalizing m with
  | unit n | absent n | arrow => simp [headUpTo]
  | free n hnone => rw [headUpTo_of_free m hnone, headUpTo_of_free n hnone]
  | @link n v t hlink _ ih =>
      obtain ⟨m, rfl⟩ : ∃ k, m = k + 1 := ⟨m - 1, by omega⟩
      simp only [headUpTo, hlink]
      exact ih (by omega)

theorem head_of_link {v : Nat} {t : Ty} (hlink : s.link v = some t) (ht : s.Grounded t) :
    s.head (.var v) = s.head t := by
  obtain ⟨n, hn, hwithin⟩ := (Grounded.link hlink ht).within.of_link hlink
  unfold head
  rw [hn]
  simp only [headUpTo, hlink]
  exact (hwithin.headUpTo_eq (Nat.le_succ n)).symm

/-- The end of a chain is what the chain stands for, and is not itself linked. -/
structure IsHead (s : Store) (t h : Ty) : Prop where
  grounded : s.Grounded h
  resolve_eq : s.resolve h = s.resolve t
  free : ∀ v, h = .var v → s.link v = none

theorem isHead_self {t : Ty} (ht : s.Grounded t) (hvar : ∀ v, t ≠ .var v) :
    s.IsHead t (s.head t) := by
  have hhead : s.head t = t := by
    unfold head
    cases t with
    | var v => exact absurd rfl (hvar v)
    | unit | arrow | absent => simp [headUpTo]
  rw [hhead]
  exact ⟨ht, rfl, fun v hv => absurd hv (hvar v)⟩

theorem Grounded.isHead {t : Ty} (ht : s.Grounded t) : s.IsHead t (s.head t) := by
  induction ht with
  | unit => exact isHead_self .unit (by simp)
  | absent => exact isHead_self .absent (by simp)
  | @free v hv hnone =>
      have hhead : s.head (.var v) = .var v := headUpTo_of_free s.size hnone
      rw [hhead]
      refine ⟨.free hv hnone, rfl, ?_⟩
      rintro w ⟨⟩
      exact hnone
  | link hlink h ih =>
      rw [head_of_link hlink h]
      exact ⟨ih.grounded, ih.resolve_eq.trans (resolve_of_link hlink h).symm, ih.free⟩
  | arrow hp hr _ _ => exact isHead_self (.arrow hp hr) (by simp)

theorem IsHead.eq_var {t h : Ty} (hh : s.IsHead t h) {v : Nat} (hv : s.resolve h = .var v) :
    h = .var v := by
  cases h with
  | unit | absent | arrow => simp at hv
  | var w => rwa [resolve_of_free (hh.free w rfl)] at hv

theorem Proper.head {t : Ty} (ht : s.Proper t) : s.Proper (s.head t) :=
  ⟨ht.grounded.isHead.grounded, ht.grounded.isHead.resolve_eq ▸ ht.complete⟩

/-! ## Stores without circles -/

/-- The cell `w` stands in the type that `v` is linked to. -/
def Points (s : Store) (v w : Nat) : Prop :=
  ∃ t, s.link v = some t ∧ w ∈ t.vars

/-- No cell comes back to itself along links. -/
def Acyclic (s : Store) : Prop :=
  ∀ v, ¬ Relation.TransGen s.Points v v

/-- Links lead only to cells of the store. -/
def Closed (s : Store) : Prop :=
  ∀ v w, s.Points v w → w < s.size

theorem exists_reaches_of_transGen {v w : Nat} (h : Relation.TransGen s.Points v w) :
    ∃ t, s.link v = some t ∧ s.Reaches t w := by
  induction h using Relation.TransGen.head_induction_on with
  | single h =>
      obtain ⟨t, hlink, hw⟩ := h
      exact ⟨t, hlink, reaches_of_mem_vars hw⟩
  | head h _ ih =>
      obtain ⟨t, hlink, hmem⟩ := h
      obtain ⟨u, hlink', hr⟩ := ih
      exact ⟨t, hlink, (reaches_of_mem_vars hmem).trans (.link hlink' hr)⟩

theorem grounded_of_vars {t : Ty} (h : ∀ v ∈ t.vars, s.Grounded (.var v)) : s.Grounded t := by
  induction t with
  | unit => exact .unit
  | absent => exact .absent
  | var v => exact h v (by simp [Ty.vars])
  | arrow p r hp hr =>
      refine .arrow (hp fun v hv => h v ?_) (hr fun v hv => h v ?_)
      · exact List.mem_append_left _ hv
      · exact List.mem_append_right _ hv

/-- Without a circle among the cells that it reaches, a cell is grounded. The induction is on the
number of cells that do not lie behind. -/
theorem grounded_var_of_no_circle (n : Nat) (behind : Finset Nat)
    (hn : s.size ≤ n + behind.card) (hlt : ∀ w ∈ behind, w < s.size) (v : Nat)
    (hbehind : ∀ w ∈ behind, Relation.TransGen s.Points w v)
    (h : ∀ w, s.Reaches (.var v) w → w < s.size ∧ ¬ Relation.TransGen s.Points w w) :
    s.Grounded (.var v) := by
  induction n generalizing behind v with
  | zero =>
      have hv := h v (.here v)
      have hall : behind = Finset.range s.size := by
        apply Finset.eq_of_subset_of_card_le
        · exact fun w hw => Finset.mem_range.mpr (hlt w hw)
        · simpa using hn
      have hmem : v ∈ behind := hall ▸ Finset.mem_range.mpr hv.1
      exact absurd (hbehind v hmem) hv.2
  | succ n ih =>
      have hv := h v (.here v)
      have hnew : v ∉ behind := fun hmem => hv.2 (hbehind v hmem)
      cases hlink : s.link v with
      | none => exact .free hv.1 hlink
      | some u =>
          refine .link hlink (grounded_of_vars fun w hw => ih (insert v behind) ?_ ?_ w ?_ ?_)
          · rw [Finset.card_insert_of_notMem hnew]
            omega
          · intro x hx
            rcases Finset.mem_insert.mp hx with rfl | hx
            · exact hv.1
            · exact hlt x hx
          · intro x hx
            rcases Finset.mem_insert.mp hx with rfl | hx
            · exact .single ⟨u, hlink, hw⟩
            · exact (hbehind x hx).tail ⟨u, hlink, hw⟩
          · exact fun x hx => h x (.link hlink ((reaches_of_mem_vars hw).trans hx))

theorem grounded_of_no_circle {t : Ty}
    (h : ∀ v, s.Reaches t v → v < s.size ∧ ¬ Relation.TransGen s.Points v v) : s.Grounded t := by
  refine grounded_of_vars fun v hv => ?_
  refine grounded_var_of_no_circle s.size ∅ (by simp) (by simp) v (by simp) fun w hw => ?_
  exact h w ((reaches_of_mem_vars hv).trans hw)

theorem Closed.lt_size_of_reaches (hs : s.Closed) {t : Ty} (ht : ∀ v ∈ t.vars, v < s.size)
    {w : Nat} (h : s.Reaches t w) : w < s.size := by
  induction h with
  | here v => exact ht v (by simp [Ty.vars])
  | link hlink _ ih => exact ih fun v hv => hs _ v ⟨_, hlink, hv⟩
  | param _ ih => exact ih fun v hv => ht v (List.mem_append_left _ hv)
  | ret _ ih => exact ih fun v hv => ht v (List.mem_append_right _ hv)

theorem Acyclic.grounded (hs : s.Acyclic) (hclosed : s.Closed) {t : Ty}
    (ht : ∀ v ∈ t.vars, v < s.size) : s.Grounded t :=
  grounded_of_no_circle fun v hv => ⟨hclosed.lt_size_of_reaches ht hv, hs v⟩

theorem acyclic_of_grounded (h : ∀ v < s.size, s.Grounded (.var v)) : s.Acyclic := by
  intro v hv
  obtain ⟨t, hlink, hback⟩ := exists_reaches_of_transGen hv
  exact (h v (lt_size_of_link hlink)).not_circular (.here v) hlink hback

end LetPoly.Store
