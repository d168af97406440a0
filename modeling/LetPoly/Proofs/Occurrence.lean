import LetPoly.Proofs.Levels

/-! # The occurs check

The check for a variable in a type lowers levels on its way. It goes from left to right, through
links, and ends where it finds the variable: what stands only behind that place keeps its level.
-/

namespace LetPoly

/-! ## Up to the first occurrence -/

section Lists

variable {α : Type} [BEq α] [LawfulBEq α] {a : α} {xs ys : List α}

theorem take_idxOf_of_not_mem (h : a ∉ xs) : xs.take (xs.idxOf a + 1) = xs := by
  rw [List.idxOf_eq_length h]
  exact List.take_of_length_le (Nat.le_succ _)

theorem take_idxOf_append_of_mem (h : a ∈ xs) :
    (xs ++ ys).take ((xs ++ ys).idxOf a + 1) = xs.take (xs.idxOf a + 1) := by
  rw [List.idxOf_append_of_mem h]
  exact List.take_append_of_le_length (List.idxOf_lt_length_of_mem h)

theorem take_idxOf_append_of_not_mem (h : a ∉ xs) :
    (xs ++ ys).take ((xs ++ ys).idxOf a + 1) = xs ++ ys.take (ys.idxOf a + 1) := by
  rw [List.idxOf_append_of_notMem h, Nat.add_assoc, List.take_length_add_append]

end Lists

namespace Store

variable {s : Store} {t : Ty} {v c : Nat} {level : Int}

/-! ## One step of the walk -/

@[simp]
theorem adjust_unit : s.adjust v level .unit = (false, s) := by
  simp [adjust, lowerAll]

@[simp]
theorem adjust_absent : s.adjust v level .absent = (false, s) := by
  simp [adjust, lowerAll]

theorem adjust_of_free {w : Nat} (hlink : s.link w = none) :
    s.adjust v level (.var w) = (w == v, s.lower w level) := by
  have htake : [w].take ([w].idxOf v + 1) = [w] := List.take_of_length_le (by simp)
  have hfound : [w].contains v = (w == v) := by simp [beq_eq_decide, eq_comm]
  rw [adjust, unbound_of_free hlink, htake, hfound]
  rfl

theorem adjust_of_link {w : Nat} (hlink : s.link w = some t) (ht : s.Grounded t) :
    s.adjust v level (.var w) = s.adjust v level t := by
  rw [adjust, unbound_of_link hlink ht, adjust]

/-- The result of a function type is searched in the store that the search of the parameter leaves,
and only if nothing was found there. -/
theorem adjust_arrow (p r : Ty) :
    s.adjust v level (.arrow p r) =
      if (s.adjust v level p).1 then s.adjust v level p
      else (s.adjust v level p).2.adjust v level r := by
  by_cases hmem : v ∈ s.unbound p
  · have hfound : (s.adjust v level p).1 = true := by simp [adjust, hmem]
    rw [if_pos hfound, adjust, adjust, unbound_arrow, take_idxOf_append_of_mem hmem]
    simp [hmem]
  · have hparam : s.adjust v level p = (false, s.lowerAll (s.unbound p) level) := by
      rw [adjust, take_idxOf_of_not_mem hmem]
      simp [hmem]
    have hret : (s.lowerAll (s.unbound p) level).unbound r = s.unbound r :=
      congrArg Ty.vars (resolve_lowerAll (s.unbound p) level r)
    rw [hparam, if_neg Bool.false_ne_true, adjust, adjust, hret, unbound_arrow,
      take_idxOf_append_of_not_mem hmem, lowerAll, List.foldl_append]
    simp [lowerAll, hmem]

/-! ## All that the walk meets -/

/-- The walk over a type in search of `v` meets the unbound cell: it enters the result of a function
type only if `v` does not occur in the parameter. -/
inductive Met (s : Store) (v : Nat) : Ty → Nat → Prop where
  | here {c : Nat} (hfree : s.link c = none) : Met s v (.var c) c
  | link {w c : Nat} {t : Ty} (hlink : s.link w = some t) (h : Met s v t c) : Met s v (.var w) c
  | param {p r : Ty} {c : Nat} (h : Met s v p c) : Met s v (.arrow p r) c
  | ret {p r : Ty} {c : Nat} (hp : ¬ s.Reaches p v) (h : Met s v r c) : Met s v (.arrow p r) c

theorem met_of_free {w : Nat} (hfree : s.link w = none) : s.Met v (.var w) c ↔ c = w := by
  constructor
  · rintro (_ | ⟨hlink, _⟩)
    · rfl
    · simp [hfree] at hlink
  · rintro rfl
    exact .here hfree

theorem met_of_link {w : Nat} (hlink : s.link w = some t) : s.Met v (.var w) c ↔ s.Met v t c := by
  constructor
  · rintro (hfree | ⟨hlink', h⟩)
    · simp [hlink] at hfree
    · rw [hlink] at hlink'
      cases hlink'
      exact h
  · exact .link hlink

theorem met_arrow {p r : Ty} :
    s.Met v (.arrow p r) c ↔ s.Met v p c ∨ ¬ s.Reaches p v ∧ s.Met v r c := by
  constructor
  · rintro (_ | _ | h | ⟨hp, h⟩)
    · exact .inl h
    · exact .inr ⟨hp, h⟩
  · rintro (h | ⟨hp, h⟩)
    · exact .param h
    · exact .ret hp h

theorem Met.free (h : s.Met v t c) : s.link c = none := by
  induction h with
  | here hfree => exact hfree
  | link _ _ ih | param _ ih | ret _ _ ih => exact ih

theorem Met.reaches (h : s.Met v t c) : s.Reaches t c := by
  induction h with
  | here => exact .here _
  | link hlink _ ih => exact .link hlink ih
  | param _ ih => exact .param ih
  | ret _ _ ih => exact .ret ih

/-- Without an occurrence the walk is over the whole type. -/
theorem Reaches.met (h : s.Reaches t c) (hfree : s.link c = none) (hv : ¬ s.Reaches t v) :
    s.Met v t c := by
  induction h with
  | here => exact .here hfree
  | link hlink _ ih => exact .link hlink (ih hfree fun hback => hv (.link hlink hback))
  | param _ ih => exact .param (ih hfree fun hback => hv (.param hback))
  | ret _ ih => exact .ret (fun hback => hv (.param hback)) (ih hfree fun hback => hv (.ret hback))

/-- The cells that are lowered are those that the walk meets. -/
theorem Grounded.mem_take_iff_met (ht : s.Grounded t) (hv : s.link v = none) :
    c ∈ (s.unbound t).take ((s.unbound t).idxOf v + 1) ↔ s.Met v t c := by
  induction ht with
  | unit | absent =>
      constructor
      · simp
      · rintro ⟨⟩
  | free _ hfree => simp [unbound_of_free hfree, met_of_free hfree]
  | link hlink h ih => rw [unbound_of_link hlink h, ih, met_of_link hlink]
  | @arrow p r hp _ ihp ihr =>
      have hocc : v ∈ s.unbound p ↔ s.Reaches p v := hp.mem_unbound.trans (and_iff_left hv)
      rw [unbound_arrow, met_arrow, ← ihp, ← ihr, ← hocc]
      by_cases hmem : v ∈ s.unbound p
      · rw [take_idxOf_append_of_mem hmem]
        simp [hmem]
      · rw [take_idxOf_append_of_not_mem hmem, take_idxOf_of_not_mem hmem, List.mem_append]
        simp [hmem]

theorem Grounded.adjust_found (ht : s.Grounded t) (hv : s.link v = none) :
    (s.adjust v level t).1 = true ↔ s.Reaches t v := by
  rw [adjust, List.contains_iff_mem, ht.mem_unbound, and_iff_left hv]

theorem Grounded.cell_adjust_of_met (ht : s.Grounded t) (hv : s.link v = none)
    (hc : s.Met v t c) :
    (s.adjust v level t).2.cell c = { s.cell c with level := min (s.level c) level } := by
  have hlt := ht.lt_size_of_mem_unbound (ht.mem_unbound.mpr ⟨hc.reaches, hc.free⟩)
  rw [adjust, cell_lowerAll, if_pos ⟨(ht.mem_take_iff_met hv).mpr hc, hlt⟩]

theorem Grounded.cell_adjust_of_not_met (ht : s.Grounded t) (hv : s.link v = none)
    (hc : ¬ s.Met v t c) : (s.adjust v level t).2.cell c = s.cell c := by
  rw [adjust, cell_lowerAll, if_neg fun h => hc ((ht.mem_take_iff_met hv).mp h.1)]

end Store

open Store

/-- The check finds a variable exactly if it occurs in the type. It lowers the cells that the walk
meets and leaves all others as they are. So it lowers every unbound cell of the type exactly if
those above the level are met, as they all are when the variable does not occur. -/
theorem adjust_lowers_met (s : Store) (hacyclic : s.Acyclic) (hclosed : s.Closed) (v : Nat)
    (hv : s.link v = none) (level : Int) (t : Ty) (ht : ∀ w ∈ t.vars, w < s.size) :
    ((s.adjust v level t).1 = true ↔ s.Reaches t v) ∧
    (s.adjust v level t).2.size = s.size ∧
    (∀ c, s.Met v t c →
      (s.adjust v level t).2.cell c = { s.cell c with level := min (s.level c) level }) ∧
    (∀ c, ¬ s.Met v t c → (s.adjust v level t).2.cell c = s.cell c) ∧
    ((∀ c, s.Reaches t c → s.link c = none →
        (s.adjust v level t).2.level c = min (s.level c) level) ↔
      ∀ c, s.Reaches t c → s.link c = none → level < s.level c → s.Met v t c) ∧
    (¬ s.Reaches t v → ∀ c, s.Met v t c ↔ s.Reaches t c ∧ s.link c = none) := by
  have hg := hacyclic.grounded hclosed ht
  refine ⟨hg.adjust_found hv, by simp [adjust], fun c => hg.cell_adjust_of_met hv,
    fun c => hg.cell_adjust_of_not_met hv, ?_, ?_⟩
  · constructor
    · intro hall c hc hfree habove
      by_contra hnot
      have hlevel := hall c hc hfree
      rw [Store.level, hg.cell_adjust_of_not_met hv hnot, ← Store.level] at hlevel
      omega
    · intro hmet c hc hfree
      by_cases h : s.Met v t c
      · rw [Store.level, hg.cell_adjust_of_met hv h]
      · have hlow : ¬ level < s.level c := fun habove => h (hmet c hc hfree habove)
        rw [Store.level, hg.cell_adjust_of_not_met hv h, ← Store.level]
        omega
  · exact fun hnot c => ⟨fun h => ⟨h.reaches, h.free⟩, fun h => h.1.met h.2 hnot⟩

/-- The first cell is found behind the link of the second one. The third one is lowered before that,
and stands behind it once more. -/
theorem adjust_lowers_met_chain :
    chainStore.Acyclic ∧ chainStore.Closed ∧
    (chainStore.adjust 0 2 (.arrow (.var 2) (.arrow (.var 1) (.var 2)))).1 = true ∧
    chainStore.Reaches (.arrow (.var 2) (.arrow (.var 1) (.var 2))) 0 ∧
    ∀ c, chainStore.Reaches (.arrow (.var 2) (.arrow (.var 1) (.var 2))) c →
      chainStore.link c = none →
      (chainStore.adjust 0 2 (.arrow (.var 2) (.arrow (.var 1) (.var 2)))).2.level c =
        min (chainStore.level c) 2 := by
  have hacyclic := acyclic_of_grounded chainStore_grounded
  obtain ⟨hfound, -, -, -, hwhole, -⟩ := adjust_lowers_met chainStore hacyclic chainStore_closed 0
    rfl 2 (.arrow (.var 2) (.arrow (.var 1) (.var 2))) (by decide)
  have hocc : chainStore.Reaches (.arrow (.var 2) (.arrow (.var 1) (.var 2))) 0 :=
    .ret (.param (.link rfl (.here 0)))
  refine ⟨hacyclic, chainStore_closed, hfound.mpr hocc, hocc, hwhole.mpr ?_⟩
  intro c hc hfree habove
  have hcells : ∀ c < 3, 2 < chainStore.level c → c = 2 := by decide
  have hlt := chainStore_closed.lt_size_of_reaches (by decide) hc
  obtain rfl := hcells c hlt habove
  exact .param (.here hfree)

/-- The first variable is found in the parameter. The second one, in the result, is unbound and
stays above the level. -/
theorem adjust_stops_at_occurrence :
    stairStore.Acyclic ∧ stairStore.Closed ∧
    (stairStore.adjust 0 1 (.arrow (.var 0) (.var 1))).1 = true ∧
    stairStore.Reaches (.arrow (.var 0) (.var 1)) 1 ∧ stairStore.link 1 = none ∧
    (stairStore.adjust 0 1 (.arrow (.var 0) (.var 1))).2.level 1 = 3 ∧
    min (stairStore.level 1) 1 = 1 :=
  ⟨acyclic_of_grounded stairStore_grounded, stairStore_closed, by decide, .ret (.here 1), by decide,
    by decide, by decide⟩

end LetPoly
