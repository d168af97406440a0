import LetPoly.Proofs.Resolution

/-! # Collecting identifiers

Generalization collects the identifiers of a type from left to right, sorts them and leaves out
those that equal the one before them. The outcome is the strictly ascending list of the
identifiers, as it would be built by inserting them one by one.
-/

namespace LetPoly

/-! ## From left to right -/

namespace Store

variable {s : Store} {level : Int} {t : Ty} {v : Nat}

@[simp]
theorem idsAbove_unit : s.idsAbove level .unit = [] := by
  simp [idsAbove]

@[simp]
theorem idsAbove_absent : s.idsAbove level .absent = [] := by
  simp [idsAbove]

theorem idsAbove_of_free (hlink : s.link v = none) :
    s.idsAbove level (.var v) = if level < s.level v then [s.id v] else [] := by
  rw [idsAbove, unbound_of_free hlink]
  by_cases h : level < s.level v <;> simp [h]

theorem idsAbove_of_link (hlink : s.link v = some t) (ht : s.Grounded t) :
    s.idsAbove level (.var v) = s.idsAbove level t := by
  rw [idsAbove, unbound_of_link hlink ht, idsAbove]

@[simp]
theorem idsAbove_arrow (p r : Ty) :
    s.idsAbove level (.arrow p r) = s.idsAbove level p ++ s.idsAbove level r := by
  simp [idsAbove]

theorem mem_idsAbove {i : Int64} :
    i ∈ s.idsAbove level t ↔ ∃ v ∈ s.unbound t, level < s.level v ∧ s.id v = i := by
  simp only [idsAbove, List.mem_map, List.mem_filter, decide_eq_true_eq, and_assoc]

end Store

/-! ## In ascending order -/

namespace Scheme

variable {i j last : Int64} {ids : List Int64}

theorem mem_insertSorted : i ∈ insertSorted j ids ↔ i = j ∨ i ∈ ids := by
  induction ids with
  | nil => simp [insertSorted]
  | cons k ids ih =>
      unfold insertSorted
      split
      · simp
      · simp only [List.mem_cons, ih]
        exact or_left_comm

theorem pairwise_insertSorted (h : ids.Pairwise (· ≤ ·)) :
    (insertSorted i ids).Pairwise (· ≤ ·) := by
  induction ids with
  | nil => simp [insertSorted]
  | cons j ids ih =>
      obtain ⟨hj, hids⟩ := List.pairwise_cons.mp h
      unfold insertSorted
      split
      · rename_i hle
        refine List.pairwise_cons.mpr ⟨fun k hk => ?_, h⟩
        rcases List.mem_cons.mp hk with rfl | hk
        · exact hle
        · exact Int64.le_trans hle (hj k hk)
      · rename_i hnot
        refine List.pairwise_cons.mpr ⟨fun k hk => ?_, ih hids⟩
        rcases mem_insertSorted.mp hk with rfl | hk
        · exact Int64.le_of_lt (Int64.not_le.mp hnot)
        · exact hj k hk

theorem pairwise_sortIds (ids : List Int64) : (sortIds ids).Pairwise (· ≤ ·) := by
  induction ids with
  | nil => exact .nil
  | cons i ids ih => exact pairwise_insertSorted ih

/-- Insert an identifier into a strictly ascending list, unless it is there. -/
def insertId (i : Int64) : List Int64 → List Int64
  | [] => [i]
  | j :: js => if i < j then i :: j :: js else if i = j then j :: js else j :: insertId i js

theorem insertSorted_cons_of_le (h : i ≤ j) : insertSorted i (j :: ids) = i :: j :: ids :=
  if_pos h

theorem insertSorted_cons_of_gt (h : j < i) :
    insertSorted i (j :: ids) = j :: insertSorted i ids :=
  if_neg (Int64.not_le.mpr h)

theorem compactFrom_cons_self : compactFrom i (i :: ids) = compactFrom i ids :=
  if_pos rfl

theorem compactFrom_cons_of_ne (h : i ≠ last) :
    compactFrom last (i :: ids) = i :: compactFrom i ids :=
  if_neg h

theorem insertId_cons_of_gt (h : j < i) : insertId i (j :: ids) = j :: insertId i ids := by
  have hnot : ¬ i < j := Int64.not_lt.mpr (Int64.le_of_lt h)
  have hne : i ≠ j := fun heq => Int64.lt_irrefl (heq ▸ h)
  rw [insertId, if_neg hnot, if_neg hne]

/-- An identifier that stands first is kept, and the next one if it is another one. -/
theorem insertId_cons_of_le (h : i ≤ j) :
    insertId i (j :: compactFrom j ids) = i :: compactFrom i (j :: ids) := by
  by_cases heq : j = i
  · subst heq
    simp [insertId, compactFrom_cons_self, Int64.lt_irrefl]
  · have hlt : i < j := Int64.lt_of_le_of_ne h (Ne.symm heq)
    rw [insertId, if_pos hlt, compactFrom_cons_of_ne heq]

/-- An identifier after the last one kept is inserted before or after compaction. -/
theorem compactFrom_insertSorted (hids : ids.Pairwise (· ≤ ·)) (hlast : ∀ j ∈ ids, last ≤ j)
    (hi : last < i) :
    compactFrom last (insertSorted i ids) = insertId i (compactFrom last ids) := by
  have hne : ∀ {j k : Int64}, j < k → k ≠ j := fun hlt heq => Int64.lt_irrefl (heq ▸ hlt)
  induction ids generalizing last with
  | nil => exact compactFrom_cons_of_ne (hne hi)
  | cons j ids ih =>
      obtain ⟨hj, hids⟩ := List.pairwise_cons.mp hids
      by_cases hle : i ≤ j
      · have hjlast := hne (Int64.lt_of_lt_of_le hi hle)
        rw [insertSorted_cons_of_le hle, compactFrom_cons_of_ne (hne hi),
          compactFrom_cons_of_ne hjlast, insertId_cons_of_le hle]
      · have hlt : j < i := Int64.not_le.mp hle
        rw [insertSorted_cons_of_gt hlt]
        by_cases heq : j = last
        · subst heq
          rw [compactFrom_cons_self, compactFrom_cons_self, ih hids hj hlt]
        · rw [compactFrom_cons_of_ne heq, compactFrom_cons_of_ne heq, insertId_cons_of_gt hlt,
            ih hids hj hlt]

/-- Leave out every identifier that equals the one before it. -/
def compact : List Int64 → List Int64
  | [] => []
  | i :: is => i :: compactFrom i is

theorem compact_insertSorted (hids : ids.Pairwise (· ≤ ·)) :
    compact (insertSorted i ids) = insertId i (compact ids) := by
  cases ids with
  | nil => rfl
  | cons j ids =>
      obtain ⟨hj, hids⟩ := List.pairwise_cons.mp hids
      by_cases hle : i ≤ j
      · rw [insertSorted_cons_of_le hle, compact, compact, insertId_cons_of_le hle]
      · have hlt : j < i := Int64.not_le.mp hle
        rw [insertSorted_cons_of_gt hlt, compact, compact, insertId_cons_of_gt hlt,
          compactFrom_insertSorted hids hj hlt]

theorem compact_sortIds (ids : List Int64) : compact (sortIds ids) = ids.foldr insertId [] := by
  induction ids with
  | nil => rfl
  | cons i ids ih =>
      rw [sortIds, List.foldr_cons, List.foldr_cons, ← ih]
      exact compact_insertSorted (pairwise_sortIds ids)

/-- Sorting and compaction give the list that insertion one by one gives. -/
theorem arrange_eq (ids : List Int64) : arrange ids = ids.foldr insertId [] := by
  rw [← compact_sortIds, arrange]
  split
  · rename_i hlength
    rcases ids with _ | ⟨i, _ | ⟨j, ids⟩⟩
    · rfl
    · rfl
    · simp at hlength
  · rfl

theorem mem_insertId : i ∈ insertId j ids ↔ i = j ∨ i ∈ ids := by
  induction ids with
  | nil => simp [insertId]
  | cons k ids ih =>
      unfold insertId
      split
      · simp
      · split
        · rename_i heq
          simp [heq]
        · simp only [List.mem_cons, ih]
          exact or_left_comm

theorem mem_arrange : i ∈ arrange ids ↔ i ∈ ids := by
  rw [arrange_eq]
  induction ids with
  | nil => simp
  | cons j ids ih => simp [mem_insertId, ih]

theorem pairwise_insertId (h : ids.Pairwise (· < ·)) : (insertId i ids).Pairwise (· < ·) := by
  induction ids with
  | nil => simp [insertId]
  | cons j ids ih =>
      obtain ⟨hj, hids⟩ := List.pairwise_cons.mp h
      unfold insertId
      split
      · rename_i hlt
        refine List.pairwise_cons.mpr ⟨fun k hk => ?_, h⟩
        rcases List.mem_cons.mp hk with rfl | hk
        · exact hlt
        · exact Int64.lt_trans hlt (hj k hk)
      · rename_i hnot
        split
        · exact h
        · rename_i hne
          refine List.pairwise_cons.mpr ⟨fun k hk => ?_, ih hids⟩
          rcases mem_insertId.mp hk with rfl | hk
          · exact Int64.lt_of_le_of_ne (Int64.not_lt.mp hnot) (Ne.symm hne)
          · exact hj k hk

/-- The arranged identifiers ascend strictly. -/
theorem pairwise_arrange (ids : List Int64) : (arrange ids).Pairwise (· < ·) := by
  rw [arrange_eq]
  induction ids with
  | nil => exact .nil
  | cons i ids ih => exact pairwise_insertId ih

end Scheme

theorem Store.mem_vars_generalizeAt {s : Store} {level : Int} {t : Ty} {i : Int64} :
    i ∈ (s.generalizeAt level t).vars ↔ ∃ v ∈ s.unbound t, level < s.level v ∧ s.id v = i :=
  Scheme.mem_arrange.trans mem_idsAbove

end LetPoly
