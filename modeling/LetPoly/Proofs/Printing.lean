import LetPoly.Proofs.Naming

/-! # Names are given on the way

A printer writes types from left to right and keeps the identifiers that it has named. A variable
gets a name where its identifier first appears, and keeps it in all that is written later. Written
so, types and schemes have the texts that they have by the order of all their identifiers.
-/

namespace LetPoly

open Store

variable {s : Store} {t : Ty} {q : Int64 → Bool} {ids more : List Int64} {i : Int64} {v : Nat}
  {atomic : Bool}

/-! ## Identifiers with names -/

/-- The identifiers that have names, after one of them or another one was written. -/
def nameId (ids : List Int64) (i : Int64) : List Int64 :=
  if i ∈ ids then ids else ids ++ [i]

theorem nameId_of_mem (h : i ∈ ids) : nameId ids i = ids :=
  if_pos h

theorem nameId_of_not_mem (h : i ∉ ids) : nameId ids i = ids ++ [i] :=
  if_neg h

/-- Identifiers keep their names, and all that are written get one. -/
theorem exists_foldl_nameId (is ids : List Int64) :
    ∃ more, is.foldl nameId ids = ids ++ more ∧ ∀ i ∈ is, i ∈ ids ++ more := by
  induction is generalizing ids with
  | nil => exact ⟨[], by simp⟩
  | cons i is ih =>
      obtain ⟨more, heq, hmem⟩ := ih (nameId ids i)
      rw [List.foldl_cons]
      by_cases hi : i ∈ ids
      · rw [nameId_of_mem hi] at heq hmem ⊢
        refine ⟨more, heq, List.forall_mem_cons.mpr ⟨?_, hmem⟩⟩
        exact List.mem_append_left more hi
      · simp only [nameId_of_not_mem hi, List.append_assoc] at heq hmem ⊢
        exact ⟨[i] ++ more, heq, List.forall_mem_cons.mpr ⟨by simp, hmem⟩⟩

theorem foldl_nameId_nil (is : List Int64) : is.foldl nameId [] = is.eraseDups := by
  induction is using List.reverseRecOn with
  | nil => rfl
  | append_singleton is i ih =>
      rw [List.foldl_append, ih, List.eraseDups_append, List.foldl_cons, List.foldl_nil]
      by_cases hi : i ∈ is
      · rw [nameId_of_mem (List.mem_eraseDups.mpr hi)]
        simp [List.removeAll, hi]
      · rw [nameId_of_not_mem (mt List.mem_eraseDups.mp hi)]
        simp [List.removeAll, List.eraseDups_cons, hi]

theorem idName_append (h : i ∈ ids) : idName q (ids ++ more) i = idName q ids i := by
  unfold idName
  split
  · rename_i hq
    rw [List.filter_append, List.idxOf_append_of_mem (List.mem_filter.mpr ⟨h, hq⟩)]
  · rename_i hq
    have hmem : i ∈ ids.filter fun j => !q j := List.mem_filter.mpr ⟨h, by simpa using hq⟩
    rw [List.filter_append, List.idxOf_append_of_mem hmem]

/-- A new identifier gets the next name, counted among those of its kind. -/
theorem idName_new (h : i ∉ ids) :
    idName q (ids ++ [i]) i =
      if q i then "'" ++ varName (ids.countP q)
      else "'_" ++ varName (ids.countP fun j => !q j) := by
  have hcount : ∀ p : Int64 → Bool, p i = true →
      ((ids ++ [i]).filter p).idxOf i = ids.countP p := by
    intro p hp
    have hnot : i ∉ ids.filter p := fun hmem => h (List.mem_filter.mp hmem).1
    rw [List.filter_append, List.idxOf_append_of_notMem hnot, List.countP_eq_length_filter]
    simp [hp]
  unfold idName
  split
  · rename_i hq
    rw [hcount q hq]
  · rename_i hq
    rw [hcount (fun j => !q j) (by simpa using hq)]

/-! ## Writing a type -/

/-- The identifiers that have names after a type was written. -/
def Store.named (s : Store) (ids : List Int64) (t : Ty) : List Int64 :=
  ((s.unbound t).map s.id).foldl nameId ids

/-- The text of a type after others, whose identifiers have names, and the identifiers that have
names then. -/
def Store.write (s : Store) (q : Int64 → Bool) (ids : List Int64) (t : Ty) (atomic : Bool) :
    String × List Int64 :=
  ((s.resolve t).renderAt (fun v => idName q (s.named ids t) (s.id v)) atomic, s.named ids t)

namespace Store

theorem exists_named (s : Store) (ids : List Int64) (t : Ty) :
    ∃ more, s.named ids t = ids ++ more ∧ ∀ v ∈ (s.resolve t).vars, s.id v ∈ ids ++ more := by
  obtain ⟨more, heq, hmem⟩ := exists_foldl_nameId ((s.unbound t).map s.id) ids
  exact ⟨more, heq, fun v hv => hmem _ (List.mem_map_of_mem hv)⟩

@[simp]
theorem write_unit : s.write q ids .unit atomic = ("()", ids) := by
  simp [write, named, Ty.renderAt]

@[simp]
theorem write_absent : s.write q ids .absent atomic = ("<nil>", ids) := by
  simp [write, named, Ty.renderAt]

/-- A variable whose identifier has a name. -/
theorem write_of_mem (hlink : s.link v = none) (h : s.id v ∈ ids) :
    s.write q ids (.var v) atomic = (idName q ids (s.id v), ids) := by
  have hnamed : s.named ids (.var v) = ids := by
    simp [named, unbound_of_free hlink, nameId_of_mem h]
  rw [write, resolve_of_free hlink, hnamed, Ty.renderAt]

/-- A variable whose identifier has no name yet. -/
theorem write_of_not_mem (hlink : s.link v = none) (h : s.id v ∉ ids) :
    s.write q ids (.var v) atomic =
      (if q (s.id v) then "'" ++ varName (ids.countP q)
        else "'_" ++ varName (ids.countP fun j => !q j), ids ++ [s.id v]) := by
  have hnamed : s.named ids (.var v) = ids ++ [s.id v] := by
    simp [named, unbound_of_free hlink, nameId_of_not_mem h]
  rw [write, resolve_of_free hlink, hnamed, Ty.renderAt, idName_new h]

theorem write_of_link (hlink : s.link v = some t) (ht : s.Grounded t) :
    s.write q ids (.var v) atomic = s.write q ids t atomic := by
  rw [write, named, resolve_of_link hlink ht, unbound_of_link hlink ht, write, named]

/-- The names of a type do not depend on what is written after it. -/
theorem renderAt_append (h : ∀ v ∈ (s.resolve t).vars, s.id v ∈ ids) :
    (s.resolve t).renderAt (fun v => idName q (ids ++ more) (s.id v)) atomic =
      (s.resolve t).renderAt (fun v => idName q ids (s.id v)) atomic :=
  Ty.renderAt_congr atomic fun v hv => idName_append (h v hv)

/-- The parameter is written first, and the result with the names that it leaves. -/
theorem write_arrow (p r : Ty) :
    s.write q ids (.arrow p r) atomic =
      let param := s.write q ids p true
      let ret := s.write q param.2 r false
      let text := param.1 ++ " -> " ++ ret.1
      (if atomic then "(" ++ text ++ ")" else text, ret.2) := by
  have hnamed : s.named ids (.arrow p r) = s.named (s.named ids p) r := by
    simp [named]
  obtain ⟨more, heq, hp⟩ := s.exists_named ids p
  obtain ⟨more', heq', -⟩ := s.exists_named (s.named ids p) r
  have hparam : (s.resolve p).renderAt
      (fun v => idName q (s.named (s.named ids p) r) (s.id v)) true =
      (s.resolve p).renderAt (fun v => idName q (s.named ids p) (s.id v)) true := by
    rw [heq']
    exact renderAt_append (heq ▸ hp)
  rw [write, hnamed, resolve_arrow, Ty.renderAt, hparam]
  rfl

/-! ## Writing several types -/

/-- The texts of types that are written one after the other. -/
def writeAll (s : Store) (q : Int64 → Bool) : List Int64 → List Ty → List String
  | _, [] => []
  | ids, t :: ts => (s.write q ids t false).1 :: s.writeAll q (s.write q ids t false).2 ts

theorem foldl_named (ids : List Int64) (ts : List Ty) :
    ts.foldl s.named ids = ((ts.flatMap s.unbound).map s.id).foldl nameId ids := by
  induction ts generalizing ids with
  | nil => rfl
  | cons t ts ih =>
      rw [List.foldl_cons, ih, List.flatMap_cons, List.map_append, List.foldl_append, named]

theorem writeAll_eq (ids : List Int64) (ts : List Ty) :
    s.writeAll q ids ts = ts.map fun t =>
      (s.resolve t).renderAt (fun v => idName q (ts.foldl s.named ids) (s.id v)) false := by
  induction ts generalizing ids with
  | nil => rfl
  | cons t ts ih =>
      obtain ⟨more, heq, ht⟩ := s.exists_named ids t
      obtain ⟨more', heq', -⟩ :=
        exists_foldl_nameId ((ts.flatMap s.unbound).map s.id) (s.named ids t)
      rw [← foldl_named] at heq'
      rw [writeAll, write, ih, List.map_cons, List.foldl_cons, heq', renderAt_append (heq ▸ ht)]

theorem writeAll_nil (ts : List Ty) : s.writeAll q [] ts = s.textsBy q ts := by
  rw [writeAll_eq, foldl_named, foldl_nameId_nil, textsBy, idsOf]

/-- The texts of several types are those that a printer writes, one after the other. -/
theorem renderTys_eq_writeAll (s : Store) (ts : List Ty) :
    s.renderTys ts = s.writeAll (fun _ => true) [] ts := by
  rw [writeAll_nil, renderTys_eq]

/-- The text of a scheme is that of its body, with names of two kinds. -/
theorem renderScheme_eq_write (s : Store) (σ : Scheme) :
    s.renderScheme σ = (s.write σ.quantifies [] σ.body false).1 := by
  have htexts : [s.renderScheme σ] = s.writeAll σ.quantifies [] [σ.body] := by
    rw [writeAll_nil, renderScheme_eq]
  exact List.singleton_inj.mp htexts

end Store

end LetPoly
