import LetPoly.Proofs.Levels
import LetPoly.Proofs.Rendering
import LetPoly.Proofs.TypeTexts
import Mathlib.Data.List.Forall2

/-! # Texts tell types apart

The text of a type depends on the identifiers of its unbound variables only through the order in
which they first appear. So types have the same text exactly if a renaming of identifiers turns the
one into the other. In the text of a scheme the renaming has to respect what is quantified.
-/

namespace LetPoly

open Lexeme Store

variable {s s' : Store} {t u : Ty} {ts us : List Ty} {q q' : Int64 → Bool} {ids ids' : List Int64}
  {i j : Int64}

/-! ## Names of identifiers -/

/-- The name of an identifier by its place among the given ones. Identifiers with `q` are counted
apart from the others. -/
def idName (q : Int64 → Bool) (ids : List Int64) (i : Int64) : String :=
  if q i then "'" ++ varName ((ids.filter q).idxOf i)
  else "'_" ++ varName ((ids.filter fun j => !q j).idxOf i)

theorem isWord_idName : IsWord (idName q ids i) := by
  have hmarked : ∀ (mark : String) (k : Nat), IsWord mark → IsWord (mark ++ varName k) := by
    intro mark k hmark
    refine ⟨by simp [hmark.nonempty], fun c hc => ?_⟩
    rw [String.toList_append, List.mem_append] at hc
    rcases hc with hc | hc
    · exact hmark.plain c hc
    · exact varName_plain k c hc
  unfold idName
  split
  · exact hmarked "'" _ (by decide)
  · exact hmarked "'_" _ (by decide)

/-- The two kinds of names have none in common. -/
theorem quoted_ne_underscored (m n : Nat) : "'" ++ varName m ≠ "'_" ++ varName n := by
  intro h
  have hlists := congrArg String.toList h
  rw [String.toList_append, String.toList_append, toList_varName] at hlists
  have hletter := (letter_plain _ (Nat.mod_lt m (by decide))).2
  exact hletter (List.cons.inj (List.cons.inj hlists).2).1

/-- A name shows whether its identifier is one with `q`. -/
theorem eq_of_idName_eq (h : idName q ids i = idName q' ids' j) : q i = q' j := by
  unfold idName at h
  cases hi : q i <;> cases hj : q' j <;>
    simp only [hi, hj, Bool.false_eq_true, if_false, if_true] at h
  · rfl
  · exact absurd h.symm (quoted_ne_underscored _ _)
  · exact absurd h (quoted_ne_underscored _ _)
  · rfl

theorem idName_inj (hi : i ∈ ids) : idName q ids i = idName q ids j ↔ i = j := by
  constructor
  · intro h
    have hq := eq_of_idName_eq h
    unfold idName at h
    cases hj : q j with
    | true =>
        simp only [hq.trans hj, hj, if_true] at h
        have hidx := varName_injective ((String.append_right_inj "'").mp h)
        exact (List.idxOf_inj (List.mem_filter.mpr ⟨hi, hq.trans hj⟩)).mp hidx
    | false =>
        simp only [hq.trans hj, hj, Bool.false_eq_true, if_false] at h
        have hidx := varName_injective ((String.append_right_inj "'_").mp h)
        refine (List.idxOf_inj (List.mem_filter.mpr ⟨hi, ?_⟩)).mp hidx
        simp [hq.trans hj]
  · rintro rfl
    rfl

/-- A renaming of identifiers leaves the names as they are. -/
theorem idName_map {β : Int64 → Int64} (hβ : Set.InjOn β {i | i ∈ ids})
    (hq : ∀ i ∈ ids, q i = q' (β i)) (hi : i ∈ ids) :
    idName q' (ids.map β) (β i) = idName q ids i := by
  have hidx : ∀ p p' : Int64 → Bool, (∀ i ∈ ids, p i = p' (β i)) →
      ((ids.map β).filter p').idxOf (β i) = (ids.filter p).idxOf i := by
    intro p p' hp
    have hfilter : (ids.map β).filter p' = (ids.filter p).map β := by
      rw [List.filter_map]
      exact congrArg (List.map β) (List.filter_congr fun i hi => (hp i hi).symm)
    rw [hfilter]
    exact idxOf_map fun j hj heq => hβ (List.mem_filter.mp hj).1 hi heq
  unfold idName
  rw [← hq i hi, hidx q q' hq, hidx (fun i => !q i) (fun i => !q' i) fun i hi => by rw [hq i hi]]

/-! ## Corresponding identifiers -/

theorem Store.mem_idsOf : i ∈ s.idsOf ts ↔ ∃ t ∈ ts, ∃ v ∈ (s.resolve t).vars, s.id v = i := by
  rw [idsOf, List.mem_eraseDups, List.mem_map]
  constructor
  · rintro ⟨v, hv, rfl⟩
    obtain ⟨t, ht, hv⟩ := List.mem_flatMap.mp hv
    exact ⟨t, ht, v, hv, rfl⟩
  · rintro ⟨t, ht, v, hv, rfl⟩
    exact ⟨v, List.mem_flatMap.mpr ⟨t, ht, hv⟩, rfl⟩

/-- The types have the same forms, and identifiers that stand at the same place are related. -/
def Store.Corresponds (s s' : Store) (R : Int64 → Int64 → Prop) (ts us : List Ty) : Prop :=
  List.Forall₂ (fun t u => (s.resolve t).Congruent (fun v w => R (s.id v) (s'.id w)) (s'.resolve u))
    ts us

namespace Store.Corresponds

variable {R R' : Int64 → Int64 → Prop}

theorem symm (h : s.Corresponds s' R ts us) : s'.Corresponds s (fun j i => R i j) us ts :=
  h.flip.imp fun _ _ => Ty.Congruent.symm

theorem imp (h : s.Corresponds s' R ts us)
    (hR : ∀ i ∈ s.idsOf ts, ∀ j ∈ s'.idsOf us, R i j → R' i j) : s.Corresponds s' R' ts us := by
  rw [Corresponds, List.forall₂_iff_zip] at h ⊢
  refine ⟨h.1, fun {t u} hmem => (h.2 hmem).imp fun v hv w hw => hR _ ?_ _ ?_⟩
  · exact mem_idsOf.mpr ⟨t, (List.of_mem_zip hmem).1, v, hv, rfl⟩
  · exact mem_idsOf.mpr ⟨u, (List.of_mem_zip hmem).2, w, hw, rfl⟩

/-- Every identifier of the first types has a counterpart. -/
theorem exists_right (h : s.Corresponds s' R ts us) (hi : i ∈ s.idsOf ts) :
    ∃ j ∈ s'.idsOf us, R i j := by
  obtain ⟨t, ht, v, hv, rfl⟩ := mem_idsOf.mp hi
  rw [← List.map_fst_zip h.length_eq.le] at ht
  obtain ⟨⟨t, u⟩, hmem, rfl⟩ := List.mem_map.mp ht
  obtain ⟨w, hw, hR⟩ := (List.forall₂_zip h hmem).exists_right hv
  exact ⟨s'.id w, mem_idsOf.mpr ⟨u, (List.of_mem_zip hmem).2, w, hw, rfl⟩, hR⟩

/-- A renaming of identifiers also renames all that stand in the types, in their order. -/
theorem map_id {β : Int64 → Int64} (h : s.Corresponds s' (fun i j => j = β i) ts us) :
    (us.flatMap s'.unbound).map s'.id = ((ts.flatMap s.unbound).map s.id).map β := by
  induction h with
  | nil => rfl
  | cons hcongruent _ ih =>
      have hvars := hcongruent.map_vars
      rw [List.flatMap_cons, List.flatMap_cons, List.map_append, ih, unbound, hvars]
      simp [unbound]

theorem idsOf_eq {β : Int64 → Int64} (h : s.Corresponds s' (fun i j => j = β i) ts us)
    (hβ : Set.InjOn β {i | i ∈ s.idsOf ts}) : s'.idsOf us = (s.idsOf ts).map β := by
  have hinj : Set.InjOn β {i | i ∈ (ts.flatMap s.unbound).map s.id} := by
    simpa only [idsOf, List.mem_eraseDups] using hβ
  rw [idsOf, h.map_id, eraseDups_map _ hinj, idsOf]

end Store.Corresponds

/-- A relation that pairs the members of two sets is a bijection between them. -/
theorem exists_bijOn {I J : Set Int64} {R : Int64 → Int64 → Prop}
    (hright : ∀ i ∈ I, ∃ j ∈ J, R i j) (hleft : ∀ j ∈ J, ∃ i ∈ I, R i j)
    (hunique : ∀ i, ∀ j ∈ J, ∀ j' ∈ J, R i j → R i j' → j = j')
    (hinj : ∀ i ∈ I, ∀ i' ∈ I, ∀ j, R i j → R i' j → i = i') :
    ∃ β, Set.BijOn β I J ∧ ∀ i ∈ I, ∀ j ∈ J, R i j → j = β i := by
  choose! β hmaps hβ using hright
  have heq : ∀ i ∈ I, ∀ j ∈ J, R i j → j = β i := fun i hi j hj h =>
    hunique i j hj (β i) (hmaps i hi) h (hβ i hi)
  refine ⟨β, ⟨hmaps, fun i hi i' hi' h => ?_, fun j hj => ?_⟩, heq⟩
  · exact hinj i hi i' hi' (β i) (hβ i hi) (h ▸ hβ i' hi')
  · obtain ⟨i, hi, h⟩ := hleft j hj
    exact ⟨i, hi, (heq i hi j hj h).symm⟩

/-! ## Texts -/

/-- The texts of several types. Identifiers with `q` are named apart from the others. -/
def Store.textsBy (s : Store) (q : Int64 → Bool) (ts : List Ty) : List String :=
  ts.map fun t => (s.resolve t).renderAt (fun v => idName q (s.idsOf ts) (s.id v)) false

theorem Store.nameIn_eq (s : Store) (ids : List Int64) (v : Nat) :
    s.nameIn ids v = idName (fun _ => true) ids (s.id v) := by
  simp [nameIn, idName]

theorem Store.renderTys_eq (s : Store) (ts : List Ty) :
    s.renderTys ts = s.textsBy (fun _ => true) ts := by
  simp only [renderTys, textsBy, ← nameIn_eq]

theorem Store.renderScheme_eq (s : Store) (σ : Scheme) :
    [s.renderScheme σ] = s.textsBy σ.quantifies [σ.body] := by
  have hname : (fun v => idName σ.quantifies (s.idsOf [σ.body]) (s.id v)) = fun v =>
      if σ.quantifies (s.id v) then
        "'" ++ varName (((s.idsOf [σ.body]).partition σ.quantifies).1.idxOf (s.id v))
      else "'_" ++ varName (((s.idsOf [σ.body]).partition σ.quantifies).2.idxOf (s.id v)) := by
    funext v
    rw [List.partition_eq_filter_filter]
    rfl
  rw [textsBy, List.map_singleton, hname]
  rfl

/-- Texts are equal exactly if the same names stand at the same places. -/
theorem Store.textsBy_eq_iff_names (hts : ∀ t ∈ ts, (s.resolve t).Complete)
    (hus : ∀ u ∈ us, (s'.resolve u).Complete) :
    s.textsBy q ts = s'.textsBy q' us ↔
      s.Corresponds s' (fun i j => idName q (s.idsOf ts) i = idName q' (s'.idsOf us) j) ts us := by
  rw [textsBy, textsBy, ← List.forall₂_eq_eq_eq, List.forall₂_map_left_iff,
    List.forall₂_map_right_iff, Corresponds, List.forall₂_iff_zip, List.forall₂_iff_zip]
  refine and_congr_right fun _ => forall_congr' fun t => forall_congr' fun u => ?_
  refine forall_congr' fun hmem => ?_
  obtain ⟨ht, hu⟩ := List.of_mem_zip hmem
  exact Ty.renderAt_eq_iff (fun _ => isWord_idName) (fun _ => isWord_idName) (hts t ht) (hus u hu)

/-- Texts are equal exactly if a renaming of identifiers that respects `q` turns the types into each
other. -/
theorem Store.textsBy_eq_iff (hts : ∀ t ∈ ts, (s.resolve t).Complete)
    (hus : ∀ u ∈ us, (s'.resolve u).Complete) :
    s.textsBy q ts = s'.textsBy q' us ↔
      ∃ β, Set.BijOn β {i | i ∈ s.idsOf ts} {j | j ∈ s'.idsOf us} ∧
        s.Corresponds s' (fun i j => j = β i) ts us ∧ ∀ i ∈ s.idsOf ts, q i = q' (β i) := by
  rw [textsBy_eq_iff_names hts hus]
  constructor
  · intro h
    obtain ⟨β, hβ, heq⟩ := exists_bijOn (I := {i | i ∈ s.idsOf ts}) (J := {j | j ∈ s'.idsOf us})
      (fun i hi => h.exists_right hi) (fun j hj => h.symm.exists_right hj)
      (fun i j hj j' _ hij hij' => (idName_inj hj).mp (hij.symm.trans hij'))
      (fun i hi i' _ j hij hij' => (idName_inj hi).mp (hij.trans hij'.symm))
    refine ⟨β, hβ, h.imp heq, fun i hi => ?_⟩
    obtain ⟨j, hj, hij⟩ := h.exists_right hi
    rw [← heq i hi j hj hij]
    exact eq_of_idName_eq hij
  · rintro ⟨β, hβ, h, hq⟩
    refine h.imp fun i hi j hj hij => ?_
    rw [h.idsOf_eq hβ.injOn, hij]
    exact (idName_map hβ.injOn hq hi).symm

/-- The unbound cells that the types reach. -/
def Store.unboundCells (s : Store) (ts : List Ty) : Set Nat :=
  {v | ∃ t ∈ ts, s.Reaches t v ∧ s.link v = none}

theorem Store.mem_image_unboundCells (hts : ∀ t ∈ ts, s.Grounded t) :
    i ∈ s.id '' s.unboundCells ts ↔ i ∈ s.idsOf ts := by
  rw [mem_idsOf]
  constructor
  · rintro ⟨v, ⟨t, ht, hv⟩, rfl⟩
    exact ⟨t, ht, v, (hts t ht).mem_unbound.mpr hv, rfl⟩
  · rintro ⟨t, ht, v, hv, rfl⟩
    exact ⟨v, ⟨t, ht, (hts t ht).mem_unbound.mp hv⟩, rfl⟩

theorem Store.image_unboundCells (hts : ∀ t ∈ ts, s.Grounded t) :
    s.id '' s.unboundCells ts = {i | i ∈ s.idsOf ts} :=
  Set.ext fun _ => mem_image_unboundCells hts

/-- The texts of types are equal exactly if a renaming of the identifiers of their unbound cells
turns the types into each other. One type has the text that it has by itself, and cells have the
same name only if they have the same identifier. -/
theorem renderTys_eq_iff (s s' : Store) (ts us : List Ty) (hacyclic : s.Acyclic)
    (hclosed : s.Closed) (hacyclic' : s'.Acyclic) (hclosed' : s'.Closed)
    (hts : ∀ t ∈ ts, (∀ v ∈ t.vars, v < s.size) ∧ (s.resolve t).Complete)
    (hus : ∀ u ∈ us, (∀ v ∈ u.vars, v < s'.size) ∧ (s'.resolve u).Complete) :
    (s.renderTys ts = s'.renderTys us ↔
      ∃ β, Set.BijOn β (s.id '' s.unboundCells ts) (s'.id '' s'.unboundCells us) ∧
        s.Corresponds s' (fun i j => j = β i) ts us) ∧
    (∀ t, s.renderTys [t] = [s.renderTy t]) ∧
    ∀ v ∈ s.unboundCells ts, ∀ w ∈ s.unboundCells ts,
      s.nameIn (s.idsOf ts) v = s.nameIn (s.idsOf ts) w ↔ s.id v = s.id w := by
  have hgt : ∀ t ∈ ts, s.Grounded t := fun t ht => hacyclic.grounded hclosed (hts t ht).1
  have hgu : ∀ u ∈ us, s'.Grounded u := fun u hu => hacyclic'.grounded hclosed' (hus u hu).1
  refine ⟨?_, fun t => rfl, fun v hv w _ => ?_⟩
  · rw [renderTys_eq, renderTys_eq, textsBy_eq_iff (fun t ht => (hts t ht).2)
      (fun u hu => (hus u hu).2), image_unboundCells hgt, image_unboundCells hgu]
    simp only [implies_true, and_true]
  · rw [nameIn_eq, nameIn_eq]
    exact idName_inj ((mem_image_unboundCells hgt).mp ⟨v, hv, rfl⟩)

/-- Types over a store in which the parameter stands behind a link. -/
def chainTypes : List Ty :=
  [.arrow (.var 1) (.var 2), .var 0]

/-- Types over a store without links, with other identifiers and levels. -/
def stairTypes : List Ty :=
  [.arrow (.var 2) (.var 0), .var 2]

theorem renderTys_eq_iff_stores :
    chainStore.Acyclic ∧ chainStore.Closed ∧ stairStore.Acyclic ∧ stairStore.Closed ∧
    chainStore.renderTys chainTypes = ["'a -> 'b", "'a"] ∧
    stairStore.renderTys stairTypes = ["'a -> 'b", "'a"] ∧
    ∃ β, Set.BijOn β (chainStore.id '' chainStore.unboundCells chainTypes)
        (stairStore.id '' stairStore.unboundCells stairTypes) ∧
      chainStore.Corresponds stairStore (fun i j => j = β i) chainTypes stairTypes := by
  have hchain := acyclic_of_grounded chainStore_grounded
  have hstair := acyclic_of_grounded stairStore_grounded
  obtain ⟨hiff, -, -⟩ := renderTys_eq_iff chainStore stairStore chainTypes stairTypes hchain
    chainStore_closed hstair stairStore_closed (by decide) (by decide)
  exact ⟨hchain, chainStore_closed, hstair, stairStore_closed, rfl, rfl, hiff.mp rfl⟩

/-- The texts of schemes are equal exactly if a renaming of the identifiers of the unbound cells in
their bodies turns the bodies into each other, and quantified ones into quantified ones. -/
theorem renderScheme_eq_iff (s s' : Store) (σ τ : Scheme) (hacyclic : s.Acyclic)
    (hclosed : s.Closed) (hacyclic' : s'.Acyclic) (hclosed' : s'.Closed)
    (hσ : ∀ v ∈ σ.body.vars, v < s.size) (hτ : ∀ v ∈ τ.body.vars, v < s'.size)
    (hcσ : (s.resolve σ.body).Complete) (hcτ : (s'.resolve τ.body).Complete) :
    s.renderScheme σ = s'.renderScheme τ ↔
      ∃ β, Set.BijOn β (s.id '' s.unboundCells [σ.body]) (s'.id '' s'.unboundCells [τ.body]) ∧
        (s.resolve σ.body).Congruent (fun v w => s'.id w = β (s.id v)) (s'.resolve τ.body) ∧
        ∀ i ∈ s.id '' s.unboundCells [σ.body], i ∈ σ.vars ↔ β i ∈ τ.vars := by
  have hgσ : ∀ t ∈ [σ.body], s.Grounded t := by
    simpa using hacyclic.grounded hclosed hσ
  have hgτ : ∀ t ∈ [τ.body], s'.Grounded t := by
    simpa using hacyclic'.grounded hclosed' hτ
  rw [← List.singleton_inj, renderScheme_eq, renderScheme_eq, textsBy_eq_iff (by simpa using hcσ)
    (by simpa using hcτ), image_unboundCells hgσ, image_unboundCells hgτ]
  refine exists_congr fun β => and_congr_right fun _ => and_congr ?_ (forall₂_congr fun i _ => ?_)
  · simp [Corresponds]
  · rw [Bool.eq_iff_iff]
    simp [Scheme.quantifies]

/-- A scheme whose parameter stands behind a link and is not quantified. It lists an identifier
twice and one that does not occur. -/
def chainScheme : Scheme :=
  { vars := [7, 2, 2], body := .arrow (.var 1) (.arrow (.var 2) (.var 0)) }

/-- A scheme over a store without links, with other identifiers and levels. -/
def stairScheme : Scheme :=
  { vars := [0], body := .arrow (.var 2) (.arrow (.var 0) (.var 2)) }

theorem renderScheme_eq_iff_stores :
    chainStore.Acyclic ∧ chainStore.Closed ∧ stairStore.Acyclic ∧ stairStore.Closed ∧
    chainStore.renderScheme chainScheme = "'_a -> 'a -> '_a" ∧
    stairStore.renderScheme stairScheme = "'_a -> 'a -> '_a" ∧
    ∃ β, Set.BijOn β (chainStore.id '' chainStore.unboundCells [chainScheme.body])
        (stairStore.id '' stairStore.unboundCells [stairScheme.body]) ∧
      (chainStore.resolve chainScheme.body).Congruent
        (fun v w => stairStore.id w = β (chainStore.id v)) (stairStore.resolve stairScheme.body) ∧
      ∀ i ∈ chainStore.id '' chainStore.unboundCells [chainScheme.body],
        i ∈ chainScheme.vars ↔ β i ∈ stairScheme.vars := by
  have hchain := acyclic_of_grounded chainStore_grounded
  have hstair := acyclic_of_grounded stairStore_grounded
  have hiff := renderScheme_eq_iff chainStore stairStore chainScheme stairScheme hchain
    chainStore_closed hstair stairStore_closed (by decide) (by decide) (by decide) (by decide)
  exact ⟨hchain, chainStore_closed, hstair, stairStore_closed, rfl, rfl, hiff.mp rfl⟩

end LetPoly
