import LetPoly.Proofs.Lexemes
import LetPoly.Ty.Printer

/-! # Texts of types

The text of a type shows its form and the names of its variables, and nothing else. Different places
in the order of names give different names.
-/

namespace LetPoly

open Lexeme

/-! ## Names -/

theorem letter_inj : ∀ i < 26, ∀ j < 26,
    Char.ofNat ('a'.toNat + i) = Char.ofNat ('a'.toNat + j) → i = j := by
  decide

theorem letter_plain : ∀ i < 26, ofChar? (Char.ofNat ('a'.toNat + i)) = none ∧
    Char.ofNat ('a'.toNat + i) ≠ '_' := by
  decide

/-- The number of rounds, as it is written after the letter. -/
def roundDigits (i : Nat) : List Char :=
  if i < 26 then [] else Nat.toDigits 10 (i / 26)

theorem toList_varName (i : Nat) :
    (varName i).toList = Char.ofNat ('a'.toNat + i % 26) :: roundDigits i := by
  unfold varName roundDigits
  split
  · simp
  · simp [Nat.toString_eq_repr, Nat.toList_repr]

theorem toDigits_inj {m n : Nat} (h : Nat.toDigits 10 m = Nat.toDigits 10 n) : m = n :=
  calc m = Nat.ofDigitChars 10 (Nat.toDigits 10 m) 0 := Nat.ofDigitChars_ten_toDigits.symm
    _ = Nat.ofDigitChars 10 (Nat.toDigits 10 n) 0 := by rw [h]
    _ = n := Nat.ofDigitChars_ten_toDigits

theorem varName_injective : Function.Injective varName := by
  intro i j h
  have hlists := congrArg String.toList h
  rw [toList_varName, toList_varName, List.cons.injEq] at hlists
  obtain ⟨hletter, hdigits⟩ := hlists
  have hmod : i % 26 = j % 26 :=
    letter_inj _ (Nat.mod_lt i (by decide)) _ (Nat.mod_lt j (by decide)) hletter
  have hround : i / 26 = j / 26 := by
    unfold roundDigits at hdigits
    split at hdigits <;> split at hdigits
    · omega
    · exact absurd hdigits.symm Nat.toDigits_ne_nil
    · exact absurd hdigits Nat.toDigits_ne_nil
    · exact toDigits_inj hdigits
  omega

theorem varName_plain (i : Nat) : ∀ c ∈ (varName i).toList, ofChar? c = none := by
  rw [toList_varName, List.forall_mem_cons]
  refine ⟨(letter_plain _ (Nat.mod_lt i (by decide))).1, fun c hc => ?_⟩
  unfold roundDigits at hc
  split at hc
  · simp at hc
  · have hdigit := Nat.isDigit_of_mem_toDigits (by decide) (by decide) hc
    apply ofChar?_eq_none <;> rintro rfl <;> simp [Char.isDigit] at hdigit

/-! ## Forms -/

namespace Ty

variable {R R' : Nat → Nat → Prop} {name name' : Nat → String} {t u : Ty} {text : List Char}
  {ls ls' : List Lexeme}

/-- The types have the same form, and variables that stand at the same place are related. -/
inductive Congruent (R : Nat → Nat → Prop) : Ty → Ty → Prop where
  | unit : Congruent R .unit .unit
  | var {v w : Nat} (h : R v w) : Congruent R (.var v) (.var w)
  | arrow {p r p' r' : Ty} (hp : Congruent R p p') (hr : Congruent R r r') :
      Congruent R (.arrow p r) (.arrow p' r')

theorem Congruent.imp (h : t.Congruent R u) (hR : ∀ v ∈ t.vars, ∀ w ∈ u.vars, R v w → R' v w) :
    t.Congruent R' u := by
  induction h with
  | unit => exact .unit
  | @var v w h => exact .var (hR v (by simp [vars]) w (by simp [vars]) h)
  | arrow _ _ ihp ihr =>
      refine .arrow (ihp fun v hv w hw => ?_) (ihr fun v hv w hw => ?_)
      · exact hR v (List.mem_append_left _ hv) w (List.mem_append_left _ hw)
      · exact hR v (List.mem_append_right _ hv) w (List.mem_append_right _ hw)

/-- Every variable of the first type has a counterpart in the second one. -/
theorem Congruent.exists_right (h : t.Congruent R u) {v : Nat} (hv : v ∈ t.vars) :
    ∃ w ∈ u.vars, R v w := by
  induction h with
  | unit => simp [vars] at hv
  | @var v' w h =>
      obtain rfl : v = v' := by simpa [vars] using hv
      exact ⟨w, by simp [vars], h⟩
  | arrow _ _ ihp ihr =>
      rcases List.mem_append.mp hv with hv | hv
      · obtain ⟨w, hw, hR⟩ := ihp hv
        exact ⟨w, List.mem_append_left _ hw, hR⟩
      · obtain ⟨w, hw, hR⟩ := ihr hv
        exact ⟨w, List.mem_append_right _ hw, hR⟩

theorem Congruent.symm (h : t.Congruent R u) : u.Congruent (fun w v => R v w) t := by
  induction h with
  | unit => exact .unit
  | var h => exact .var h
  | arrow _ _ ihp ihr => exact .arrow ihp ihr

/-- What the variables of the types are mapped to, if related variables are mapped to the same. -/
theorem Congruent.map_vars {α : Type} {f g : Nat → α} (h : t.Congruent (fun v w => g w = f v) u) :
    u.vars.map g = t.vars.map f := by
  induction h with
  | unit => rfl
  | var h => simp [vars, h]
  | arrow _ _ ihp ihr => simp [vars, ihp, ihr]

/-! ## Lexemes of types -/

/-- The lexemes of a type's text. -/
def lexemes (name : Nat → String) : Ty → (atomic : Bool) → List Lexeme
  | .unit, _ => [.opening, .closing]
  | .var v, _ => [.word (name v)]
  | .arrow p r, atomic =>
    enclose atomic (p.lexemes name true ++ .blank :: .word "->" :: .blank :: r.lexemes name false)
  | .absent, _ => [.word "<nil>"]

theorem scan_renderAt (hname : ∀ v, IsWord (name v)) (t : Ty) (atomic : Bool)
    (htext : Delimits text) :
    scan ((t.renderAt name atomic).toList ++ text) = t.lexemes name atomic ++ scan text := by
  induction t generalizing atomic text with
  | unit =>
      rw [renderAt, lexemes]
      rfl
  | var v => exact scan_word (hname v) htext
  | arrow p r ihp ihr =>
      refine scan_enclose atomic htext fun text htext => ?_
      simp only [String.toList_append, List.append_assoc]
      refine (ihp true delimits_blank).trans ?_
      rw [List.cons_append, List.cons_append, List.cons_append, ← ihr false htext]
      rfl
  | absent =>
      rw [renderAt, lexemes]
      exact scan_word (by decide) htext

theorem lexemes_arrow_true (p r : Ty) :
    (Ty.arrow p r).lexemes name true =
      .opening :: ((Ty.arrow p r).lexemes name false ++ [.closing]) := rfl

theorem lexemes_ne_closing (ht : t.Complete) (atomic : Bool) :
    t.lexemes name atomic ++ ls ≠ .closing :: ls' := by
  induction t generalizing atomic ls with
  | unit | var => simp [lexemes]
  | arrow p r ihp _ =>
      cases atomic with
      | true => simp [lexemes, enclose]
      | false =>
          simp only [lexemes, enclose, Bool.false_eq_true, if_false, List.append_assoc]
          exact ihp ht.1 true
  | absent => exact ht.elim

/-- The lexemes of the type are read in one way: as a whole up to where no arrow follows, and as a
parameter. -/
structure Determined (name name' : Nat → String) (t : Ty) : Prop where
  whole : ∀ (u : Ty) (ls ls' : List Lexeme), u.Complete → ls.head? ≠ some .blank →
    ls'.head? ≠ some .blank → t.lexemes name false ++ ls = u.lexemes name' false ++ ls' →
    t.Congruent (fun v w => name v = name' w) u ∧ ls = ls'
  part : ∀ (u : Ty) (ls ls' : List Lexeme), u.Complete →
    t.lexemes name true ++ ls = u.lexemes name' true ++ ls' →
    t.Congruent (fun v w => name v = name' w) u ∧ ls = ls'

/-- What is not an arrow has the same lexemes everywhere. It is read as a whole if it is read as a
parameter. -/
theorem determined_of_part (htrue : t.lexemes name true = t.lexemes name false)
    (hpart : ∀ (u : Ty) (ls ls' : List Lexeme), u.Complete →
      t.lexemes name true ++ ls = u.lexemes name' true ++ ls' →
      t.Congruent (fun v w => name v = name' w) u ∧ ls = ls') : Determined name name' t where
  part := hpart
  whole u ls ls' hu hls _ h := by
    rw [← htrue] at h
    cases u with
    | unit | var => exact hpart _ ls ls' hu h
    | arrow p r =>
        simp only [lexemes, enclose, Bool.false_eq_true, if_false, List.append_assoc] at h
        obtain ⟨-, rfl⟩ := hpart p ls _ hu.1 h
        exact absurd rfl hls
    | absent => exact hu.elim

theorem determined_unit : Determined name name' .unit := by
  refine determined_of_part rfl fun u ls ls' hu h => ?_
  cases u with
  | unit =>
      simp only [lexemes, List.cons_append, List.nil_append, List.cons.injEq, true_and] at h
      exact ⟨.unit, h⟩
  | var => simp [lexemes] at h
  | arrow p r =>
      simp only [lexemes, enclose, if_true, List.cons_append, List.nil_append, List.cons.injEq,
        true_and, List.append_assoc] at h
      exact absurd h.symm (lexemes_ne_closing hu.1 true)
  | absent => exact hu.elim

theorem determined_var (v : Nat) : Determined name name' (.var v) := by
  refine determined_of_part rfl fun u ls ls' hu h => ?_
  cases u with
  | var w =>
      simp only [lexemes, List.cons_append, List.nil_append, List.cons.injEq, word.injEq] at h
      exact ⟨.var h.1, h.2⟩
  | unit => simp [lexemes] at h
  | arrow => simp [lexemes, enclose] at h
  | absent => exact hu.elim

theorem Determined.arrow {p r : Ty} (hp : Determined name name' p) (hr : Determined name name' r)
    (ht : (Ty.arrow p r).Complete) : Determined name name' (.arrow p r) := by
  have hwhole : ∀ (u : Ty) (ls ls' : List Lexeme), u.Complete → ls.head? ≠ some .blank →
      ls'.head? ≠ some .blank →
      (Ty.arrow p r).lexemes name false ++ ls = u.lexemes name' false ++ ls' →
      (Ty.arrow p r).Congruent (fun v w => name v = name' w) u ∧ ls = ls' := by
    intro u ls ls' hu hls hls' h
    simp only [lexemes, enclose, Bool.false_eq_true, if_false, List.append_assoc,
      List.cons_append] at h
    cases u with
    | unit | var =>
        -- the parameter would be all of the other type, and an arrow would follow it
        obtain ⟨-, rfl⟩ := hp.part _ _ ls' hu h
        exact absurd rfl hls'
    | arrow p' r' =>
        simp only [lexemes, enclose, Bool.false_eq_true, if_false, List.append_assoc,
          List.cons_append] at h
        obtain ⟨hparam, hrest⟩ := hp.part p' _ _ hu.1 h
        simp only [List.cons.injEq, true_and] at hrest
        obtain ⟨hret, rfl⟩ := hr.whole r' ls ls' hu.2 hls hls' hrest
        exact ⟨.arrow hparam hret, rfl⟩
    | absent => exact hu.elim
  refine ⟨hwhole, fun u ls ls' hu h => ?_⟩
  cases u with
  | unit =>
      simp only [lexemes, enclose, if_true, List.cons_append, List.nil_append, List.cons.injEq,
        true_and, List.append_assoc] at h
      exact absurd h (lexemes_ne_closing ht.1 true)
  | var => simp [lexemes, enclose] at h
  | arrow p' r' =>
      simp only [lexemes_arrow_true, List.cons_append, List.append_assoc, List.cons.injEq,
        true_and, List.nil_append] at h
      obtain ⟨hcongruent, hrest⟩ := hwhole _ _ _ hu (by simp) (by simp) h
      exact ⟨hcongruent, (List.cons.inj hrest).2⟩
  | absent => exact hu.elim

theorem Complete.determined (ht : t.Complete) : Determined name name' t := by
  induction t with
  | unit => exact determined_unit
  | var v => exact determined_var v
  | arrow p r ihp ihr => exact (ihp ht.1).arrow (ihr ht.2) ht
  | absent => exact ht.elim

theorem Congruent.renderAt_eq (h : t.Congruent (fun v w => name v = name' w) u) (atomic : Bool) :
    t.renderAt name atomic = u.renderAt name' atomic := by
  induction h generalizing atomic with
  | unit => simp only [renderAt]
  | var h => simpa only [renderAt] using h
  | arrow _ _ ihp ihr => simp only [renderAt, ihp true, ihr false]

/-- Types have the same text exactly if they have the same form and the same names in it. -/
theorem renderAt_eq_iff (hname : ∀ v, IsWord (name v)) (hname' : ∀ v, IsWord (name' v))
    (ht : t.Complete) (hu : u.Complete) :
    t.renderAt name false = u.renderAt name' false ↔
      t.Congruent (fun v w => name v = name' w) u := by
  constructor
  · intro h
    have hscan : scan ((t.renderAt name false).toList ++ []) =
        scan ((u.renderAt name' false).toList ++ []) := by rw [h]
    rw [scan_renderAt hname t false delimits_nil,
      scan_renderAt hname' u false delimits_nil] at hscan
    exact (ht.determined.whole u _ _ hu (by simp [scan]) (by simp [scan]) hscan).1
  · exact fun h => h.renderAt_eq false

end Ty

end LetPoly
