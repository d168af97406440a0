/-! # Lexemes

A text is cut at blanks and parentheses. What stands between two of them is a word.
-/

namespace LetPoly

/-- A piece of a text. -/
inductive Lexeme where
  | blank
  | opening
  | closing
  | word (w : String)
  deriving DecidableEq

namespace Lexeme

variable {cs text : List Char} {w : String} {ls : List Lexeme}

/-- The lexeme that a character is by itself. -/
def ofChar? : Char → Option Lexeme
  | ' ' => some .blank
  | '(' => some .opening
  | ')' => some .closing
  | _ => none

/-- A character of a word, with the lexemes after it. -/
def cons (c : Char) : List Lexeme → List Lexeme
  | .word w :: ls => .word (String.singleton c ++ w) :: ls
  | ls => .word (String.singleton c) :: ls

/-- The lexemes of a text. -/
def scan : List Char → List Lexeme
  | [] => []
  | c :: cs =>
    match ofChar? c with
    | some l => l :: scan cs
    | none => cons c (scan cs)

/-- Lexemes, in parentheses if `b`. -/
def enclose (b : Bool) (ls : List Lexeme) : List Lexeme :=
  if b then .opening :: (ls ++ [.closing]) else ls

/-- The text is one word. -/
structure IsWord (w : String) : Prop where
  nonempty : w.toList ≠ []
  plain : ∀ c ∈ w.toList, ofChar? c = none

-- stated with `all`, since a quantifier over characters may also be decided by going through all
-- characters that there are
instance (w : String) : Decidable (IsWord w) :=
  decidable_of_iff (w.toList ≠ [] ∧ w.toList.all fun c => (ofChar? c).isNone)
    ⟨fun ⟨hne, hall⟩ => ⟨hne, by simpa using hall⟩,
      fun ⟨hne, hplain⟩ => ⟨hne, by simpa using hplain⟩⟩

/-- A word that stands before the text ends there. -/
def Delimits (text : List Char) : Prop :=
  ∀ c ∈ text.head?, (ofChar? c).isSome

theorem delimits_nil : Delimits [] := nofun

theorem delimits_blank : Delimits (' ' :: text) := by
  rintro c ⟨⟩
  rfl

theorem delimits_closing : Delimits (')' :: text) := by
  rintro c ⟨⟩
  rfl

theorem ofChar?_eq_none {c : Char} (hblank : c ≠ ' ') (hopening : c ≠ '(') (hclosing : c ≠ ')') :
    ofChar? c = none := by
  unfold ofChar?
  split <;> simp_all

theorem scan_ne_word (htext : Delimits text) : scan text ≠ .word w :: ls := by
  cases text with
  | nil => simp [scan]
  | cons c cs =>
      obtain ⟨l, hl⟩ := Option.isSome_iff_exists.mp (htext c rfl)
      intro heq
      simp only [scan, hl] at heq
      obtain ⟨rfl, -⟩ := List.cons.inj heq
      unfold ofChar? at hl
      split at hl <;> cases hl

theorem scan_append (hne : cs ≠ []) (hcs : ∀ c ∈ cs, ofChar? c = none) (htext : Delimits text) :
    scan (cs ++ text) = .word (String.ofList cs) :: scan text := by
  induction cs with
  | nil => exact absurd rfl hne
  | cons c cs ih =>
      rw [List.forall_mem_cons] at hcs
      rw [List.cons_append]
      simp only [scan, hcs.1]
      cases cs with
      | nil =>
          rw [List.nil_append, String.ofList_cons, String.ofList_nil, String.append_empty]
          unfold cons
          split
          · rename_i w ls heq
            exact absurd heq (scan_ne_word htext)
          · rfl
      | cons d ds => rw [ih (by simp) hcs.2, cons, ← String.ofList_cons]

theorem scan_word (hw : IsWord w) (htext : Delimits text) :
    scan (w.toList ++ text) = .word w :: scan text := by
  rw [scan_append hw.nonempty hw.plain htext, String.ofList_toList]

/-- A word in front of a blank. -/
theorem scan_word_blank (hw : IsWord w) :
    scan (w.toList ++ ' ' :: text) = .word w :: .blank :: scan text :=
  scan_word hw delimits_blank

/-- What holds of a text by itself holds of it in parentheses. -/
theorem scan_enclose (b : Bool) {s : String} (htext : Delimits text)
    (h : ∀ text, Delimits text → scan (s.toList ++ text) = ls ++ scan text) :
    scan ((if b then "(" ++ s ++ ")" else s).toList ++ text) = enclose b ls ++ scan text := by
  cases b with
  | false => exact h text htext
  | true =>
      have hinner := h (')' :: text) delimits_closing
      simp only [enclose, if_true, String.toList_append, List.append_assoc, List.cons_append,
        List.nil_append]
      change .opening :: scan (s.toList ++ ')' :: text) = _
      rw [hinner]
      rfl

end Lexeme

end LetPoly
