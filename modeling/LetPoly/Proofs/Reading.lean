import LetPoly.Expr.Printer
import LetPoly.Proofs.Lexemes

/-! # Reading expressions

The text of an expression can be read back, from left to right and without looking ahead: what has
been begun is kept on a stack. So different expressions have different texts, as long as their names
can be told from the other words.
-/

namespace LetPoly.Expr

open Lexeme

variable {e f a : Expr} {x : String} {text : List Char} {ls : List Lexeme}

/-! ## Expressions with a text of their own -/

/-- A name that is one word and no keyword. -/
structure IsName (x : String) : Prop where
  nonempty : x ≠ ""
  plain : ∀ c ∈ x.toList, c ≠ ' ' ∧ c ≠ '(' ∧ c ≠ ')'
  ne_fun : x ≠ "fun"
  ne_let : x ≠ "let"
  ne_in : x ≠ "in"

instance (x : String) : Decidable (IsName x) :=
  decidable_of_iff (x ≠ "" ∧ (x.toList.all fun c => c ≠ ' ' ∧ c ≠ '(' ∧ c ≠ ')') ∧
      x ≠ "fun" ∧ x ≠ "let" ∧ x ≠ "in")
    ⟨fun ⟨hne, hall, hfun, hlet, hin⟩ => ⟨hne, by simpa using hall, hfun, hlet, hin⟩,
      fun ⟨hne, hplain, hfun, hlet, hin⟩ => ⟨hne, by simpa using hplain, hfun, hlet, hin⟩⟩

/-- The expression has only forms of the calculus, and its names are proper ones. -/
def Legible : Expr → Prop
  | unit => True
  | var x => IsName x
  | lam x body => IsName x ∧ body.Legible
  | call f a => f.Legible ∧ a.Legible
  | letIn x value body => IsName x ∧ value.Legible ∧ body.Legible
  | absent | foreign _ => False

instance decidableLegible : (e : Expr) → Decidable e.Legible
  | unit => inferInstanceAs (Decidable True)
  | var x => inferInstanceAs (Decidable (IsName x))
  | lam x body =>
    have := decidableLegible body
    inferInstanceAs (Decidable (IsName x ∧ body.Legible))
  | call f a =>
    have := decidableLegible f
    have := decidableLegible a
    inferInstanceAs (Decidable (f.Legible ∧ a.Legible))
  | letIn x value body =>
    have := decidableLegible value
    have := decidableLegible body
    inferInstanceAs (Decidable (IsName x ∧ value.Legible ∧ body.Legible))
  | absent | foreign _ => inferInstanceAs (Decidable False)

theorem IsName.isWord (h : IsName x) : IsWord x where
  nonempty hnil := h.nonempty (String.toList_eq_nil_iff.mp hnil)
  plain c hc := by
    obtain ⟨hblank, hopening, hclosing⟩ := h.plain c hc
    exact ofChar?_eq_none hblank hopening hclosing

/-- The lexemes of an expression's text. -/
def lexemes : Expr → (atomic : Bool) → List Lexeme
  | unit, _ => [.opening, .closing]
  | var x, _ => [.word x]
  | lam x body, atomic =>
    enclose atomic (.word "fun" :: .blank :: .word x :: .blank :: .word "->" :: .blank ::
      body.lexemes false)
  | call f a, atomic => enclose atomic (f.lexemes (!f.isCallee) ++ .blank :: a.lexemes true)
  | letIn x value body, atomic =>
    enclose atomic (.word "let" :: .blank :: .word x :: .blank :: .word "=" :: .blank ::
      (value.lexemes false ++ .blank :: .word "in" :: .blank :: body.lexemes false))
  | absent, _ | foreign _, _ => []

/-- What stands between a keyword and what is bound to the name. -/
theorem scan_header (keyword sign : String) (hkeyword : IsWord keyword) (hx : IsName x)
    (hsign : IsWord sign) (text : List Char) :
    scan (keyword.toList ++ ' ' :: (x.toList ++ ' ' :: (sign.toList ++ ' ' :: text))) =
      .word keyword :: .blank :: .word x :: .blank :: .word sign :: .blank :: scan text := by
  rw [scan_word_blank hkeyword, scan_word_blank hx.isWord, scan_word_blank hsign]

/-- The lexemes of the text are those of the expression. -/
theorem scan_renderAt (he : e.Legible) (atomic : Bool) (htext : Delimits text) :
    scan ((e.renderAt atomic).toList ++ text) = e.lexemes atomic ++ scan text := by
  induction e generalizing atomic text with
  | unit => cases atomic <;> rfl
  | var x => exact scan_word (IsName.isWord he) htext
  | lam x body ih =>
      refine scan_enclose atomic htext fun text htext => ?_
      simp only [String.toList_append, List.append_assoc]
      refine (scan_header "fun" "->" (by decide) he.1 (by decide)
        ((body.renderAt false).toList ++ text)).trans ?_
      rw [ih he.2 false htext]
      rfl
  | call f a ihf iha =>
      refine scan_enclose atomic htext fun text htext => ?_
      simp only [String.toList_append, List.append_assoc]
      refine (ihf he.1 _ delimits_blank).trans ?_
      rw [List.cons_append, ← iha he.2 true htext]
      rfl
  | letIn x value body ihv ihb =>
      refine scan_enclose atomic htext fun text htext => ?_
      let rest := " in ".toList ++ ((body.renderAt false).toList ++ text)
      have hvalue : scan ((value.renderAt false).toList ++ rest) =
          value.lexemes false ++ scan rest := ihv he.2.1 false delimits_blank
      have hrest : scan rest =
          .blank :: .word "in" :: .blank :: (body.lexemes false ++ scan text) := by
        rw [← ihb he.2.2 false htext]
        rfl
      simp only [String.toList_append, List.append_assoc]
      refine (scan_header "let" "=" (by decide) he.1 (by decide)
        ((value.renderAt false).toList ++ rest)).trans ?_
      rw [hvalue, hrest]
      simp only [List.cons_append, List.append_assoc]
  | absent | foreign => exact he.elim

/-! ## The reader -/

/-- What has been begun and not ended. -/
inductive Frame where
  /-- A parenthesis, after the call that goes on behind it. -/
  | group (outer : Option Expr)
  /-- The body of a function. -/
  | body (x : String)
  /-- The value of a `let`. -/
  | value (x : String)
  /-- The body of a `let`. -/
  | rest (x : String) (value : Expr)

/-- Add an argument to a call, or begin one. -/
def extend : Option Expr → Expr → Option Expr
  | none, e => some e
  | some f, e => some (call f e)

/-- End all functions and `let`s whose body ends here. -/
def finish : List Frame → Option Expr → List Frame × Option Expr
  | .body x :: frames, some e => finish frames (some (lam x e))
  | .rest x value :: frames, some e => finish frames (some (letIn x value e))
  | frames, current => (frames, current)

/-- Read on from what has been begun and the call that has been read since. -/
def readFrom : List Frame → Option Expr → List Lexeme → Option Expr
  | frames, current, [] =>
    match finish frames current with
    | ([], current) => current
    | _ => none
  | frames, current, .blank :: ls => readFrom frames current ls
  | frames, current, .opening :: ls => readFrom (.group current :: frames) none ls
  | frames, current, .closing :: ls =>
    match finish frames current with
    | (.group outer :: frames, current) => readFrom frames (extend outer (current.getD unit)) ls
    | _ => none
  | frames, current, .word w :: ls =>
    if w = "fun" then
      match ls with
      | .blank :: .word x :: .blank :: .word _ :: ls => readFrom (.body x :: frames) none ls
      | _ => none
    else if w = "let" then
      match ls with
      | .blank :: .word x :: .blank :: .word _ :: ls => readFrom (.value x :: frames) none ls
      | _ => none
    else if w = "in" then
      match finish frames current with
      | (.value x :: frames, some value) => readFrom (.rest x value :: frames) none ls
      | _ => none
    else readFrom frames (extend current (var w)) ls

/-- Read the text of an expression. -/
def read? (text : String) : Option Expr :=
  readFrom [] none (scan text.toList)

/-- The lexemes that can follow an expression without parentheses. -/
inductive Ends : List Lexeme → Prop where
  | done : Ends []
  | closing (ls : List Lexeme) : Ends (.closing :: ls)
  | bound (ls : List Lexeme) : Ends (.blank :: .word "in" :: ls)

variable {frames : List Frame} {current : Option Expr}

theorem readFrom_in :
    readFrom frames current (.word "in" :: ls) =
      match finish frames current with
      | (.value x :: frames, some value) => readFrom (.rest x value :: frames) none ls
      | _ => none := by
  rw [readFrom.eq_def]
  rfl

/-- An expression that ends here also ends the bodies that it stands in. -/
theorem readFrom_of_finish {frames' : List Frame} {current' : Option Expr}
    (h : finish frames current = finish frames' current') (hls : Ends ls) :
    readFrom frames current ls = readFrom frames' current' ls := by
  cases hls with
  | done | closing => simp only [readFrom, h]
  | bound => simp only [readFrom, readFrom_in, h]

theorem readFrom_name (hx : IsName x) :
    readFrom frames current (.word x :: ls) = readFrom frames (extend current (var x)) ls := by
  rw [readFrom.eq_def]
  simp [hx.ne_fun, hx.ne_let, hx.ne_in]

theorem readFrom_enclose {inner : List Lexeme}
    (h : ∀ frames ls, Ends ls → readFrom frames none (inner ++ ls) = readFrom frames (some e) ls) :
    readFrom frames current (enclose true inner ++ ls) = readFrom frames (extend current e) ls := by
  have hinner := h (.group current :: frames) (.closing :: ls) (.closing ls)
  simp only [enclose, if_true, List.cons_append, List.append_assoc, List.nil_append, readFrom,
    finish, Option.getD_some] at hinner ⊢
  exact hinner

/-- The reader gets the expression from its lexemes: at the beginning of an expression up to its
end, as a part of a call, and as the function of a call. -/
structure ReadsBack (e : Expr) : Prop where
  whole : ∀ frames ls, Ends ls →
    readFrom frames none (e.lexemes false ++ ls) = readFrom frames (some e) ls
  part : ∀ frames current ls,
    readFrom frames current (e.lexemes true ++ ls) = readFrom frames (extend current e) ls
  callee : ∀ frames ls,
    readFrom frames none (e.lexemes (!e.isCallee) ++ ls) = readFrom frames (some e) ls

theorem readsBack_unit : ReadsBack unit where
  whole _ _ _ := rfl
  part _ _ _ := rfl
  callee _ _ := rfl

theorem readsBack_var (hx : IsName x) : ReadsBack (var x) where
  whole _ _ _ := readFrom_name hx
  part _ _ _ := readFrom_name hx
  callee _ _ := readFrom_name hx

theorem ReadsBack.lam {body : Expr} (h : ReadsBack body) : ReadsBack (lam x body) := by
  have hwhole : ∀ frames ls, Ends ls →
      readFrom frames none ((Expr.lam x body).lexemes false ++ ls) =
        readFrom frames (some (.lam x body)) ls := by
    intro frames ls hls
    calc readFrom frames none ((Expr.lam x body).lexemes false ++ ls)
        = readFrom (.body x :: frames) none (body.lexemes false ++ ls) := rfl
      _ = readFrom (.body x :: frames) (some body) ls := h.whole _ _ hls
      _ = readFrom frames (some (.lam x body)) ls := readFrom_of_finish rfl hls
  exact ⟨hwhole, fun _ _ _ => readFrom_enclose hwhole, fun _ _ => readFrom_enclose hwhole⟩

theorem ReadsBack.call (hf : ReadsBack f) (ha : ReadsBack a) : ReadsBack (call f a) := by
  have hcallee : ∀ frames ls,
      readFrom frames none ((Expr.call f a).lexemes false ++ ls) =
        readFrom frames (some (.call f a)) ls := by
    intro frames ls
    calc readFrom frames none ((Expr.call f a).lexemes false ++ ls)
        = readFrom frames none (f.lexemes (!f.isCallee) ++ .blank :: (a.lexemes true ++ ls)) := by
          simp [lexemes, enclose]
      _ = readFrom frames (some f) (a.lexemes true ++ ls) := hf.callee _ _
      _ = readFrom frames (some (.call f a)) ls := ha.part _ _ _
  have hwhole : ∀ frames ls, Ends ls →
      readFrom frames none ((Expr.call f a).lexemes false ++ ls) =
        readFrom frames (some (.call f a)) ls := fun frames ls _ => hcallee frames ls
  exact ⟨hwhole, fun _ _ _ => readFrom_enclose hwhole, hcallee⟩

theorem ReadsBack.letIn {value body : Expr} (hvalue : ReadsBack value) (hbody : ReadsBack body) :
    ReadsBack (letIn x value body) := by
  have hwhole : ∀ frames ls, Ends ls →
      readFrom frames none ((Expr.letIn x value body).lexemes false ++ ls) =
        readFrom frames (some (.letIn x value body)) ls := by
    intro frames ls hls
    let rest := Lexeme.blank :: .word "in" :: .blank :: (body.lexemes false ++ ls)
    calc readFrom frames none ((Expr.letIn x value body).lexemes false ++ ls)
        = readFrom (.value x :: frames) none (value.lexemes false ++ rest) := by
          simp [lexemes, enclose, readFrom, rest]
      _ = readFrom (.value x :: frames) (some value) rest := hvalue.whole _ _ (.bound _)
      _ = readFrom (.rest x value :: frames) none (body.lexemes false ++ ls) := by
          simp only [readFrom, readFrom_in, finish, rest]
      _ = readFrom (.rest x value :: frames) (some body) ls := hbody.whole _ _ hls
      _ = readFrom frames (some (.letIn x value body)) ls := readFrom_of_finish rfl hls
  exact ⟨hwhole, fun _ _ _ => readFrom_enclose hwhole, fun _ _ => readFrom_enclose hwhole⟩

theorem Legible.readsBack (he : e.Legible) : ReadsBack e := by
  induction e with
  | unit => exact readsBack_unit
  | var x => exact readsBack_var he
  | lam x body ih => exact (ih he.2).lam
  | call f a ihf iha => exact (ihf he.1).call (iha he.2)
  | letIn x value body ihv ihb => exact (ihv he.2.1).letIn (ihb he.2.2)
  | absent | foreign => exact he.elim

/-- Reading the text of an expression gives the expression. -/
theorem read?_render (he : e.Legible) : read? e.render = some e := by
  have hscan : scan e.render.toList = e.lexemes false := by
    have hscan := scan_renderAt he false delimits_nil
    rwa [List.append_nil, scan, List.append_nil] at hscan
  have hread := he.readsBack.whole [] [] .done
  rw [List.append_nil] at hread
  rw [read?, hscan, hread]
  rfl

/-- Two expressions have the same text only if they are the same. -/
theorem render_eq_iff (e₁ e₂ : Expr) (h₁ : e₁.Legible) (h₂ : e₂.Legible) :
    e₁.render = e₂.render ↔ e₁ = e₂ := by
  constructor
  · intro h
    have hread := read?_render h₁
    rw [h, read?_render h₂] at hread
    exact (Option.some.inj hread).symm
  · exact congrArg render

/-- A function that is called with what it gives itself. -/
def nestedCall : Expr :=
  letIn "f" (lam "x" (var "x")) (call (var "f") (call (var "f") unit))

/-- A function that is called with itself, and the result called again. -/
def chainedCall : Expr :=
  letIn "f" (lam "x" (var "x")) (call (call (var "f") (var "f")) unit)

/-- The texts differ in the place of the parentheses only. -/
theorem render_eq_iff_nested :
    nestedCall.Legible ∧ nestedCall.render = "let f = fun x -> x in f (f ())" ∧
    chainedCall.Legible ∧ chainedCall.render = "let f = fun x -> x in f f ()" ∧
    nestedCall.render ≠ chainedCall.render := by
  have hnested : nestedCall.Legible := by decide
  have hchained : chainedCall.Legible := by decide
  refine ⟨hnested, rfl, hchained, rfl, ?_⟩
  intro htexts
  exact absurd ((render_eq_iff nestedCall chainedCall hnested hchained).mp htexts) (by decide)

end LetPoly.Expr
