import LetPoly.Proofs.Balance
import LetPoly.Proofs.Binding

/-! # The first failure

Inference goes through the occurrences in an expression from left to right, parts before the whole.
A run that fails reports the first occurrence that fails at its own step, after everything before it
has got a type.
-/

namespace LetPoly

open Store

/-! ## Occurrences -/

namespace Expr

/-- A way down into an expression. -/
inductive Branch where
  | func
  | arg
  | value
  | body
  deriving DecidableEq

/-- The part of an expression on a branch. -/
def part? : Expr → Branch → Option Expr
  | .lam _ body, .body => some body
  | .call f _, .func => some f
  | .call _ a, .arg => some a
  | .letIn _ value _, .value => some value
  | .letIn _ _ body, .body => some body
  | _, _ => none

/-- The part of an expression at the end of a path. -/
def at? : List Branch → Expr → Option Expr
  | [], e => some e
  | b :: path, e => (e.part? b).bind (at? path)

/-- The paths to all occurrences in an expression, in the order in which they are evaluated. -/
def occurrences : Expr → List (List Branch)
  | .unit | .var _ | .absent | .foreign _ => [[]]
  | .lam _ body => body.occurrences.map (.body :: ·) ++ [[]]
  | .call f a => f.occurrences.map (.func :: ·) ++ a.occurrences.map (.arg :: ·) ++ [[]]
  | .letIn _ value body =>
    value.occurrences.map (.value :: ·) ++ body.occurrences.map (.body :: ·) ++ [[]]

/-- The names of the binders that have the end of the path in their scope. The name of a local
definition is bound in its body only. -/
def binders : List Branch → Expr → List String
  | .body :: path, .lam x body => x :: body.binders path
  | .func :: path, .call f _ => f.binders path
  | .arg :: path, .call _ a => a.binders path
  | .value :: path, .letIn _ value _ => value.binders path
  | .body :: path, .letIn x _ body => x :: body.binders path
  | _, _ => []

/-- The expression is built from the forms of the calculus. -/
def Core : Expr → Prop
  | .unit | .var _ => True
  | .lam _ body => body.Core
  | .call f a => f.Core ∧ a.Core
  | .letIn _ value body => value.Core ∧ body.Core
  | .absent | .foreign _ => False

variable {e e' : Expr} {x : String} {path : List Branch}

theorem Core.of_part {b : Branch} (h : e.Core) (hpart : e.part? b = some e') : e'.Core := by
  cases e with
  | unit | var | absent | foreign => cases b <;> cases hpart
  | lam y body =>
      cases b <;> cases hpart
      exact h
  | call f a =>
      cases b <;> cases hpart
      · exact h.1
      · exact h.2
  | letIn y value body =>
      cases b <;> cases hpart
      · exact h.1
      · exact h.2

theorem Core.of_at (h : e.Core) (hat : e.at? path = some e') : e'.Core := by
  induction path generalizing e with
  | nil =>
      cases hat
      exact h
  | cons b path ih =>
      obtain ⟨part, hpart, hat⟩ := Option.bind_eq_some_iff.mp hat
      exact ih (h.of_part hpart) hat

/-- A name that no binder around it binds is free. -/
theorem mem_freeNames_of_at (hat : e.at? path = some (.var x)) (hx : x ∉ e.binders path) :
    x ∈ e.freeNames := by
  induction path generalizing e with
  | nil =>
      cases hat
      exact List.mem_singleton_self x
  | cons b path ih =>
      obtain ⟨part, hpart, hat⟩ := Option.bind_eq_some_iff.mp hat
      cases e with
      | unit | var | absent | foreign => cases b <;> cases hpart
      | lam y body =>
          cases b <;> cases hpart
          obtain ⟨hne, hx⟩ := List.ne_and_not_mem_of_not_mem_cons hx
          exact List.mem_filter.mpr ⟨ih hat hx, by simpa using hne⟩
      | call f a =>
          cases b <;> cases hpart
          · exact List.mem_append_left _ (ih hat hx)
          · exact List.mem_append_right _ (ih hat hx)
      | letIn y value body =>
          cases b <;> cases hpart
          · exact List.mem_append_left _ (ih hat hx)
          · obtain ⟨hne, hx⟩ := List.ne_and_not_mem_of_not_mem_cons hx
            exact List.mem_append_right _ (List.mem_filter.mpr ⟨ih hat hx, by simpa using hne⟩)

end Expr

/-! ## Parts of a run -/

theorem Scope.ne_and_none_of_insert {G : Scope} {x y : String} {σ : Scheme}
    (h : (G.insert y σ)[x]? = none) : x ≠ y ∧ G[x]? = none := by
  rw [getElem?_insert] at h
  by_cases hx : x = y
  · simp [hx] at h
  · exact ⟨hx, by simpa [hx] using h⟩

namespace Query

open LetPoly.Expr (Branch)

/-- The query that inference starts for a part, if it comes to the part. -/
def part? : Query → Branch → Option Query
  | ⟨.lam x e, G, st⟩, .body =>
    some ⟨e, G.insert x (.mono (.var st.store.size)), st.afterFresh⟩
  | ⟨.call f _, G, st⟩, .func => some ⟨f, G, st⟩
  | ⟨.call f a, G, st⟩, .arg =>
    match infer f G st with
    | .ok _ st₁ => some ⟨a, G, st₁⟩
    | .error _ _ => none
  | ⟨.letIn _ e _, G, st⟩, .value => some ⟨e, G, st.atLevel (st.supply.level + 1)⟩
  | ⟨.letIn x e e', G, st⟩, .body =>
    match atNextLevel (infer e G) st with
    | .ok t st₁ => some ⟨e', G.insert x (st₁.store.generalizeAt st₁.supply.level t), st₁⟩
    | .error _ _ => none
  | _, _ => none

/-- The query that inference starts for the occurrence at the end of a path, if it comes to it. -/
def at? : List Branch → Query → Option Query
  | [], k => some k
  | b :: path, k => (k.part? b).bind (at? path)

/-- Inference comes to the occurrence and gives it the type. -/
def Infers (k : Query) (path : List Branch) (t : Ty) : Prop :=
  ∃ k' st, k.at? path = some k' ∧ infer k'.expr k'.scope k'.state = .ok t st

/-- Inference comes to all of the occurrences and gives each a type. -/
def InfersAll (k : Query) (paths : List (List Branch)) : Prop :=
  ∀ path ∈ paths, ∃ t, k.Infers path t

/-- Inference comes to the occurrence, whose own step fails. -/
inductive Breaks (k : Query) (path : List Branch) : Failure → Prop where
  /-- A name that no binder around it binds and that is not declared. -/
  | unbound {x : String} {G : Scope} {st : State} (hat : k.at? path = some ⟨.var x, G, st⟩)
      (hbinders : x ∉ k.expr.binders path) (hscope : k.scope[x]? = none) :
      Breaks k path ⟨.unbound x, .var x⟩
  /-- A call whose function and argument have got types that do not fit. -/
  | application {f a : Expr} {G : Scope} {func arg : Ty} {cause : UnifyError} {s' : Store}
      {st st₁ st₂ : State} (hat : k.at? path = some ⟨.call f a, G, st⟩)
      (hfunc : infer f G st = .ok func st₁) (harg : infer a G st₁ = .ok arg st₂)
      (hunify : unify func (.arrow arg (.var st₂.store.size)) st₂.afterFresh.store =
        .error (.error cause) s') :
      Breaks k path ⟨.application func arg cause, .call f a⟩
  /-- A part that was left out. -/
  | absent {G : Scope} {st : State} (hat : k.at? path = some ⟨.absent, G, st⟩) :
      Breaks k path ⟨.unhandled none, .absent⟩
  /-- A form that the calculus does not know. -/
  | foreign {form : String} {G : Scope} {st : State}
      (hat : k.at? path = some ⟨.foreign form, G, st⟩) :
      Breaks k path ⟨.unhandled (some form), .foreign form⟩

/-- The occurrence is the first one to fail: its own step fails, and all before it have got a
type. -/
structure FailsFirst (k : Query) (path : List Branch) (f : Failure) : Prop where
  at_eq : k.expr.at? path = some f.invalid
  earlier : ∃ before after, k.expr.occurrences = before ++ path :: after ∧ k.InfersAll before
  breaks : k.Breaks path f

variable {k k₁ : Query} {b : Branch} {path : List Branch} {paths paths' : List (List Branch)}
  {x : String} {t : Ty} {f : Failure} {st : State}

theorem at?_cons (hpart : k.part? b = some k₁) (path : List Branch) :
    k.at? (b :: path) = k₁.at? path := by
  simp [at?, hpart]

theorem expr_part (hpart : k.part? b = some k₁) : k.expr.part? b = some k₁.expr := by
  revert hpart
  fun_cases part? k b <;> rintro ⟨⟩ <;> rfl

/-- A name that is not in the scope of a part is not bound on the way to it. -/
theorem unbound_of_part (hpart : k.part? b = some k₁) (hbinders : x ∉ k₁.expr.binders path)
    (hscope : k₁.scope[x]? = none) :
    x ∉ k.expr.binders (b :: path) ∧ k.scope[x]? = none := by
  revert hpart
  fun_cases part? k b <;> rintro ⟨⟩
  case case1 | case6 =>
    obtain ⟨hne, hscope⟩ := Scope.ne_and_none_of_insert hscope
    exact ⟨List.not_mem_cons_of_ne_of_not_mem hne hbinders, hscope⟩
  all_goals exact ⟨hbinders, hscope⟩

theorem infersAll_nil (k : Query) : k.InfersAll [] := nofun

theorem InfersAll.append (h : k.InfersAll paths) (h' : k.InfersAll paths') :
    k.InfersAll (paths ++ paths') :=
  List.forall_mem_append.mpr ⟨h, h'⟩

theorem infersAll_here (hrun : infer k.expr k.scope k.state = .ok t st) : k.InfersAll [[]] :=
  List.forall_mem_singleton.mpr ⟨t, k, st, rfl, hrun⟩

theorem InfersAll.branch (h : k₁.InfersAll paths) (hpart : k.part? b = some k₁) :
    k.InfersAll (paths.map (b :: ·)) := by
  refine List.forall_mem_map.mpr fun path hpath => ?_
  obtain ⟨t, k', st, hat, hrun⟩ := h path hpath
  exact ⟨t, k', st, (at?_cons hpart path).trans hat, hrun⟩

theorem Breaks.branch (h : k₁.Breaks path f) (hpart : k.part? b = some k₁) :
    k.Breaks (b :: path) f := by
  have hcons := at?_cons hpart path
  cases h with
  | unbound hat hbinders hscope =>
      obtain ⟨hbinders, hscope⟩ := unbound_of_part hpart hbinders hscope
      exact .unbound (hcons.trans hat) hbinders hscope
  | application hat hfunc harg hunify => exact .application (hcons.trans hat) hfunc harg hunify
  | absent hat => exact .absent (hcons.trans hat)
  | foreign hat => exact .foreign (hcons.trans hat)

/-- The first failure of a part is the first of the whole if all parts before it have got types. -/
theorem FailsFirst.branch {after : List (List Branch)} (h : k₁.FailsFirst path f)
    (hpart : k.part? b = some k₁) (hpaths : k.InfersAll paths)
    (hoccurrences : k.expr.occurrences = paths ++ (k₁.expr.occurrences.map (b :: ·) ++ after)) :
    k.FailsFirst (b :: path) f where
  at_eq := by simp [Expr.at?, expr_part hpart, h.at_eq]
  earlier := by
    obtain ⟨before, rest, hsplit, hbefore⟩ := h.earlier
    exact ⟨paths ++ before.map (b :: ·), rest.map (b :: ·) ++ after,
      by simp [hoccurrences, hsplit], hpaths.append (hbefore.branch hpart)⟩
  breaks := h.breaks.branch hpart

/-- The whole fails at its own step after its parts have got types. -/
theorem Breaks.failsFirst (h : k.Breaks [] f) (hinvalid : k.expr = f.invalid)
    (hpaths : k.InfersAll paths) (hoccurrences : k.expr.occurrences = paths ++ [[]]) :
    k.FailsFirst [] f :=
  ⟨congrArg some hinvalid, ⟨paths, [], hoccurrences, hpaths⟩, h⟩

/-- What inference comes to: all occurrences have got a type, or there is a first one that fails. -/
inductive Report (k : Query) : EStateM.Result (Stop Failure) State Ty → Prop where
  | ok {t : Ty} {st : State} (h : k.InfersAll k.expr.occurrences) : Report k (.ok t st)
  | error {f : Failure} {path : List Branch} {st : State} (h : k.FailsFirst path f) :
      Report k (.error (.error f) st)

/-- A level more or less at the end makes no difference. -/
theorem Report.atNextLevel {act : InferM Ty} {G : Scope} (hpos : 1 ≤ st.supply.level)
    (hout : InferOutcome G (st.atLevel (st.supply.level + 1))
      (act (st.atLevel (st.supply.level + 1))))
    (h : k.Report (act (st.atLevel (st.supply.level + 1)))) :
    k.Report (LetPoly.atNextLevel act st) := by
  rw [atNextLevel_of_outcome hpos hout]
  generalize act (st.atLevel (st.supply.level + 1)) = result at h
  cases h with
  | ok h => exact .ok h
  | error h => exact .error h

end Query

/-! ## One call -/

section Calls

variable {G : Scope} {st st₁ st₂ : State} {x : String} {e e' f a : Expr}

theorem infer_var_report (x : String) (h : G.Usable st) :
    Query.Report ⟨.var x, G, st⟩ (infer (.var x) G st) := by
  cases hx : G[x]? with
  | none =>
      simp only [infer, hx, throw_apply]
      exact .error ((Query.Breaks.unbound rfl List.not_mem_nil hx).failsFirst rfl
        (Query.infersAll_nil _) rfl)
  | some σ =>
      obtain ⟨t, st', w, hinst, -⟩ := instantiate_ok (ε := Failure) h.ready (h.proper σ ⟨x, hx⟩)
      have hrun : infer (.var x) G st = .ok t st' := by simp only [infer, hx, hinst]
      rw [hrun]
      exact .ok (Query.infersAll_here hrun)

theorem infer_lam_report
    (h : Query.Report ⟨e, G.insert x (.mono (.var st.store.size)), st.afterFresh⟩
      (infer e (G.insert x (.mono (.var st.store.size))) st.afterFresh)) :
    Query.Report ⟨.lam x e, G, st⟩ (infer (.lam x e) G st) := by
  generalize hbody : infer e (G.insert x (.mono (.var st.store.size))) st.afterFresh = r at h
  cases h with
  | @ok t st₁ hall =>
      have hrun := infer_lam_eq_ok.mpr ⟨t, hbody, rfl⟩
      rw [hrun]
      exact .ok ((hall.branch rfl).append (Query.infersAll_here hrun))
  | @error failure path st₁ hfirst =>
      have hrun : infer (.lam x e) G st = .error (.error failure) st₁ := by
        simp only [infer, bind_apply, fresh_apply, hbody]
      rw [hrun]
      exact .error (hfirst.branch (b := .body) rfl (Query.infersAll_nil _) rfl)

/-- The step of a call itself, after its function and its argument have got types. -/
theorem infer_apply_report {func arg : Ty} (h : G.Usable st) (hfunc : infer f G st = .ok func st₁)
    (harg : infer a G st₁ = .ok arg st₂)
    (hparts : Query.InfersAll ⟨.call f a, G, st⟩
      (f.occurrences.map (.func :: ·) ++ a.occurrences.map (.arg :: ·))) :
    Query.Report ⟨.call f a, G, st⟩ (infer (.call f a) G st) := by
  match hunify : unify func (.arrow arg (.var st₂.store.size)) st₂.afterFresh.store with
  | .ok _ s' =>
      have hrun := infer_call_eq_ok.mpr
        ⟨func, st₁, arg, st₂, s', hfunc, harg, hunify, rfl, rfl⟩
      rw [hrun]
      exact .ok (hparts.append (Query.infersAll_here hrun))
  | .error (.error cause) s' =>
      simp only [infer, bind_apply, hfunc, harg, fresh_apply, unifyOr_apply, hunify]
      exact .error ((Query.Breaks.application rfl hfunc harg hunify).failsFirst rfl hparts rfl)
  | .error (.fault fault) s' =>
      have hout := infer_outcome (.call f a) h
      simp only [infer, bind_apply, hfunc, harg, fresh_apply, unifyOr_apply, hunify] at hout
      cases hout

theorem infer_call_report (h : G.Usable st) (hf : Query.Report ⟨f, G, st⟩ (infer f G st))
    (ha : ∀ func st₁, infer f G st = .ok func st₁ →
      Query.Report ⟨a, G, st₁⟩ (infer a G st₁)) :
    Query.Report ⟨.call f a, G, st⟩ (infer (.call f a) G st) := by
  generalize hfunc : infer f G st = r at hf
  cases hf with
  | @error failure path st₁ hfirst =>
      have hrun : infer (.call f a) G st = .error (.error failure) st₁ := by
        simp only [infer, bind_apply, hfunc]
      rw [hrun]
      exact .error (hfirst.branch (b := .func) rfl (Query.infersAll_nil _)
        (List.append_assoc ..))
  | @ok func st₁ hf =>
      have hparts : Query.InfersAll ⟨.call f a, G, st⟩ (f.occurrences.map (.func :: ·)) :=
        hf.branch rfl
      have hpart : Query.part? ⟨.call f a, G, st⟩ .arg = some ⟨a, G, st₁⟩ := by
        simp only [Query.part?, hfunc]
      have ha := ha func st₁ hfunc
      generalize harg : infer a G st₁ = r at ha
      cases ha with
      | @error failure path st₂ hfirst =>
          have hrun : infer (.call f a) G st = .error (.error failure) st₂ := by
            simp only [infer, bind_apply, hfunc, harg]
          rw [hrun]
          exact .error (hfirst.branch hpart hparts (List.append_assoc ..))
      | ok ha => exact infer_apply_report h hfunc harg (hparts.append (ha.branch hpart))

theorem infer_letIn_report (hvalue : Query.Report ⟨e, G, st.atLevel (st.supply.level + 1)⟩
      (atNextLevel (infer e G) st))
    (hbody : ∀ t st₁, atNextLevel (infer e G) st = .ok t st₁ →
      Query.Report ⟨e', G.insert x (st₁.store.generalizeAt st₁.supply.level t), st₁⟩
        (infer e' (G.insert x (st₁.store.generalizeAt st₁.supply.level t)) st₁)) :
    Query.Report ⟨.letIn x e e', G, st⟩ (infer (.letIn x e e') G st) := by
  generalize hval : atNextLevel (infer e G) st = r at hvalue
  cases hvalue with
  | @error failure path st₁ hfirst =>
      have hrun : infer (.letIn x e e') G st = .error (.error failure) st₁ := by
        simp only [infer, bind_apply, hval]
      rw [hrun]
      exact .error (hfirst.branch (b := .value) rfl (Query.infersAll_nil _)
        (List.append_assoc ..))
  | @ok t st₁ hall =>
      have hparts : Query.InfersAll ⟨.letIn x e e', G, st⟩ (e.occurrences.map (.value :: ·)) :=
        hall.branch rfl
      have hpart : Query.part? ⟨.letIn x e e', G, st⟩ .body =
          some ⟨e', G.insert x (st₁.store.generalizeAt st₁.supply.level t), st₁⟩ := by
        simp only [Query.part?, hval]
      have hrun : infer (.letIn x e e') G st =
          infer e' (G.insert x (st₁.store.generalizeAt st₁.supply.level t)) st₁ := by
        simp only [infer, bind_apply, hval, generalize, get_apply, pure_apply]
      have hbody := hbody t st₁ hval
      rw [hrun]
      generalize hres : infer e' (G.insert x (st₁.store.generalizeAt st₁.supply.level t)) st₁ = r
        at hbody
      cases hbody with
      | error hfirst => exact .error (hfirst.branch hpart hparts (List.append_assoc ..))
      | ok hall =>
          exact .ok ((hparts.append (hall.branch hpart)).append
            (Query.infersAll_here (hrun.trans hres)))

theorem infer_report (e : Expr) (h : G.Usable st) : Query.Report ⟨e, G, st⟩ (infer e G st) := by
  induction e generalizing G st with
  | unit => exact .ok (Query.infersAll_here rfl)
  | var x => exact infer_var_report x h
  | lam x e ih => exact infer_lam_report (ih (h.insert_fresh x))
  | call f a ihf iha =>
      exact infer_call_report h (ihf h) fun _ _ hf => iha (h.progress (infer_ok h hf).toProgress)
  | letIn x e e' ihe ihe' =>
      refine infer_letIn_report ?_ fun _ _ he =>
        ihe' (h.insert_generalize (inferred_of_atNextLevel h he) x)
      exact .atNextLevel h.positive (infer_outcome e h.nextLevel) (ihe h.nextLevel)
  | absent => exact .error ((Query.Breaks.absent rfl).failsFirst rfl (Query.infersAll_nil _) rfl)
  | foreign form =>
      exact .error ((Query.Breaks.foreign rfl).failsFirst rfl (Query.infersAll_nil _) rfl)

end Calls

/-! ## One run -/

section Runs

variable {α : Type} {r : Run α} {k : Query} {c : Context} {env : Option Env} {s : Store} {e : Expr}

/-- The run reports how inference of the query came out. After a success no failure is kept and all
occurrences have got a type. After a failure the error returned is the one that is kept, with the
first occurrence that failed. -/
def Run.Reports (r : Run α) (k : Query) : Prop :=
  (∃ a, r.result = .ok a ∧ r.context.failure = none ∧ k.InfersAll k.expr.occurrences) ∨
    ∃ path f, r.result = .error (.error f.error) ∧ r.context.failure = some f ∧ k.FailsFirst path f

theorem Context.run_reports (c : Context) (henv : ∀ E ∈ env, E.Readable s) (he : e ≠ .absent)
    (nested : Bool) : (c.run env s e nested).Reports ((env.getD {}).query s e nested) := by
  have hG := (Env.readable_getD henv).proper
  have hrep : ((env.getD {}).query s e nested).Report ((env.getD {}).inference s e nested) := by
    cases nested with
    | false => exact infer_report e hG.usable
    | true =>
        exact .atNextLevel hG.usable.positive (infer_outcome e hG.usable.nextLevel)
          (infer_report e hG.usable.nextLevel)
  unfold Env.inference Env.start at hrep
  simp only [run, he, if_false, restart_eq]
  generalize (if nested then _ else _ : InferM Ty) _ = r at hrep ⊢
  cases hrep with
  | ok h => exact .inl ⟨_, rfl, rfl, h⟩
  | error h => exact .inr ⟨_, _, rfl, rfl, h⟩

theorem Context.inferScheme_reports (h : (c.run env s e true).Reports k) :
    (c.inferScheme env s e).Reports k := by
  simp only [Run.Reports, inferScheme]
  rcases h with ⟨t, ht, hfailure, hall⟩ | ⟨path, f, herror, hfailure, hfirst⟩
  · exact .inl ⟨_, by rw [ht]; rfl, hfailure, hall⟩
  · exact .inr ⟨path, f, by rw [herror]; rfl, hfailure, hfirst⟩

/-- In an expression of the calculus without free names only a call can fail. -/
theorem Run.Reports.application {stop : Stop InferError} (h : r.Reports k) (hcore : k.expr.Core)
    (hfree : ∀ x ∈ k.expr.freeNames, k.scope[x]?.isSome) (hstop : r.result = .error stop) :
    ∃ func arg cause, stop = .error (.application func arg cause) := by
  rcases h with ⟨a, hok, -⟩ | ⟨path, f, herror, -, hfirst⟩
  · simp [hok] at hstop
  · obtain rfl : stop = .error f.error := by simpa [herror, eq_comm] using hstop
    have hat := hfirst.at_eq
    cases hfirst.breaks with
    | application => exact ⟨_, _, _, rfl⟩
    | unbound _ hbinders hscope =>
        simpa [hscope] using hfree _ (Expr.mem_freeNames_of_at hat hbinders)
    | absent | foreign => exact (hcore.of_at hat).elim

end Runs

/-- Whatever the context went through, a run over an environment that can be read off, or none,
reports its own outcome: no failure after a success, and else the first occurrence that failed at
its own step, with the error that is returned. If the expression is one of the calculus and its free
names are declared, that occurrence is a call. -/
theorem inference_reports_first_failure (c : Context) (env : Option Env) (s : Store)
    (henv : ∀ E ∈ env, E.Readable s) (e : Expr) (he : e ≠ .absent) :
    (c.infer env s e).Reports ((env.getD {}).query s e false) ∧
    (c.inferScheme env s e).Reports ((env.getD {}).query s e true) ∧
    (e.Core → (∀ x ∈ e.freeNames, ((env.getD {}).lookup? x).isSome) →
      ∀ stop, (c.infer env s e).result = .error stop ∨
          (c.inferScheme env s e).result = .error stop →
        ∃ func arg cause, stop = .error (.application func arg cause)) := by
  have hflat := c.run_reports henv he false
  have hnested := Context.inferScheme_reports (c.run_reports henv he true)
  refine ⟨hflat, hnested, fun hcore hfree stop hstop => ?_⟩
  rcases hstop with hstop | hstop
  · exact hflat.application hcore hfree hstop
  · exact hnested.application hcore hfree hstop

/-- The expression `fun x -> (x x) (f f)`, with two calls that fail. -/
def twoFailures : Expr :=
  .lam "x" (.call (.call (.var "x") (.var "x")) (.call (.var "f") (.var "f")))

/-- Of two calls that fail the one on the left is reported, in a context that has failed before on
another expression. -/
theorem inference_reports_first_failure_two_calls :
    failedContext.failure = some ⟨.unhandled (some "Custom"), .foreign "Custom"⟩ ∧
    (∀ E ∈ some (idleEnv 5), E.Readable idleStore) ∧ twoFailures ≠ .absent ∧ twoFailures.Core ∧
    (∀ x ∈ twoFailures.freeNames, ((idleEnv 5).lookup? x).isSome) ∧
    (∃ path f, (failedContext.infer (some (idleEnv 5)) idleStore twoFailures).result =
        .error (.error f.error) ∧
      (failedContext.infer (some (idleEnv 5)) idleStore twoFailures).context.failure = some f ∧
      f.invalid = .call (.var "x") (.var "x") ∧
      ((idleEnv 5).query idleStore twoFailures false).FailsFirst path f) ∧
    ∃ func arg cause, (failedContext.inferScheme (some (idleEnv 5)) idleStore twoFailures).result =
      .error (.error (.application func arg cause)) := by
  have henv : ∀ E ∈ some (idleEnv 5), E.Readable idleStore := by
    rintro _ ⟨⟩
    exact (idleEnv_wellFormed 5).readable
  have hfree : ∀ x ∈ twoFailures.freeNames, ((idleEnv 5).lookup? x).isSome := by decide +kernel
  have hcore : twoFailures.Core := by simp [twoFailures, Expr.Core]
  obtain ⟨hflat, -, happ⟩ := inference_reports_first_failure failedContext (some (idleEnv 5))
    idleStore henv twoFailures (by decide)
  refine ⟨by decide, henv, by decide, hcore, hfree, ?_, ?_⟩
  · rcases hflat with ⟨t, -, hnone, -⟩ | ⟨path, f, herror, hfailure, hfirst⟩
    · exact absurd hnone (by decide +kernel)
    · have hinvalid :
          (failedContext.infer (some (idleEnv 5)) idleStore twoFailures).context.failure.map
            Failure.invalid = some (.call (.var "x") (.var "x")) := by decide +kernel
      exact ⟨path, f, herror, hfailure, by simpa [hfailure] using hinvalid, hfirst⟩
  · cases hresult : (failedContext.inferScheme (some (idleEnv 5)) idleStore twoFailures).result with
    | ok σ =>
        have hfailed : (failedContext.inferScheme (some (idleEnv 5)) idleStore
          twoFailures).result.isOk = false := by decide +kernel
        simp [hresult, Except.isOk, Except.toBool] at hfailed
    | error stop =>
        obtain ⟨func, arg, cause, rfl⟩ := happ hcore hfree stop (.inr hresult)
        exact ⟨func, arg, cause, rfl⟩

end LetPoly
