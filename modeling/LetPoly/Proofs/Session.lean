import LetPoly.Proofs.Change
import LetPoly.Proofs.Generalization
import Mathlib.Algebra.Group.Nat.Defs

/-! # Sessions over one environment

An environment lives through declarations and runs in any order. A run that fails is not undone, and
what it linked and lowered stays for the runs after it.
-/

namespace LetPoly

open Store

variable {env : Env} {s s' : Store} {t : Ty} {σ : Scheme} {st : State} {v : Nat}

/-! ## A run from its start to its end -/

theorem Scope.Proper.usable (hG : env.scope.Proper s) : env.scope.Usable (env.start s) where
  proper := hG
  positive := Int.le_refl 1
  ready := rfl

theorem Env.inference_outcome (hG : env.scope.Proper s) (e : Expr) (nested : Bool) :
    InferOutcome env.scope (env.start s) (env.inference s e nested) := by
  cases nested with
  | false => exact infer_outcome e hG.usable
  | true => exact (infer_outcome e hG.usable.nextLevel).atNextLevel hG.usable.positive

theorem Env.inference_changes (hG : env.scope.Proper s) (e : Expr) (nested : Bool) :
    s.Changes (leaves (env.inference s e nested)).store := by
  cases nested with
  | false => exact infer_changes e hG.usable
  | true =>
      rw [inference, if_pos rfl, store_atNextLevel]
      exact infer_changes e hG.usable.nextLevel

/-- Inference over the environment leads to the state. -/
structure Env.LeadsTo (env : Env) (s : Store) (st : State) : Prop where
  progress : Progress {v | env.scope.Free s v} (env.start s) st
  changes : s.Changes st.store
  issues : Issues (env.start s) st

/-- The run over the environment ended in the state, and not with a fault. -/
structure Run.Ended (r : Run Ty) (env : Env) (s : Store) (st : State) : Prop
    extends env.LeadsTo s st where
  store_eq : r.store = st.store
  env_eq : r.env = some { env with nextId := st.supply.nextId }
  ne_fault : ∀ f, r.result ≠ .error (.fault f)
  proper : ∀ t, r.result = .ok t → st.store.Proper t
  level_eq : ∀ t, r.result = .ok t → r.context.supply.level = 1

theorem Run.result_eq_ok_of_mem {α : Type} {r : Run α} {a : α}
    (h : a ∈ r.result.toOption.toList) : r.result = .ok a := by
  cases hresult : r.result with
  | error f => simp [hresult, Except.toOption] at h
  | ok b => simpa [hresult, Except.toOption, eq_comm] using h

theorem Context.run_ended (c : Context) (e : Expr) (nested : Bool) (hG : env.scope.Proper s) :
    ∃ st, (c.run (some env) s e nested).Ended env s st := by
  by_cases he : e = .absent
  · subst he
    have hprogress := (Advance.refl hG.usable.active).toProgress
    refine ⟨env.start s, ⟨hprogress, .refl, .refl _⟩, rfl, rfl, nofun, nofun, nofun⟩
  · have hout := env.inference_outcome hG e nested
    have hchanges := env.inference_changes hG e nested
    have hissues := env.inference_issues s e nested
    rw [run_of_ne_absent c he]
    generalize env.inference s e nested = result at hout hchanges hissues
    cases hout with
    | @ok st t h =>
        refine ⟨st, ⟨h.toProgress, hchanges, hissues⟩, rfl, rfl, nofun, ?_, fun _ _ => h.level_eq⟩
        rintro _ ⟨⟩
        exact h.proper
    | @error st e h =>
        exact ⟨st, ⟨h, hchanges, hissues⟩, rfl, rfl, nofun, nofun, nofun⟩

/-! ## Identifiers in order -/

/-- The cells have the identifiers from zero on, and the next identifier goes on after them. -/
structure Store.Counted (s : Store) (next : Int64) : Prop where
  id_eq : ∀ v < s.size, s.id v = Int64.ofNat v
  next_eq : next = Int64.ofNat s.size

namespace Store.Counted

variable {i : Int64}

theorem alloc (h : s.Counted i) (ℓ : Int) : (s.alloc i ℓ).Counted (i + 1) := by
  constructor
  · intro v hv
    rw [size_alloc] at hv
    by_cases hlt : v < s.size
    · simpa [Store.id, cell_alloc_of_ne s i ℓ (Nat.ne_of_lt hlt)] using h.id_eq v hlt
    · obtain rfl : v = s.size := by omega
      simpa [Store.id] using h.next_eq
  · rw [size_alloc, Int64.ofNat_add, ← h.next_eq]
    rfl

theorem issues (hs : s.Counted env.nextId) (h : Issues (env.start s) st) :
    st.store.Counted st.supply.nextId := by
  have hnum := h.numbered (env.start_numbered s)
  have hadd : ∀ n, s.size ≤ n → env.nextId + Int64.ofNat (n - s.size) = Int64.ofNat n := by
    intro n hn
    rw [hs.next_eq, ← Int64.ofNat_add, Nat.add_sub_cancel' hn]
  constructor
  · intro v hv
    by_cases hlt : v < s.size
    · rw [h.id_eq v hlt]
      exact hs.id_eq v hlt
    · have hle := Nat.le_of_not_lt hlt
      rw [hnum.id_eq v hle hv, hadd v hle]
  · rw [hnum.nextId_eq, hadd _ h.size_le]

theorem toInt_next (h : s.Counted i) (hsize : s.size < 2 ^ 63) : i.toInt = s.size := by
  rw [h.next_eq, Int64.toInt_ofNat_of_lt hsize]

theorem toInt_id (h : s.Counted i) (hsize : s.size < 2 ^ 63) (hv : v < s.size) :
    (s.id v).toInt = v := by
  rw [h.id_eq v hv, Int64.toInt_ofNat_of_lt (hv.trans hsize)]

theorem id_lt_next (h : s.Counted i) (hsize : s.size < 2 ^ 63) (hv : v < s.size) :
    s.id v < i := by
  apply Int64.lt_iff_toInt_lt.mpr
  rw [h.toInt_id hsize hv, h.toInt_next hsize]
  omega

theorem id_inj (h : s.Counted i) (hsize : s.size < 2 ^ 63) {w : Nat} (hv : v < s.size)
    (hw : w < s.size) (heq : s.id v = s.id w) : v = w := by
  have htoInt := congrArg Int64.toInt heq
  rw [h.toInt_id hsize hv, h.toInt_id hsize hw] at htoInt
  omega

end Store.Counted

/-! ## Commands -/

/-- An environment with its store, and the schemes that runs over it have returned. -/
structure Session where
  env : Env := {}
  store : Store := {}
  schemes : List Scheme := []

/-- What can be done in a session. -/
inductive Command where
  | newVar
  | declare (x : String) (t : Ty)
  | declareInvariant (x : String) (t : Ty)
  | declareScheme (x : String) (σ : Scheme)
  | infer (c : Context) (e : Expr)
  | inferScheme (c : Context) (e : Expr)

namespace Command

/-- The session after a command. -/
def perform (S : Session) : Command → Session
  | newVar =>
    let (_, env, store) := S.env.newVar S.store
    { S with env, store }
  | declare x t => { S with env := S.env.declare S.store x t }
  | declareInvariant x t => { S with env := S.env.declareInvariant x t }
  | declareScheme x σ => { S with env := S.env.declareScheme x σ }
  | infer c e =>
    let r := c.infer (some S.env) S.store e
    { S with env := r.env.getD S.env, store := r.store }
  | inferScheme c e =>
    let r := c.inferScheme (some S.env) S.store e
    { env := r.env.getD S.env
      store := r.store
      schemes := S.schemes ++ r.result.toOption.toList }

/-- What is declared is built from cells of the session. -/
def Built (S : Session) : Command → Prop
  | newVar | infer _ _ | inferScheme _ _ => True
  | declare _ t | declareInvariant _ t => S.store.Builds t
  | declareScheme _ σ => S.store.Builds σ.body

/-- What is declared is built from cells of the session, at the first level if they are not
quantified, or is a scheme that a run has returned. -/
def Careful (S : Session) : Command → Prop
  | newVar | infer _ _ | inferScheme _ _ => True
  | declare _ t => S.store.Builds t
  | declareInvariant _ t =>
    S.store.Builds t ∧ ∀ v, S.store.Reaches t v → S.store.link v = none → S.store.level v ≤ 1
  | declareScheme _ σ => σ ∈ S.schemes

end Command

namespace Session

variable {S S' : Session} {σs : List Scheme} {k : Command}

/-- A run led from one session to the other, by way of the state, and returned the schemes. -/
structure Ran (S S' : Session) (st : State) (σs : List Scheme) : Prop
    extends S.env.LeadsTo S.store st where
  eq : S' = ⟨{ S.env with nextId := st.supply.nextId }, st.store, S.schemes ++ σs⟩
  returned : ∀ σ ∈ σs, ∃ t, st.store.Proper t ∧ σ = st.store.generalizeAt 1 t

theorem ran_infer (c : Context) (e : Expr) (hG : S.env.scope.Proper S.store) :
    ∃ st, Ran S ((Command.infer c e).perform S) st [] := by
  obtain ⟨st, hrun⟩ := c.run_ended e false hG
  refine ⟨st, hrun.toLeadsTo, ?_, by simp⟩
  simp only [Command.perform, Context.infer, hrun.store_eq, hrun.env_eq, Option.getD_some,
    List.append_nil]

theorem ran_inferScheme (c : Context) (e : Expr) (hG : S.env.scope.Proper S.store) :
    ∃ st σs, Ran S ((Command.inferScheme c e).perform S) st σs := by
  obtain ⟨st, hrun⟩ := c.run_ended e true hG
  refine ⟨st, (c.inferScheme (some S.env) S.store e).result.toOption.toList, hrun.toLeadsTo, ?_, ?_⟩
  · simp only [Command.perform, Context.inferScheme, hrun.store_eq, hrun.env_eq, Option.getD_some]
  · intro σ hσ
    obtain ⟨t, ht, rfl⟩ := Context.inferScheme_result_eq_ok.mp (Run.result_eq_ok_of_mem hσ)
    refine ⟨t, hrun.proper t ht, ?_⟩
    rw [hrun.store_eq, hrun.level_eq t ht]

/-! ## What every session keeps -/

/-- All that the session leads to can be read off, and the identifiers count its cells. -/
structure Sound (S : Session) : Prop where
  store : S.store.Sound
  scope : S.env.scope.Proper S.store
  schemes : ∀ σ ∈ S.schemes, S.store.Proper σ.body
  counted : S.store.Counted S.env.nextId

theorem sound_empty : ({} : Session).Sound where
  store := .empty
  scope := by
    rintro σ ⟨x, hx⟩
    simp at hx
  schemes := by simp
  counted := ⟨fun v hv => absurd hv (Nat.not_lt_zero v), rfl⟩

theorem Sound.bind (hS : S.Sound) (x : String) (hσ : S.store.Proper σ.body) :
    Sound { S with env := S.env.declareScheme x σ } where
  store := hS.store
  scope := hS.scope.insert hσ x
  schemes := hS.schemes
  counted := hS.counted

theorem Sound.newVar (hS : S.Sound) :
    (Command.newVar.perform S).Sound ∧ S.store.Changes (Command.newVar.perform S).store := by
  have hchange : S.store.Change (Command.newVar.perform S).store := .alloc _ _ (Int.le_refl 1)
  have ht := hchange.touches
  refine ⟨⟨hS.store.change hchange, hS.scope.touches ht, ?_, hS.counted.alloc 1⟩, .single hchange⟩
  intro σ hσ
  exact ht.proper (hS.schemes σ hσ)

theorem Sound.ran (hS : S.Sound) (h : Ran S S' st σs) :
    S'.Sound ∧ S.store.Changes S'.store := by
  have ht := h.changes.touches
  rw [h.eq]
  refine ⟨⟨hS.store.changes h.changes, hS.scope.touches ht, ?_, hS.counted.issues h.issues⟩,
    h.changes⟩
  intro σ hσ
  rcases List.mem_append.mp hσ with hσ | hσ
  · exact ht.proper (hS.schemes σ hσ)
  · obtain ⟨t, hproper, rfl⟩ := h.returned σ hσ
    exact hproper

theorem Sound.perform (hS : S.Sound) (k : Command) (hk : k.Built S) :
    (k.perform S).Sound ∧ S.store.Changes (k.perform S).store := by
  cases k with
  | newVar => exact hS.newVar
  | declare x t => exact ⟨hS.bind x (hS.store.proper_of_builds hk), .refl⟩
  | declareInvariant x t => exact ⟨hS.bind x (hS.store.proper_of_builds hk), .refl⟩
  | declareScheme x σ => exact ⟨hS.bind x (hS.store.proper_of_builds hk), .refl⟩
  | infer c e =>
      obtain ⟨st, hran⟩ := ran_infer c e hS.scope
      exact hS.ran hran
  | inferScheme c e =>
      obtain ⟨st, σs, hran⟩ := ran_inferScheme c e hS.scope
      exact hS.ran hran

/-- Some command over what the session has leads from the first session to the second. -/
def Step (S S' : Session) : Prop :=
  ∃ k : Command, k.Built S ∧ k.perform S = S'

theorem Sound.steps (hS : S.Sound) (h : Relation.ReflTransGen Step S S') :
    S'.Sound ∧ S.store.Changes S'.store := by
  induction h with
  | refl => exact ⟨hS, .refl⟩
  | tail _ hstep ih =>
      obtain ⟨k, hk, rfl⟩ := hstep
      obtain ⟨hsound, hchanges⟩ := ih.1.perform k hk
      exact ⟨hsound, ih.2.trans hchanges⟩

theorem Sound.built (hS : S.Sound) (hk : k.Careful S) : k.Built S := by
  cases k with
  | newVar | infer | inferScheme => exact trivial
  | declare x t => exact hk
  | declareInvariant x t => exact hk.1
  | declareScheme x σ => exact (hS.schemes σ hk).builds

/-! ## What careful sessions keep -/

/-- No cell that the environment or a returned scheme leads to unquantified is above the first
level. -/
structure Shallow (S : Session) : Prop where
  scope : ∀ v, S.env.scope.Free S.store v → S.store.level v ≤ 1
  schemes : ∀ σ ∈ S.schemes, ∀ v, S.store.Free σ v → S.store.level v ≤ 1

theorem shallow_empty : ({} : Session).Shallow where
  scope := by
    rintro v ⟨σ, ⟨x, hx⟩, -⟩
    simp at hx
  schemes := by simp

theorem Shallow.bind (h : S.Shallow) (x : String)
    (hσ : ∀ v, S.store.Free σ v → S.store.level v ≤ 1) :
    Shallow { S with env := S.env.declareScheme x σ } where
  scope v hv := (Scope.free_insert hv).elim (hσ v) (h.scope v)
  schemes := h.schemes

/-- What touches nothing but shallow cells keeps the session shallow. -/
theorem Shallow.touches (h : S.Shallow) (hS : S.Sound) {A : Set Nat} {i : Int64}
    (ht : S.store.Touches s' A) (hA : ∀ u ∈ A, S.store.level u ≤ 1) :
    Shallow { S with env.nextId := i, store := s' } where
  scope := by
    rintro v ⟨σ, hσ, hfree⟩
    refine ht.level_le_of_free hA (hS.scope σ hσ).grounded ?_ v hfree
    intro u hu
    exact h.scope u ⟨σ, hσ, hu⟩
  schemes σ hσ := ht.level_le_of_free hA (hS.schemes σ hσ).grounded (h.schemes σ hσ)

theorem Shallow.ran (h : S.Shallow) (hS : S.Sound) (hran : Ran S S' st σs) : S'.Shallow := by
  have hkept := h.touches hS (i := st.supply.nextId) hran.progress.touches h.scope
  rw [hran.eq]
  refine ⟨hkept.scope, ?_⟩
  intro σ hσ v hv
  rcases List.mem_append.mp hσ with hσ | hσ
  · exact hkept.schemes σ hσ v hv
  · obtain ⟨t, ht, rfl⟩ := hran.returned σ hσ
    exact level_le_of_free_generalizeAt ht.grounded hv

theorem Shallow.perform (h : S.Shallow) (hS : S.Sound) (k : Command) (hk : k.Careful S) :
    (k.perform S).Shallow := by
  cases k with
  | newVar => exact h.touches hS (touches_alloc active_empty _ 1) fun u hu => hu.elim
  | declare x t =>
      apply h.bind x
      intro v hv
      have hlevel := level_le_of_free_generalizeAt (hS.store.proper_of_builds hk).grounded hv
      omega
  | declareInvariant x t =>
      apply h.bind x
      intro v hv
      exact hk.2 v hv.1 hv.2.1
  | declareScheme x σ => exact h.bind x (h.schemes σ hk)
  | infer c e =>
      obtain ⟨st, hran⟩ := ran_infer c e hS.scope
      exact h.ran hS hran
  | inferScheme c e =>
      obtain ⟨st, σs, hran⟩ := ran_inferScheme c e hS.scope
      exact h.ran hS hran

/-- Some careful command leads from the first session to the second. -/
def CarefulStep (S S' : Session) : Prop :=
  ∃ k : Command, k.Careful S ∧ k.perform S = S'

theorem sound_shallow_of_steps (h : Relation.ReflTransGen CarefulStep {} S) :
    S.Sound ∧ S.Shallow := by
  induction h with
  | refl => exact ⟨sound_empty, shallow_empty⟩
  | tail _ hstep ih =>
      obtain ⟨hS, h⟩ := ih
      obtain ⟨k, hk, rfl⟩ := hstep
      exact ⟨(hS.perform k (hS.built hk)).1, h.perform hS k hk⟩

end Session

/-- An environment stays usable, whatever runs over it have come to. The links run in no circle, all
identifiers are different and below the next one, and all that the environment leads to unquantified
is at the first level. No run over it ends in a fault, and the next identifier moves on by the
number of cells that are added. -/
theorem environment_stays_usable (S : Session)
    (hS : Relation.ReflTransGen Session.CarefulStep {} S) (hsize : S.store.size < 2 ^ 63) :
    S.store.Acyclic ∧
    (∀ v < S.store.size, S.store.id v < S.env.nextId) ∧
    (∀ v < S.store.size, ∀ w < S.store.size, S.store.id v = S.store.id w → v = w) ∧
    (∀ v, S.env.scope.Free S.store v → S.store.level v = 1) ∧
    (∀ (c : Context) e nested f,
      (c.run (some S.env) S.store e nested).result ≠ .error (.fault f)) ∧
    ∀ k : Command, k.Careful S → (k.perform S).store.size < 2 ^ 63 →
      (k.perform S).env.nextId.toInt =
        S.env.nextId.toInt + ((k.perform S).store.size - S.store.size) := by
  obtain ⟨hsound, hshallow⟩ := Session.sound_shallow_of_steps hS
  have hcounted := hsound.counted
  refine ⟨hsound.store.acyclic, fun v hv => hcounted.id_lt_next hsize hv,
    fun v hv w hw => hcounted.id_inj hsize hv hw, ?_, ?_, ?_⟩
  · intro v hv
    have hle := hshallow.scope v hv
    have hlt := (hv.active hsound.scope).1
    have hpos := hsound.store.positive v hlt
    omega
  · intro c e nested
    obtain ⟨st, hrun⟩ := c.run_ended e nested hsound.scope
    exact hrun.ne_fault
  · intro k hk hsize'
    have hcounted' := (hsound.perform k (hsound.built hk)).1.counted
    rw [hcounted.toInt_next hsize, hcounted'.toInt_next hsize']
    omega

/-- A session with one name, for a cell that is not quantified. -/
def sharedSession : Session :=
  (Command.declareInvariant "f" (.var 0)).perform (Command.newVar.perform {})

theorem sharedSession_careful : Relation.ReflTransGen Session.CarefulStep {} sharedSession := by
  have hvar : Session.CarefulStep {} (Command.newVar.perform {}) := ⟨.newVar, trivial, rfl⟩
  apply (Relation.ReflTransGen.single hvar).tail
  refine ⟨.declareInvariant "f" (.var 0), ⟨by decide, ?_⟩, rfl⟩
  intro v hv _
  obtain rfl := (reaches_var_of_free rfl).mp hv
  decide

/-- The session after a failed run of `let y = f () in () y`. -/
def haltedSession : Session :=
  (Command.infer {} (.letIn "y" (.call (.var "f") .unit) (.call .unit (.var "y")))).perform
    sharedSession

/-- The run fails after it has linked the cell of the environment. What the cell is linked to has
come down to the first level, and another run goes on from there. -/
theorem environment_stays_usable_halted :
    Relation.ReflTransGen Session.CarefulStep {} haltedSession ∧
    haltedSession.store.link 0 = some (.arrow .unit (.var 1)) ∧
    haltedSession.store.Acyclic ∧
    haltedSession.env.scope.Free haltedSession.store 1 ∧ haltedSession.store.level 1 = 1 ∧
    haltedSession.env.nextId.toInt = 3 ∧
    ((Command.inferScheme {} (.call (.var "f") .unit)).perform haltedSession).env.nextId.toInt =
      3 + (4 - 3) := by
  have hsteps : Relation.ReflTransGen Session.CarefulStep {} haltedSession :=
    sharedSession_careful.tail ⟨.infer {} _, trivial, rfl⟩
  have hlink : haltedSession.store.link 0 = some (.arrow .unit (.var 1)) := by decide
  have hfree : haltedSession.env.scope.Free haltedSession.store 1 :=
    ⟨.mono (.var 0), ⟨"f", by decide⟩, .link hlink (.ret (.here 1)), by decide, by decide⟩
  obtain ⟨hacyclic, -, -, hlevel, -, hnext⟩ := environment_stays_usable _ hsteps (by decide)
  have hlater := hnext (.inferScheme {} (.call (.var "f") .unit)) trivial (by decide)
  exact ⟨hsteps, hlink, hacyclic, hfree, hlevel 1 hfree, by decide, hlater⟩

end LetPoly
