import LetPoly.Proofs.Session

/-! # Extended environments

An environment and its extension share their cells, and each goes on from the same identifier. Runs
over one of them know nothing of the identifiers that runs over the other have given, so the n-th
new cell of each has the same identifier. Nothing else is confused.
-/

namespace LetPoly

open Store

variable {S : Session} {st : State} {v w n : Nat}

/-- An environment, or its extension. -/
inductive Side where
  | parent
  | extended
  deriving DecidableEq

/-- The side that shares its cells with this one. -/
def Side.other : Side → Side
  | parent => extended
  | extended => parent

theorem Side.eq_other_of_ne {d d' : Side} (h : d' ≠ d) : d' = d.other := by
  cases d <;> cases d' <;> first | rfl | exact absurd rfl h

/-- An environment and its extension over one store. Each cell has an origin: the side of the run
that has added it, if it was not there at first. -/
structure Fork where
  env : Side → Env
  store : Store
  origin : List (Option Side)
  returned : List Ty := []

/-- An environment is extended by a scheme. -/
def Session.fork (S : Session) (x : String) (σ : Scheme) : Fork where
  env
    | .parent => S.env
    | .extended => S.env.declareScheme x σ
  store := S.store
  origin := List.replicate S.store.size none

namespace Fork

/-- The fork after a run over one side, which has returned the types. -/
def after {α : Type} (F : Fork) (d : Side) (r : Run α) (ts : List Ty) : Fork where
  env := Function.update F.env d (r.env.getD (F.env d))
  store := r.store
  origin := F.origin ++ List.replicate (r.store.size - F.store.size) (some d)
  returned := F.returned ++ ts

/-- The fork after a run over one side for the type of an expression. -/
def infer (F : Fork) (d : Side) (c : Context) (e : Expr) : Fork :=
  let r := c.infer (some (F.env d)) F.store e
  F.after d r r.result.toOption.toList

/-- The fork after a run over one side for the scheme of an expression. -/
def inferScheme (F : Fork) (d : Side) (c : Context) (e : Expr) : Fork :=
  let r := c.inferScheme (some (F.env d)) F.store e
  F.after d r (r.result.toOption.toList.map Scheme.body)

/-- Some run over one side leads from the first fork to the second. -/
inductive Step (F : Fork) : Fork → Prop where
  | infer (d : Side) (c : Context) (e : Expr) : Step F (F.infer d c e)
  | inferScheme (d : Side) (c : Context) (e : Expr) : Step F (F.inferScheme d c e)

/-- The number of cells that runs over the side have added before the cell. -/
def allocated (F : Fork) (d : Side) (v : Nat) : Nat :=
  (F.origin.take v).count (some d)

variable {F F' : Fork} {d : Side}

/-- The bodies of returned schemes are the types that were inferred for them. -/
theorem inferScheme_eq (F : Fork) (d : Side) (c : Context) (e : Expr) :
    F.inferScheme d c e = F.after d (c.run (some (F.env d)) F.store e true)
      (c.run (some (F.env d)) F.store e true).result.toOption.toList := by
  simp only [inferScheme, after, Context.inferScheme]
  cases (c.run (some (F.env d)) F.store e true).result <;> rfl

/-- All that the fork leads to can be read off. Of its cells `n` were there at first, and each side
has counted on from there. -/
structure Sound (F : Fork) (n : Nat) : Prop where
  store : F.store.Sound
  scope : ∀ d, (F.env d).scope.Proper F.store
  returned : ∀ t ∈ F.returned, F.store.Proper t
  length_eq : F.origin.length = F.store.size
  old : ∀ v < n, F.origin[v]? = some none ∧ F.store.id v = Int64.ofNat v
  new : ∀ v, n ≤ v → v < F.store.size →
    ∃ d, F.origin[v]? = some (some d) ∧ F.store.id v = Int64.ofNat (n + F.allocated d v)
  next : ∀ d, (F.env d).nextId = Int64.ofNat (n + F.origin.count (some d))

theorem sound_fork (hS : S.Sound) (x : String) {σ : Scheme} (hσ : S.store.Builds σ.body) :
    (S.fork x σ).Sound S.store.size where
  store := hS.store
  scope
    | .parent => hS.scope
    | .extended => hS.scope.insert (hS.store.proper_of_builds hσ) x
  returned := by simp [Session.fork]
  length_eq := by simp [Session.fork]
  old v hv := ⟨by simp [Session.fork, hv], hS.counted.id_eq v hv⟩
  new v hv hlt := absurd hlt (Nat.not_lt_of_le hv)
  next d := by
    have hnext := hS.counted.next_eq
    cases d <;> simpa [Session.fork, List.count_replicate, Env.declareScheme] using hnext

/-- A run over one side led from one fork to the other, by way of the state, and returned the
types. -/
structure Ran (F F' : Fork) (d : Side) (st : State) (ts : List Ty) : Prop
    extends (F.env d).LeadsTo F.store st where
  eq : F' = ⟨Function.update F.env d { F.env d with nextId := st.supply.nextId }, st.store,
    F.origin ++ List.replicate (st.store.size - F.store.size) (some d), F.returned ++ ts⟩
  proper : ∀ t ∈ ts, st.store.Proper t

theorem Sound.ran_run (hF : F.Sound n) (d : Side) (c : Context) (e : Expr) (nested : Bool) :
    ∃ st ts, Ran F (F.after d (c.run (some (F.env d)) F.store e nested)
      (c.run (some (F.env d)) F.store e nested).result.toOption.toList) d st ts := by
  obtain ⟨st, hrun⟩ := c.run_ended e nested (hF.scope d)
  refine ⟨st, _, hrun.toLeadsTo, ?_, fun t ht => hrun.proper t (Run.result_eq_ok_of_mem ht)⟩
  simp only [after, hrun.store_eq, hrun.env_eq, Option.getD_some]

theorem Sound.ran_of_step (hF : F.Sound n) (h : F.Step F') : ∃ d st ts, Ran F F' d st ts := by
  cases h with
  | infer d c e => exact ⟨d, hF.ran_run d c e false⟩
  | inferScheme d c e =>
      rw [inferScheme_eq]
      exact ⟨d, hF.ran_run d c e true⟩

theorem Sound.new_ran {ts : List Ty} (hF : F.Sound n) (h : Ran F F' d st ts) :
    ∀ v, n ≤ v → v < F'.store.size →
      ∃ d, F'.origin[v]? = some (some d) ∧ F'.store.id v = Int64.ofNat (n + F'.allocated d v) := by
  have hnum := h.issues.numbered ((F.env d).start_numbered F.store)
  have hlength := hF.length_eq
  intro v hv hlt
  rw [h.eq] at hlt ⊢
  simp only [allocated] at hlt ⊢
  by_cases hold : v < F.store.size
  · obtain ⟨d', horigin, hid⟩ := hF.new v hv hold
    refine ⟨d', ?_, ?_⟩
    · rw [List.getElem?_append_left (by omega), horigin]
    · rw [List.take_append_of_le_length (by omega), h.issues.id_eq v hold]
      exact hid
  · refine ⟨d, ?_, ?_⟩
    · rw [List.getElem?_append_right (by omega), List.getElem?_replicate_of_lt (by omega)]
    · have hle : F.store.size ≤ v := Nat.le_of_not_lt hold
      have hcount : ((F.origin ++ List.replicate (st.store.size - F.store.size) (some d)).take
          v).count (some d) = F.origin.count (some d) + (v - F.store.size) := by
        rw [List.take_append, List.take_of_length_le (by omega), List.count_append,
          List.take_replicate, List.count_replicate_self, hlength]
        omega
      rw [hcount, hnum.id_eq v hle hlt, hF.next d, ← Int64.ofNat_add, Nat.add_assoc]

theorem Sound.next_ran {ts : List Ty} (hF : F.Sound n) (h : Ran F F' d st ts) (d' : Side) :
    (F'.env d').nextId = Int64.ofNat (n + F'.origin.count (some d')) := by
  have hnum := h.issues.numbered ((F.env d).start_numbered F.store)
  rw [h.eq]
  by_cases hd : d' = d
  · subst hd
    simp only [Function.update_self, List.count_append, List.count_replicate_self]
    rw [hnum.nextId_eq, hF.next d', ← Int64.ofNat_add, Nat.add_assoc]
  · have hne : (some d == some d') = false := by simpa using Ne.symm hd
    simp only [Function.update_of_ne hd, List.count_append, List.count_replicate, hne]
    simpa using hF.next d'

theorem Sound.ran {ts : List Ty} (hF : F.Sound n) (h : Ran F F' d st ts) : F'.Sound n := by
  have ht := h.changes.touches
  have hlength := hF.length_eq
  have hle := h.issues.size_le
  have hnew := hF.new_ran h
  have hnext := hF.next_ran h
  obtain rfl := h.eq
  refine ⟨hF.store.changes h.changes, ?_, ?_, ?_, ?_, hnew, hnext⟩
  · intro d'
    by_cases hd : d' = d
    · subst hd
      simpa using (hF.scope d').touches ht
    · simpa [Function.update_of_ne hd] using (hF.scope d').touches ht
  · intro t htmem
    rcases List.mem_append.mp htmem with htmem | htmem
    · exact ht.proper (hF.returned t htmem)
    · exact h.proper t htmem
  · simp only [List.length_append, List.length_replicate]
    simp only [Env.start] at hle
    omega
  · intro v hv
    obtain ⟨horigin, hid⟩ := hF.old v hv
    have hlt := (List.getElem?_eq_some_iff.mp horigin).1
    refine ⟨?_, ?_⟩
    · rw [List.getElem?_append_left hlt, horigin]
    · rw [← hid]
      exact h.issues.id_eq v (hlength ▸ hlt)

theorem Sound.steps (hF : F.Sound n) (h : Relation.ReflTransGen Step F F') : F'.Sound n := by
  induction h with
  | refl => exact hF
  | tail _ hstep ih =>
      obtain ⟨d, st, ts, hran⟩ := ih.ran_of_step hstep
      exact ih.ran hran

/-! ## Cells with the same identifier -/

theorem allocated_lt (hv : F.origin[v]? = some (some d)) (h : v < w) :
    F.allocated d v < F.allocated d w := by
  have hsucc : (F.origin.take (v + 1)).count (some d) = F.allocated d v + 1 := by
    rw [List.take_add_one, hv, List.count_append, allocated]
    simp
  have hle : (F.origin.take (v + 1)).count (some d) ≤ F.allocated d w :=
    (List.take_sublist_take_left h).count_le (some d)
  omega

theorem allocated_lt_count (hv : F.origin[v]? = some (some d)) :
    F.allocated d v < F.origin.count (some d) := by
  have hlt := allocated_lt hv (List.getElem?_eq_some_iff.mp hv).1
  rwa [allocated, allocated, List.take_length] at hlt

theorem Sound.toInt_id_of_old (hF : F.Sound n) (hn : n < 2 ^ 63) (hv : v < n) :
    (F.store.id v).toInt = v := by
  rw [(hF.old v hv).2, Int64.toInt_ofNat_of_lt (hv.trans hn)]

theorem Sound.toInt_id_of_new (hF : F.Sound n) (hwrap : n + F.origin.count (some d) < 2 ^ 63)
    (hv : F.origin[v]? = some (some d)) : (F.store.id v).toInt = n + F.allocated d v := by
  have hlt : v < F.store.size := hF.length_eq ▸ (List.getElem?_eq_some_iff.mp hv).1
  have hle : n ≤ v := by
    by_contra hold
    have hnone := (hF.old v (Nat.lt_of_not_le hold)).1
    simp [hv] at hnone
  obtain ⟨d', hd', hid⟩ := hF.new v hle hlt
  obtain rfl : d = d' := by simpa [hv] using hd'
  have hcount := allocated_lt_count hv
  rw [hid, Int64.toInt_ofNat_of_lt (by omega), Int.natCast_add]

theorem Sound.id_eq_iff (hF : F.Sound n) (hwrap : ∀ d, n + F.origin.count (some d) < 2 ^ 63)
    (hv : v < F.store.size) (hw : w < F.store.size) :
    F.store.id v = F.store.id w ↔ v = w ∨ ∃ d, F.origin[v]? = some (some d) ∧
      F.origin[w]? = some (some d.other) ∧ F.allocated d v = F.allocated d.other w := by
  have hn : n < 2 ^ 63 := (Nat.le_add_right n _).trans_lt (hwrap .parent)
  have hcases : ∀ u < F.store.size, u < n ∨ ∃ d, F.origin[u]? = some (some d) := by
    intro u hu
    by_cases hold : u < n
    · exact .inl hold
    · obtain ⟨d, hd, -⟩ := hF.new u (Nat.le_of_not_lt hold) hu
      exact .inr ⟨d, hd⟩
  constructor
  · intro heq
    have htoInt := congrArg Int64.toInt heq
    rcases hcases v hv with hv | ⟨d, hd⟩ <;> rcases hcases w hw with hw | ⟨d', hd'⟩
    · rw [hF.toInt_id_of_old hn hv, hF.toInt_id_of_old hn hw] at htoInt
      omega
    · rw [hF.toInt_id_of_old hn hv, hF.toInt_id_of_new (hwrap d') hd'] at htoInt
      omega
    · rw [hF.toInt_id_of_new (hwrap d) hd, hF.toInt_id_of_old hn hw] at htoInt
      omega
    · rw [hF.toInt_id_of_new (hwrap d) hd, hF.toInt_id_of_new (hwrap d') hd'] at htoInt
      by_cases hside : d' = d
      · -- of two cells of one side the later one has the greater number
        subst hside
        rcases Nat.lt_trichotomy v w with hlt | rfl | hlt
        · have := allocated_lt hd hlt
          omega
        · exact .inl rfl
        · have := allocated_lt hd' hlt
          omega
      · obtain rfl := Side.eq_other_of_ne hside
        exact .inr ⟨d, hd, hd', by omega⟩
  · rintro (rfl | ⟨d, hd, hd', hcount⟩)
    · rfl
    · rw [← Int64.toInt_inj, hF.toInt_id_of_new (hwrap d) hd, hF.toInt_id_of_new (hwrap _) hd',
        hcount]

end Fork

/-- In what runs over an environment and its extension return, at any later time, two unbound cells
have the same identifier just if runs over different sides have added them, each after as many cells
of its own. -/
theorem fork_same_id_iff (S : Session) (hS : Relation.ReflTransGen Session.Step {} S) (x : String)
    (σ : Scheme) (hσ : S.store.Builds σ.body) (F : Fork)
    (hF : Relation.ReflTransGen Fork.Step (S.fork x σ) F)
    (hwrap : ∀ d, S.store.size + F.origin.count (some d) < 2 ^ 63) (t : Ty) (ht : t ∈ F.returned)
    (v w : Nat) (hv : F.store.Reaches t v) (hvfree : F.store.link v = none)
    (hw : F.store.Reaches t w) (hwfree : F.store.link w = none) :
    F.store.id v = F.store.id w ↔ v = w ∨ ∃ d, F.origin[v]? = some (some d) ∧
      F.origin[w]? = some (some d.other) ∧ F.allocated d v = F.allocated d.other w := by
  have hsound := (Session.sound_empty.steps hS).1
  have hfork := (Fork.sound_fork hsound x hσ).steps hF
  have hg := (hfork.returned t ht).grounded
  have hlt : ∀ u, F.store.Reaches t u → F.store.link u = none → u < F.store.size :=
    fun u hu hfree => hg.lt_size_of_mem_unbound (hg.mem_unbound.mpr ⟨hu, hfree⟩)
  exact hfork.id_eq_iff hwrap (hlt v hv hvfree) (hlt w hw hwfree)

theorem sharedSession_steps : Relation.ReflTransGen Session.Step {} sharedSession := by
  have hvar : Session.Step {} (Command.newVar.perform {}) := ⟨.newVar, trivial, rfl⟩
  have hbuilds : (Command.newVar.perform {}).store.Builds (.var 0) := by decide
  exact (Relation.ReflTransGen.single hvar).tail ⟨.declareInvariant "f" (.var 0), hbuilds, rfl⟩

/-- A run of `f ()` over an environment has linked its cell. -/
def linkedFork : Fork :=
  (sharedSession.fork "g" (.mono .unit)).infer .parent {} (.call (.var "f") .unit)

/-- A run of `fun x -> f` over the extension follows, for its scheme. -/
def confusedFork : Fork :=
  linkedFork.inferScheme .extended {} (.lam "x" (.var "f"))

theorem confusedFork_steps :
    Relation.ReflTransGen Fork.Step (sharedSession.fork "g" (.mono .unit)) confusedFork :=
  (Relation.ReflTransGen.single (.infer .parent {} _)).tail (.inferScheme .extended {} _)

/-- A run of `fun x -> fun y -> f` over the environment, after one over its extension. -/
def laterFork : Fork :=
  confusedFork.infer .parent {} (.lam "x" (.lam "y" (.var "f")))

/-- The second run over the environment goes on after the cell of its first run, so its own cells
are told apart. -/
theorem fork_same_id_iff_later :
    Relation.ReflTransGen Session.Step {} sharedSession ∧
    Relation.ReflTransGen Fork.Step (sharedSession.fork "g" (.mono .unit)) laterFork ∧
    .arrow (.var 3) (.arrow (.var 4) (.var 0)) ∈ laterFork.returned ∧
    laterFork.origin = [none, some .parent, some .extended, some .parent, some .parent] ∧
    laterFork.store.id 1 ≠ laterFork.store.id 4 ∧ laterFork.store.id 3 ≠ laterFork.store.id 4 := by
  have hsteps := confusedFork_steps.tail
    (.infer .parent {} (.lam "x" (.lam "y" (.var "f"))))
  have hmem : .arrow (.var 3) (.arrow (.var 4) (.var 0)) ∈ laterFork.returned := by decide
  have horigin : laterFork.origin =
      [none, some .parent, some .extended, some .parent, some .parent] := by decide
  have hwrap : ∀ d, sharedSession.store.size + laterFork.origin.count (some d) < 2 ^ 63 := by
    intro d
    cases d <;> decide
  have hlink : laterFork.store.link 0 = some (.arrow .unit (.var 1)) := by decide
  have hiff := fork_same_id_iff sharedSession sharedSession_steps "g" (.mono .unit) (by decide)
    laterFork hsteps hwrap _ hmem
  refine ⟨sharedSession_steps, hsteps, hmem, horigin, ?_, ?_⟩
  · have hcells := hiff 1 4 (.ret (.ret (.link hlink (.ret (.here 1))))) (by decide)
      (.ret (.param (.here 4))) (by decide)
    intro heq
    rcases hcells.mp heq with h | ⟨d, hd, hd', -⟩
    · exact absurd h (by decide)
    · cases d <;> simp [horigin, Side.other] at hd hd'
  · have hcells := hiff 3 4 (.param (.here 3)) (by decide) (.ret (.param (.here 4))) (by decide)
    intro heq
    rcases hcells.mp heq with h | ⟨d, hd, hd', -⟩
    · exact absurd h (by decide)
    · cases d <;> simp [horigin, Side.other] at hd hd'

/-- The scheme that is returned over the extension has a cell of its own, and leads to a cell that
was added over the environment. Both have the identifier that the scheme quantifies. -/
theorem fork_confuses_ids :
    Relation.ReflTransGen Session.Step {} sharedSession ∧
    Relation.ReflTransGen Fork.Step (sharedSession.fork "g" (.mono .unit)) confusedFork ∧
    (({} : Context).inferScheme (some (linkedFork.env .extended)) linkedFork.store
      (.lam "x" (.var "f"))).result = .ok { vars := [1], body := .arrow (.var 2) (.var 0) } ∧
    .arrow (.var 2) (.var 0) ∈ confusedFork.returned ∧
    confusedFork.store.Reaches (.arrow (.var 2) (.var 0)) 2 ∧ confusedFork.store.link 2 = none ∧
    confusedFork.store.Reaches (.arrow (.var 2) (.var 0)) 1 ∧ confusedFork.store.link 1 = none ∧
    confusedFork.store.id 2 = 1 ∧ confusedFork.store.id 1 = 1 := by
  have hlink : confusedFork.store.link 0 = some (.arrow .unit (.var 1)) := by decide
  exact ⟨sharedSession_steps, confusedFork_steps, by decide, by decide, .param (.here 2),
    by decide, .ret (.link hlink (.ret (.here 1))), by decide, by decide, by decide⟩

end LetPoly
