import LetPoly.Proofs.Decoding

/-! # The decoder halts

Aliases may lead around in circles, the content of nodes does not. Between two aliases the decoder
meets no node twice, and an alias is followed only to a node that is not being expanded yet, so the
way down ends before the budget does. Whatever the decoder ends with, it has closed again what it
opened.
-/

namespace LetPoly.Yaml.Graph

variable {α β : Type} {g : Graph} {i j m n v : Nat} {key : String} {o : List Nat}

/-! ## Computations that settle -/

/-- Two computations give the same result or the same error, and neither changes what is being
expanded. -/
def Settle (o : List Nat) (act act' : DecodeM α) : Prop :=
  (∃ a, act o = .ok a o ∧ act' o = .ok a o) ∨
    ∃ e, act o = .error (.error e) o ∧ act' o = .error (.error e) o

theorem Settle.eq {act act' : DecodeM α} (h : Settle o act act') : act' o = act o := by
  rcases h with ⟨a, hact, hact'⟩ | ⟨e, hact, hact'⟩
  · rw [hact, hact']
  · rw [hact, hact']

/-- Whether computations settle depends only on what they do from here. -/
theorem Settle.congr {act act' act₁ act₁' : DecodeM α} (h : Settle o act act')
    (hact : act₁ o = act o) (hact' : act₁' o = act' o) : Settle o act₁ act₁' := by
  unfold Settle at h ⊢
  rwa [hact, hact']

theorem settle_pure (a : α) : Settle o (pure a) (pure a) :=
  .inl ⟨a, rfl, rfl⟩

theorem settle_refuse (node : Node) (problem : NodeProblem) :
    Settle o (node.refuse problem : DecodeM α) (node.refuse problem) :=
  .inr ⟨_, rfl, rfl⟩

/-- Computations settle if what follows the result of the first one does. -/
theorem Settle.bind {act act' : DecodeM α} {f f' : α → DecodeM β} (h : Settle o act act')
    (hf : ∀ a, act o = .ok a o → Settle o (f a) (f' a)) : Settle o (act >>= f) (act' >>= f') := by
  rcases h with ⟨a, hact, hact'⟩ | ⟨e, hact, hact'⟩
  · exact (hf a hact).congr (by rw [bind_apply, hact]) (by rw [bind_apply, hact'])
  · exact .inr ⟨e, by rw [bind_apply, hact], by rw [bind_apply, hact']⟩

theorem settle_mapM {f f' : α → DecodeM β} (xs : List α) (h : ∀ x ∈ xs, Settle o (f x) (f' x)) :
    Settle o (xs.mapM f) (xs.mapM f') := by
  induction xs with
  | nil => exact settle_pure []
  | cons x xs ih =>
      rw [List.forall_mem_cons] at h
      rw [List.mapM_cons, List.mapM_cons]
      refine h.1.bind fun y _ => ?_
      exact (ih h.2).bind fun ys _ => settle_pure (y :: ys)

/-- What an alias opens is closed again. -/
theorem Settle.expanding {act act' : DecodeM α} (h : Settle (j :: o) act act') :
    Settle o (expanding j act) (expanding j act') := by
  rcases h with ⟨a, hact, hact'⟩ | ⟨e, hact, hact'⟩
  · refine .inl ⟨a, ?_, ?_⟩
    · simp [LetPoly.expanding, hact]
    · simp [LetPoly.expanding, hact']
  · refine .inr ⟨e, ?_, ?_⟩
    · simp [LetPoly.expanding, hact]
    · simp [LetPoly.expanding, hact']

theorem settle_bindingName (node : Node) : Settle o node.bindingName node.bindingName := by
  rw [Node.bindingName]
  split
  · exact settle_refuse node _
  · exact settle_pure node.value

theorem settle_collectFields (keys : List String) (content : List Nat)
    (found : List (String × Nat)) :
    Settle o (g.collectFields keys content found) (g.collectFields keys content found) := by
  fun_induction collectFields g keys content found with
  | case1 => exact settle_refuse _ _
  | case2 => exact settle_refuse _ _
  | case3 _ _ _ _ _ _ _ ih => exact ih
  | case4 _ found => exact settle_pure found

theorem settle_fields (node : Node) (keys : List String) :
    Settle o (g.fields node keys) (g.fields node keys) := by
  rw [fields]
  split
  · exact settle_refuse node _
  · refine (settle_collectFields keys node.content []).bind fun found _ => ?_
    refine settle_mapM keys fun key _ => ?_
    cases found.lookup key with
    | none => exact settle_refuse node _
    | some v => exact settle_pure v

/-- The fields that are read at a form are parts of it. -/
theorem parts_of_fields {keys : List String} {vs o' : List Nat} (hform : g.IsForm i key v)
    (hkeys : keys.Nodup) (h : g.fields (g.node v) keys o = .ok vs o') :
    vs.length = keys.length ∧ ∀ j ∈ vs, g.Part i j := by
  obtain ⟨hkind, hlength, hperm⟩ := fields_sound hkeys h
  refine ⟨hlength, fun j hj => .field hform hkind ((hperm.map Prod.snd).mem_iff.mpr ?_)⟩
  rwa [List.map_snd_zip hlength.le]

/-! ## One step of the decoder

The decoder settles at a node if it settles at the parts of the node. -/

section Forms

variable (ih : ∀ j, g.Part i j → Settle o (g.decodeUpTo n j) (g.decodeUpTo m j))
include ih

theorem settle_fun (hform : g.IsForm i "fun" v) :
    Settle o (g.decodeUpTo (n + 1) i) (g.decodeUpTo (m + 1) i) := by
  rw [decodeUpTo_fun hform, decodeUpTo_fun hform]
  refine (settle_fields (g.node v) ["arg", "body"]).bind fun vs hvs => ?_
  obtain ⟨hlength, hparts⟩ := parts_of_fields hform (by decide) hvs
  obtain ⟨arg, body, rfl⟩ := List.length_eq_two.mp hlength
  refine (settle_bindingName (g.node arg)).bind fun x _ => ?_
  exact (ih body (hparts body (by simp))).bind fun e _ => settle_pure _

theorem settle_call (hform : g.IsForm i "call" v) (hv : (g.node v).kind ≠ .sequence) :
    Settle o (g.decodeUpTo (n + 1) i) (g.decodeUpTo (m + 1) i) := by
  rw [decodeUpTo_call hform hv, decodeUpTo_call hform hv]
  refine (settle_fields (g.node v) ["func", "arg"]).bind fun vs hvs => ?_
  obtain ⟨hlength, hparts⟩ := parts_of_fields hform (by decide) hvs
  obtain ⟨func, arg, rfl⟩ := List.length_eq_two.mp hlength
  refine (ih func (hparts func (by simp))).bind fun f _ => ?_
  exact (ih arg (hparts arg (by simp))).bind fun a _ => settle_pure _

theorem settle_calls (hform : g.IsForm i "call" v) (hv : (g.node v).kind = .sequence) :
    Settle o (g.decodeUpTo (n + 1) i) (g.decodeUpTo (m + 1) i) := by
  rw [decodeUpTo_calls hform hv, decodeUpTo_calls hform hv]
  split
  · exact settle_refuse (g.node v) _
  · have hitems : ∀ j ∈ (g.node v).content, Settle o (g.decodeUpTo n j) (g.decodeUpTo m j) :=
      fun j hj => ih j (.item hform hv hj)
    refine (settle_mapM (g.node v).content hitems).bind fun es _ => ?_
    cases es with
    | nil => exact settle_refuse (g.node v) _
    | cons func args => exact settle_pure _

theorem settle_let (hform : g.IsForm i "let" v) :
    Settle o (g.decodeUpTo (n + 1) i) (g.decodeUpTo (m + 1) i) := by
  rw [decodeUpTo_let hform, decodeUpTo_let hform]
  refine (settle_fields (g.node v) ["var", "value", "body"]).bind fun vs hvs => ?_
  obtain ⟨hlength, hparts⟩ := parts_of_fields hform (by decide) hvs
  obtain ⟨name, value, body, rfl⟩ := List.length_eq_three.mp hlength
  refine (settle_bindingName (g.node name)).bind fun x _ => ?_
  refine (ih value (hparts value (by simp))).bind fun e _ => ?_
  exact (ih body (hparts body (by simp))).bind fun e' _ => settle_pure _

theorem settle_form (hform : g.IsForm i key v) :
    Settle o (g.decodeUpTo (n + 1) i) (g.decodeUpTo (m + 1) i) := by
  by_cases hfun : key = "fun"
  · subst hfun
    exact settle_fun ih hform
  by_cases hcall : key = "call"
  · subst hcall
    by_cases hkind : (g.node v).kind = .sequence
    · exact settle_calls ih hform hkind
    · exact settle_call ih hform hkind
  by_cases hlet : key = "let"
  · subst hlet
    exact settle_let ih hform
  · obtain ⟨hkind, k, hcontent, rfl⟩ := hform
    have hrefuse : ∀ n, g.decodeUpTo (n + 1) i =
        (g.node k).refuse (.unknownForm (g.node k).value) := by
      intro n
      rw [decodeUpTo]
      simp [hkind, hcontent, hfun, hcall, hlet]
    rw [hrefuse n, hrefuse m]
    exact settle_refuse _ _

theorem settle_mapping (hkind : (g.node i).kind = .mapping) :
    Settle o (g.decodeUpTo (n + 1) i) (g.decodeUpTo (m + 1) i) := by
  rcases hcontent : (g.node i).content with _ | ⟨k, _ | ⟨v, _ | ⟨w, rest⟩⟩⟩
  case cons.cons.nil => exact settle_form ih ⟨hkind, k, hcontent, rfl⟩
  all_goals
    simp only [decodeUpTo, hkind, hcontent]
    exact settle_refuse _ _

theorem settle_document (hkind : (g.node i).kind = .document) :
    Settle o (g.decodeUpTo (n + 1) i) (g.decodeUpTo (m + 1) i) := by
  rcases hcontent : (g.node i).content with _ | ⟨child, _ | ⟨w, rest⟩⟩
  case cons.nil =>
    rw [decodeUpTo_document hkind hcontent, decodeUpTo_document hkind hcontent]
    exact ih child (.document hkind hcontent)
  all_goals
    simp only [decodeUpTo, hkind, hcontent]
    exact settle_refuse _ _

omit ih

theorem settle_scalar (hkind : (g.node i).kind = .scalar) :
    Settle o (g.decodeUpTo (n + 1) i) (g.decodeUpTo (m + 1) i) := by
  simp only [decodeUpTo, hkind]
  split
  · exact settle_pure _
  · split
    · exact settle_refuse _ _
    · exact settle_pure _

theorem settle_unexpected (hkind : (g.node i).kind = .sequence ∨ (g.node i).kind = .unknown) :
    Settle o (g.decodeUpTo (n + 1) i) (g.decodeUpTo (m + 1) i) := by
  rcases hkind with hkind | hkind
  all_goals
    simp only [decodeUpTo, hkind]
    exact settle_refuse _ _

end Forms

/-! ## The way down -/

/-- The second node stands in the content of the first one. -/
def Contains (g : Graph) (i j : Nat) : Prop :=
  j ∈ (g.node i).content

/-- No node stands in its own content, however far down. -/
def Acyclic (g : Graph) : Prop :=
  ∀ i, ¬ Relation.TransGen g.Contains i i

/-- Every alias has a target. -/
def Targeted (g : Graph) : Prop :=
  ∀ i < g.size, (g.node i).kind = .alias → (g.node i).target.isSome

instance (g : Graph) : Decidable g.Targeted :=
  inferInstanceAs (Decidable (∀ i < g.size, _ → _))

theorem mem_of_mem_entries (content : List Nat)
    (h : j ∈ (g.entries content).map Prod.snd) : j ∈ content := by
  induction content using pairs.induct with
  | case1 k v rest ih =>
      rw [entries_cons, List.map_cons, List.mem_cons] at h
      rcases h with rfl | h
      · simp
      · exact List.mem_cons_of_mem k (List.mem_cons_of_mem v (ih h))
  | case2 content hcontent => simp [entries, pairs] at h

theorem IsForm.contains (h : g.IsForm i key v) : g.Contains i v := by
  obtain ⟨-, k, hcontent, -⟩ := h
  simp [Contains, hcontent]

/-- But for aliases, the parts of a node lie in its content. -/
theorem Part.transGen (h : g.Part i j) (hkind : (g.node i).kind ≠ .alias) :
    Relation.TransGen g.Contains i j := by
  cases h with
  | document _ hcontent => exact .single (by simp [Contains, hcontent])
  | aliased halias => exact absurd halias hkind
  | field hform _ hj => exact .tail (.single hform.contains) (mem_of_mem_entries _ hj)
  | item hform _ hj => exact .tail (.single hform.contains) hj

/-- The number of nodes that are not being expanded. -/
def unopened (g : Graph) (o : List Nat) : Nat :=
  ((Finset.range g.size).filter (· ∉ o)).card

theorem unopened_le_size : g.unopened o ≤ g.size := by
  have hcard := Finset.card_filter_le (Finset.range g.size) (· ∉ o)
  rwa [Finset.card_range] at hcard

theorem unopened_cons (hj : j < g.size) (hnew : j ∉ o) :
    g.unopened (j :: o) + 1 = g.unopened o := by
  have hset : (Finset.range g.size).filter (· ∉ j :: o) =
      ((Finset.range g.size).filter (· ∉ o)).erase j := by
    ext w
    simp only [Finset.mem_filter, Finset.mem_erase, List.mem_cons, not_or]
    tauto
  have hmem : j ∈ (Finset.range g.size).filter (· ∉ o) := by simp [hj, hnew]
  rw [unopened, hset, Finset.card_erase_add_one hmem, unopened]

/-- The decoder has come down to a node from those above it, through their content, since it last
followed an alias. What is left of the budget is enough for every way further down: one round of the
nodes for each node that is not being expanded, and what remains of the current round. -/
structure Affords (g : Graph) (above : Finset Nat) (o : List Nat) (n i : Nat) : Prop where
  lt_size : ∀ w ∈ above, w < g.size
  leads : ∀ w ∈ above, Relation.TransGen g.Contains w i
  budget : g.unopened o * (g.size + 1) + g.size < n + above.card

variable {above : Finset Nat}

theorem affords_start (hn : (g.size + 1) * (g.size + 1) ≤ n) : g.Affords ∅ o n i where
  lt_size := by simp
  leads := by simp
  budget := by
    have hrounds := Nat.mul_le_mul_right (g.size + 1) (unopened_le_size (g := g) (o := o))
    rw [Nat.add_mul, Nat.one_mul] at hn
    rw [Finset.card_empty]
    omega

theorem Affords.not_mem (h : g.Affords above o n i) (hacyclic : g.Acyclic) : i ∉ above :=
  fun hmem => hacyclic i (h.leads i hmem)

theorem Affords.exists_succ (h : g.Affords above o n i) : ∃ k, n = k + 1 := by
  have hcard := card_le_size h.lt_size
  have hbudget := h.budget
  exact ⟨n - 1, by omega⟩

theorem Affords.card_lt (h : g.Affords above o n i) (hacyclic : g.Acyclic) (hi : i < g.size) :
    above.card < g.size := by
  have hcard := card_le_size ((Finset.forall_mem_insert _ _ _).mpr ⟨hi, h.lt_size⟩)
  rw [Finset.card_insert_of_notMem (h.not_mem hacyclic)] at hcard
  omega

/-- After a node of the graph there is enough for one more. -/
theorem Affords.exists_succ_of_lt (h : g.Affords above o (n + 1) i) (hacyclic : g.Acyclic)
    (hi : i < g.size) : ∃ k, n = k + 1 := by
  have hcard := h.card_lt hacyclic hi
  have hbudget := h.budget
  exact ⟨n - 1, by omega⟩

/-- The decoder goes down to a part in the content of the node. -/
theorem Affords.part (h : g.Affords above o (n + 1) i) (hacyclic : g.Acyclic) (hi : i < g.size)
    (hj : Relation.TransGen g.Contains i j) : g.Affords (insert i above) o n j where
  lt_size := (Finset.forall_mem_insert _ _ _).mpr ⟨hi, h.lt_size⟩
  leads w hw := by
    rcases Finset.mem_insert.mp hw with rfl | hw
    · exact hj
    · exact (h.leads w hw).trans hj
  budget := by
    have hbudget := h.budget
    rw [Finset.card_insert_of_notMem (h.not_mem hacyclic)]
    omega

/-- The decoder follows an alias, and a new round begins. -/
theorem Affords.alias (h : g.Affords above o (n + 1) i) (hacyclic : g.Acyclic) (hi : i < g.size)
    (hj : j < g.size) (hnew : j ∉ o) : g.Affords ∅ (j :: o) n j where
  lt_size := by simp
  leads := by simp
  budget := by
    have hbudget := h.budget
    have hcard := h.card_lt hacyclic hi
    rw [← unopened_cons hj hnew, Nat.add_mul, Nat.one_mul] at hbudget
    rw [Finset.card_empty]
    omega

/-! ## The whole run -/

theorem kind_of_size_le (h : g.size ≤ i) : (g.node i).kind = .unknown := by
  by_contra hkind
  exact Nat.not_lt_of_le h (lt_size_of_kind hkind)

theorem settle_alias (hacyclic : g.Acyclic) (hkind : (g.node i).kind = .alias)
    (htarget : (g.node i).target = some j) {above' : Finset Nat}
    (h : g.Affords above o (n + 1) i) (h' : g.Affords above' o (m + 1) i)
    (ih : g.Affords ∅ (j :: o) n j → g.Affords ∅ (j :: o) m j →
      Settle (j :: o) (g.decodeUpTo n j) (g.decodeUpTo m j)) :
    Settle o (g.decodeUpTo (n + 1) i) (g.decodeUpTo (m + 1) i) := by
  have hi : i < g.size := lt_size_of_kind (by simp [hkind])
  by_cases hopen : j ∈ o
  · have hrefuse : ∀ k, g.decodeUpTo (k + 1) i o =
        (g.node i).refuse (.recursiveAlias (g.node i).value) o := by
      intro k
      rw [decodeUpTo_alias hkind htarget, if_pos (by simpa using hopen)]
    exact (settle_refuse _ _).congr (hrefuse n) (hrefuse m)
  · have hexpand : ∀ k, g.decodeUpTo (k + 1) i o = expanding j (g.decodeUpTo k j) o := by
      intro k
      rw [decodeUpTo_alias hkind htarget, if_neg (by simpa using hopen)]
    refine Settle.congr (.expanding ?_) (hexpand n) (hexpand m)
    by_cases hj : j < g.size
    · exact ih (h.alias hacyclic hi hj hopen) (h'.alias hacyclic hi hj hopen)
    · -- a target outside the graph is refused, for which any budget is enough
      obtain ⟨n, rfl⟩ := h.exists_succ_of_lt hacyclic hi
      obtain ⟨m, rfl⟩ := h'.exists_succ_of_lt hacyclic hi
      exact settle_unexpected (.inr (kind_of_size_le (Nat.le_of_not_lt hj)))

/-- Whatever the budgets, as long as they are enough, the decoder settles in the same way. -/
theorem settle_decodeUpTo (hacyclic : g.Acyclic) (htargeted : g.Targeted) {above' : Finset Nat}
    (h : g.Affords above o n i) (h' : g.Affords above' o m i) :
    Settle o (g.decodeUpTo n i) (g.decodeUpTo m i) := by
  induction n generalizing above above' o m i with
  | zero =>
      obtain ⟨k, hk⟩ := h.exists_succ
      cases hk
  | succ n ih =>
      obtain ⟨m, rfl⟩ := h'.exists_succ
      have hparts (hi : i < g.size) (hkind : (g.node i).kind ≠ .alias) :
          ∀ j, g.Part i j → Settle o (g.decodeUpTo n j) (g.decodeUpTo m j) := by
        intro j hj
        have hdown := hj.transGen hkind
        exact ih (h.part hacyclic hi hdown) (h'.part hacyclic hi hdown)
      cases hkind : (g.node i).kind with
      | document =>
          exact settle_document (hparts (lt_size_of_kind (by simp [hkind])) (by simp [hkind])) hkind
      | mapping =>
          exact settle_mapping (hparts (lt_size_of_kind (by simp [hkind])) (by simp [hkind])) hkind
      | scalar => exact settle_scalar hkind
      | sequence => exact settle_unexpected (.inl hkind)
      | unknown => exact settle_unexpected (.inr hkind)
      | «alias» =>
          have hi : i < g.size := lt_size_of_kind (by simp [hkind])
          obtain ⟨j, htarget⟩ := Option.isSome_iff_exists.mp (htargeted i hi hkind)
          exact settle_alias hacyclic hkind htarget h h' fun hj hj' => ih hj hj'

/-- Decoding a node comes to an end, with an expression or an error, and leaves the nodes being
expanded as they were. A larger budget changes nothing. -/
theorem decode_settles (g : Graph) (hacyclic : g.Acyclic) (htargeted : g.Targeted) (i : Nat)
    (o : List Nat) :
    ((∃ e, g.decode i o = .ok e o) ∨ ∃ error, g.decode i o = .error (.error error) o) ∧
    ∀ n, (g.size + 1) * (g.size + 1) ≤ n → g.decodeUpTo n i o = g.decode i o := by
  constructor
  · have hsettle : Settle o (g.decode i) (g.decode i) :=
      settle_decodeUpTo hacyclic htargeted (affords_start le_rfl) (affords_start le_rfl)
    rcases hsettle with ⟨e, hrun, -⟩ | ⟨error, hrun, -⟩
    · exact .inl ⟨e, hrun⟩
    · exact .inr ⟨error, hrun⟩
  · intro n hn
    exact (settle_decodeUpTo hacyclic htargeted (affords_start le_rfl) (affords_start hn)).eq

theorem acyclic_of_ascending (h : ∀ i < g.size, ∀ j ∈ (g.node i).content, i < j) : g.Acyclic := by
  have hlt : ∀ i j, g.Contains i j → i < j := by
    intro i j hj
    by_cases hi : i < g.size
    · exact h i hi j hj
    · have hnode : g.nodes[i]? = none := Array.getElem?_eq_none (Nat.le_of_not_lt hi)
      simp [Contains, node, hnode] at hj
  have hdown : ∀ i j, Relation.TransGen g.Contains i j → i < j := by
    intro i j hj
    induction hj with
    | single hj => exact hlt _ _ hj
    | tail _ hj ih => exact ih.trans (hlt _ _ hj)
  exact fun i hi => Nat.lt_irrefl i (hdown i i hi)

/-- The document `&a {call: [{fun: {arg: x, body: *b}}, &b *a]}`. -/
def loopDocument : Graph where
  nodes := #[{ kind := .document, content := [1] }, { kind := .mapping, content := [2, 3] },
    { kind := .scalar, value := "call" }, { kind := .sequence, content := [4, 11] },
    { kind := .mapping, content := [5, 6] }, { kind := .scalar, value := "fun" },
    { kind := .mapping, content := [7, 8, 9, 10] }, { kind := .scalar, value := "arg" },
    { kind := .scalar, value := "x" }, { kind := .scalar, value := "body" },
    { kind := .alias, value := "b", target := some 11 },
    { kind := .alias, value := "a", target := some 1 }]

/-- The alias of an alias leads back to the mapping around it. It is opened once, refused the second
time, and closed again. -/
theorem decode_settles_loop :
    loopDocument.Acyclic ∧ loopDocument.Targeted ∧
      loopDocument.decode 0 [8] =
        .error (.error ⟨0, .recursiveAlias "b"⟩) [8] := by
  have hacyclic : loopDocument.Acyclic := acyclic_of_ascending (by decide)
  have htargeted : loopDocument.Targeted := by decide
  refine ⟨hacyclic, htargeted, ?_⟩
  rcases (decode_settles loopDocument hacyclic htargeted 0 [8]).1 with ⟨e, hrun⟩ | ⟨error, hrun⟩
  · cases hrun
  · cases hrun
    rfl

end LetPoly.Yaml.Graph
