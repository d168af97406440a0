import LetPoly.Proofs.Grammar
import Mathlib.Data.Finset.Card
import Mathlib.Logic.Relation

/-! # The decoder goes by the grammar

The decoder goes by a budget and by the nodes that it is expanding. Neither makes a difference to
what it accepts: a node that denotes an expression lies on no circle, so the way down to it holds no
node twice.
-/

namespace LetPoly.Yaml.Graph

variable {g : Graph} {i j n v w : Nat} {e : Expr} {x key : String} {o o' : List Nat}
  {keys : List String} {vs : List Nat} {fs : List (String × Nat)}

/-! ## Soundness -/

/-- The node is a mapping of exactly the given fields, in any order. Behind them a key may stand
that has no value. -/
structure Table (g : Graph) (i : Nat) (fs : List (String × Nat)) : Prop where
  kind : (g.node i).kind = .mapping
  perm : (g.entries (g.node i).content).Perm fs

theorem table_of_fields (hkeys : keys.Nodup) (h : g.fields (g.node i) keys o = .ok vs o') :
    vs.length = keys.length ∧ g.Table i (keys.zip vs) := by
  obtain ⟨hkind, hlength, hperm⟩ := fields_sound hkeys h
  exact ⟨hlength, hkind, hperm⟩

/-- By one rule the node stands for the expression, if the parts do what `R` says. -/
inductive Rule (g : Graph) (R : Nat → Expr → Prop) : Nat → Expr → Prop where
  | document {i child : Nat} {e : Expr} (hkind : (g.node i).kind = .document)
      (hcontent : (g.node i).content = [child]) (h : R child e) : Rule g R i e
  | aliased {i target : Nat} {e : Expr} (hkind : (g.node i).kind = .alias)
      (htarget : (g.node i).target = some target) (h : R target e) : Rule g R i e
  | unit {i : Nat} (hkind : (g.node i).kind = .scalar) (hvalue : (g.node i).value = "()") :
      Rule g R i .unit
  | var {i : Nat} {x : String} (h : g.Names i x) : Rule g R i (.var x)
  | lam {i v arg body : Nat} {x : String} {e : Expr} (hform : g.IsForm i "fun" v)
      (hfields : g.Table v [("arg", arg), ("body", body)]) (harg : g.Names arg x)
      (hbody : R body e) : Rule g R i (.lam x e)
  | call {i v func arg : Nat} {f a : Expr} (hform : g.IsForm i "call" v)
      (hfields : g.Table v [("func", func), ("arg", arg)]) (hfunc : R func f) (harg : R arg a) :
      Rule g R i (.call f a)
  | letIn {i v name value body : Nat} {x : String} {e e' : Expr} (hform : g.IsForm i "let" v)
      (hfields : g.Table v [("var", name), ("value", value), ("body", body)])
      (hname : g.Names name x) (hvalue : R value e) (hbody : R body e') :
      Rule g R i (.letIn x e e')
  | calls {i v func : Nat} {args : List Nat} {f : Expr} {es : List Expr}
      (hform : g.IsForm i "call" v) (hkind : (g.node v).kind = .sequence)
      (hcontent : (g.node v).content = func :: args) (hne : args ≠ []) (hfunc : R func f)
      (hlength : es.length = args.length) (hargs : ∀ p ∈ args.zip es, R p.1 p.2) :
      Rule g R i (f.calls es)

theorem Rule.mono {R R' : Nat → Expr → Prop} (hR : ∀ j e, R j e → R' j e) (h : g.Rule R i e) :
    g.Rule R' i e := by
  cases h with
  | document hkind hcontent h => exact .document hkind hcontent (hR _ _ h)
  | aliased hkind htarget h => exact .aliased hkind htarget (hR _ _ h)
  | unit hkind hvalue => exact .unit hkind hvalue
  | var h => exact .var h
  | lam hform hfields harg hbody => exact .lam hform hfields harg (hR _ _ hbody)
  | call hform hfields hfunc harg => exact .call hform hfields (hR _ _ hfunc) (hR _ _ harg)
  | letIn hform hfields hname hvalue hbody =>
      exact .letIn hform hfields hname (hR _ _ hvalue) (hR _ _ hbody)
  | calls hform hkind hcontent hne hfunc hlength hargs =>
      exact .calls hform hkind hcontent hne (hR _ _ hfunc) hlength fun p hp =>
        hR _ _ (hargs p hp)

/-- With this budget the decoder gives the expression, for some nodes that are being expanded. -/
def Yields (g : Graph) (n i : Nat) (e : Expr) : Prop :=
  ∃ o o', g.decodeUpTo n i o = .ok e o'

theorem rule_of_fun (hform : g.IsForm i "fun" v) (h : g.decodeUpTo (n + 1) i o = .ok e o') :
    g.Rule (g.Yields n) i e := by
  rw [decodeUpTo_fun hform] at h
  obtain ⟨vs, o₁, hfields, h⟩ := bind_eq_ok.mp h
  obtain ⟨hlength, hfields⟩ := table_of_fields (by decide) hfields
  obtain ⟨arg, body, rfl⟩ := List.length_eq_two.mp hlength
  obtain ⟨x, o₂, harg, h⟩ := bind_eq_ok.mp h
  obtain ⟨e, o₃, hbody, h⟩ := bind_eq_ok.mp h
  cases h
  exact .lam hform hfields (bindingName_eq_ok.mp harg).1 ⟨_, _, hbody⟩

theorem rule_of_call (hform : g.IsForm i "call" v) (hkind : (g.node v).kind ≠ .sequence)
    (h : g.decodeUpTo (n + 1) i o = .ok e o') : g.Rule (g.Yields n) i e := by
  rw [decodeUpTo_call hform hkind] at h
  obtain ⟨vs, o₁, hfields, h⟩ := bind_eq_ok.mp h
  obtain ⟨hlength, hfields⟩ := table_of_fields (by decide) hfields
  obtain ⟨func, arg, rfl⟩ := List.length_eq_two.mp hlength
  obtain ⟨f, o₂, hfunc, h⟩ := bind_eq_ok.mp h
  obtain ⟨a, o₃, harg, h⟩ := bind_eq_ok.mp h
  cases h
  exact .call hform hfields ⟨_, _, hfunc⟩ ⟨_, _, harg⟩

theorem rule_of_calls (hform : g.IsForm i "call" v) (hkind : (g.node v).kind = .sequence)
    (h : g.decodeUpTo (n + 1) i o = .ok e o') : g.Rule (g.Yields n) i e := by
  rw [decodeUpTo_calls hform hkind, ite_run] at h
  split at h
  · exact absurd h refuse_ne_ok
  · rename_i hlong
    obtain ⟨es, o₁, hitems, h⟩ := bind_eq_ok.mp h
    obtain ⟨hlength, hall⟩ := mapM_sound hitems
    cases hcontent : (g.node v).content with
    | nil => simp [hcontent] at hlong
    | cons func args =>
        cases es with
        | nil => simp [hcontent] at hlength
        | cons f es =>
            cases h
            rw [hcontent, List.zip_cons_cons, List.forall_mem_cons] at hall
            have hne : args ≠ [] := by
              intro hnil
              simp [hcontent, hnil] at hlong
            exact .calls hform hkind hcontent hne hall.1 (by simpa [hcontent] using hlength) hall.2

theorem rule_of_let (hform : g.IsForm i "let" v) (h : g.decodeUpTo (n + 1) i o = .ok e o') :
    g.Rule (g.Yields n) i e := by
  rw [decodeUpTo_let hform] at h
  obtain ⟨vs, o₁, hfields, h⟩ := bind_eq_ok.mp h
  obtain ⟨hlength, hfields⟩ := table_of_fields (by decide) hfields
  obtain ⟨name, value, body, rfl⟩ := List.length_eq_three.mp hlength
  obtain ⟨x, o₂, hname, h⟩ := bind_eq_ok.mp h
  obtain ⟨e, o₃, hvalue, h⟩ := bind_eq_ok.mp h
  obtain ⟨e', o₄, hbody, h⟩ := bind_eq_ok.mp h
  cases h
  exact .letIn hform hfields (bindingName_eq_ok.mp hname).1 ⟨_, _, hvalue⟩ ⟨_, _, hbody⟩

theorem rule_of_form (hform : g.IsForm i key v) (h : g.decodeUpTo (n + 1) i o = .ok e o') :
    g.Rule (g.Yields n) i e := by
  by_cases hfun : key = "fun"
  · subst hfun
    exact rule_of_fun hform h
  by_cases hcall : key = "call"
  · subst hcall
    by_cases hkind : (g.node v).kind = .sequence
    · exact rule_of_calls hform hkind h
    · exact rule_of_call hform hkind h
  by_cases hlet : key = "let"
  · subst hlet
    exact rule_of_let hform h
  · obtain ⟨hkind, k, hcontent, rfl⟩ := hform
    rw [decodeUpTo] at h
    simp [hkind, hcontent, hfun, hcall, hlet, Node.refuse, throw_apply] at h

theorem rule_of_mapping (hkind : (g.node i).kind = .mapping)
    (h : g.decodeUpTo (n + 1) i o = .ok e o') : g.Rule (g.Yields n) i e := by
  rcases hcontent : (g.node i).content with _ | ⟨k, _ | ⟨v, _ | ⟨w, rest⟩⟩⟩
  case cons.cons.nil => exact rule_of_form ⟨hkind, k, hcontent, rfl⟩ h
  all_goals simp [decodeUpTo, hkind, hcontent, Node.refuse, throw_apply] at h

theorem rule_of_document (hkind : (g.node i).kind = .document)
    (h : g.decodeUpTo (n + 1) i o = .ok e o') : g.Rule (g.Yields n) i e := by
  rcases hcontent : (g.node i).content with _ | ⟨child, _ | ⟨w, rest⟩⟩
  case cons.nil =>
    rw [decodeUpTo_document hkind hcontent] at h
    exact .document hkind hcontent ⟨_, _, h⟩
  all_goals simp [decodeUpTo, hkind, hcontent, Node.refuse, throw_apply] at h

theorem rule_of_alias (hkind : (g.node i).kind = .alias)
    (h : g.decodeUpTo (n + 1) i o = .ok e o') : g.Rule (g.Yields n) i e := by
  cases htarget : (g.node i).target with
  | none => simp [decodeUpTo, hkind, htarget, throw_apply] at h
  | some target =>
      rw [decodeUpTo_alias hkind htarget] at h
      split at h
      · exact absurd h refuse_ne_ok
      · obtain ⟨o₁, h, -⟩ := expanding_eq_ok.mp h
        exact .aliased hkind htarget ⟨_, _, h⟩

theorem rule_of_scalar {R : Nat → Expr → Prop} (hkind : (g.node i).kind = .scalar)
    (h : g.decodeUpTo (n + 1) i o = .ok e o') : g.Rule R i e := by
  rw [decodeUpTo] at h
  simp only [hkind, beq_iff_eq, ite_run] at h
  split at h
  · rename_i hunit
    cases h
    exact .unit hkind hunit
  · rename_i hunit
    split at h
    · exact absurd h refuse_ne_ok
    · rename_i hne
      cases h
      exact .var ⟨hkind, rfl, hne, hunit⟩

/-- What the decoder gives for a node follows by a rule from what it gives for the parts. -/
theorem rule_of_decodeUpTo (h : g.decodeUpTo (n + 1) i o = .ok e o') :
    g.Rule (g.Yields n) i e := by
  cases hkind : (g.node i).kind with
  | document => exact rule_of_document hkind h
  | «alias» => exact rule_of_alias hkind h
  | scalar => exact rule_of_scalar hkind h
  | mapping => exact rule_of_mapping hkind h
  | sequence | unknown => simp [decodeUpTo, hkind, Node.refuse, throw_apply] at h

/-- What the rules carry over from the parts to the node holds of all that the decoder gives. -/
theorem of_decodeUpTo {P : Nat → Expr → Prop} (hP : ∀ i e, g.Rule P i e → P i e)
    (h : g.decodeUpTo n i o = .ok e o') : P i e := by
  induction n generalizing i o e o' with
  | zero => cases h
  | succ n ih =>
      have hparts : ∀ j e, g.Yields n j e → P j e := fun j e ⟨_, _, hj⟩ => ih hj
      exact hP i e ((rule_of_decodeUpTo h).mono hparts)

/-- In all mappings every key has a value. -/
def EvenMappings (g : Graph) : Prop :=
  ∀ i < g.size, (g.node i).kind = .mapping → 2 ∣ (g.node i).content.length

instance (g : Graph) : Decidable g.EvenMappings :=
  inferInstanceAs (Decidable (∀ i < g.size, _ → _))

theorem lt_size_of_kind (h : (g.node i).kind ≠ .unknown) : i < g.size := by
  by_contra hle
  have hsize : g.nodes.size ≤ i := Nat.le_of_not_lt hle
  simp [node, hsize] at h

theorem Table.hasFields (h : g.Table i fs) (hg : g.EvenMappings) : g.HasFields i fs :=
  ⟨h.kind, hg i (lt_size_of_kind (by simp [h.kind])) h.kind, h.perm⟩

theorem denotes_of_decodeUpTo (hg : g.EvenMappings) (h : g.decodeUpTo n i o = .ok e o') :
    g.Denotes i e := by
  refine of_decodeUpTo (fun i e hrule => ?_) h
  cases hrule with
  | document hkind hcontent h => exact .document hkind hcontent h
  | aliased hkind htarget h => exact .aliased hkind htarget h
  | unit hkind hvalue => exact .unit hkind hvalue
  | var h => exact .var h
  | lam hform hfields harg hbody => exact .lam hform (hfields.hasFields hg) harg hbody
  | call hform hfields hfunc harg => exact .call hform (hfields.hasFields hg) hfunc harg
  | letIn hform hfields hname hvalue hbody =>
      exact .letIn hform (hfields.hasFields hg) hname hvalue hbody
  | calls hform hkind hcontent hne hfunc hlength hargs =>
      exact .calls hform hkind hcontent hne hfunc hlength hargs

/-! ## Parts of a node -/

/-- The second node is one of those that a form at the first one is made of. -/
inductive Part (g : Graph) : Nat → Nat → Prop where
  | document {i j : Nat} (hkind : (g.node i).kind = .document)
      (hcontent : (g.node i).content = [j]) : Part g i j
  | aliased {i j : Nat} (hkind : (g.node i).kind = .alias)
      (htarget : (g.node i).target = some j) : Part g i j
  | field {i v j : Nat} {key : String} (hform : g.IsForm i key v)
      (hkind : (g.node v).kind = .mapping)
      (hj : j ∈ (g.entries (g.node v).content).map Prod.snd) : Part g i j
  | item {i v j : Nat} {key : String} (hform : g.IsForm i key v)
      (hkind : (g.node v).kind = .sequence) (hj : j ∈ (g.node v).content) : Part g i j

theorem not_part_of_scalar (hkind : (g.node i).kind = .scalar) : ¬ g.Part i j := by
  intro h
  cases h with
  | document hdocument | aliased haliased => simp_all
  | field hform | item hform => simp_all [hform.kind]

theorem IsForm.value_eq {key' : String} (h : g.IsForm i key v) (h' : g.IsForm i key' w) :
    v = w := by
  obtain ⟨-, k, hcontent, -⟩ := h
  obtain ⟨-, k', hcontent', -⟩ := h'
  simp_all

theorem IsForm.key_eq {key' : String} (h : g.IsForm i key v) (h' : g.IsForm i key' w) :
    key = key' := by
  obtain ⟨-, k, hcontent, rfl⟩ := h
  obtain ⟨-, k', hcontent', rfl⟩ := h'
  simp_all

theorem Part.of_document {child : Nat} (h : g.Part i j) (hkind : (g.node i).kind = .document)
    (hcontent : (g.node i).content = [child]) : j = child := by
  cases h with
  | document | aliased => simp_all
  | field hform | item hform => simp_all [hform.kind]

theorem Part.of_alias {target : Nat} (h : g.Part i j) (hkind : (g.node i).kind = .alias)
    (htarget : (g.node i).target = some target) : j = target := by
  cases h with
  | document | aliased => simp_all
  | field hform | item hform => simp_all [hform.kind]

theorem Part.of_fields (h : g.Part i j) (hform : g.IsForm i key v) (hfields : g.HasFields v fs) :
    j ∈ fs.map Prod.snd := by
  have hi := hform.kind
  have hv := hfields.kind
  cases h with
  | document | aliased => simp_all
  | field hform' _ hj =>
      rw [← hform.value_eq hform'] at hj
      exact (hfields.perm.map Prod.snd).mem_iff.mp hj
  | item hform' hkind =>
      rw [← hform.value_eq hform'] at hkind
      simp_all

theorem Part.of_items (h : g.Part i j) (hform : g.IsForm i key v)
    (hv : (g.node v).kind = .sequence) : j ∈ (g.node v).content := by
  have hi := hform.kind
  cases h with
  | document | aliased => simp_all
  | field hform' hkind =>
      rw [← hform.value_eq hform'] at hkind
      simp_all
  | item hform' _ hj =>
      rw [← hform.value_eq hform'] at hj
      exact hj

theorem HasFields.part (h : g.HasFields v fs) (hform : g.IsForm i key v)
    (hj : j ∈ fs.map Prod.snd) : g.Part i j :=
  .field hform h.kind ((h.perm.map Prod.snd).mem_iff.mpr hj)

/-- A circle through a node is a circle through one of its parts. -/
theorem no_circle_of_parts (h : ∀ j, g.Part i j → ¬ Relation.TransGen g.Part j j) :
    ¬ Relation.TransGen g.Part i i := by
  intro hcircle
  obtain ⟨j, hpart, hback⟩ := Relation.TransGen.head'_iff.mp hcircle
  exact h j hpart (.tail' hback hpart)

theorem Names.no_circle (h : g.Names i x) : ¬ Relation.TransGen g.Part i i :=
  no_circle_of_parts fun _ hpart => absurd hpart (not_part_of_scalar h.kind)

theorem Denotes.no_circle (h : g.Denotes i e) : ¬ Relation.TransGen g.Part i i := by
  induction h with
  | document hkind hcontent _ ih =>
      apply no_circle_of_parts
      intro j hpart
      rwa [hpart.of_document hkind hcontent]
  | aliased hkind htarget _ ih =>
      apply no_circle_of_parts
      intro j hpart
      rwa [hpart.of_alias hkind htarget]
  | unit hkind _ =>
      exact no_circle_of_parts fun _ hpart => absurd hpart (not_part_of_scalar hkind)
  | var h => exact h.no_circle
  | lam hform hfields harg _ ih =>
      apply no_circle_of_parts
      intro j hpart
      have hj := hpart.of_fields hform hfields
      simp only [List.map_cons, List.map_nil, List.mem_cons, List.not_mem_nil, or_false] at hj
      rcases hj with rfl | rfl
      · exact harg.no_circle
      · exact ih
  | call hform hfields _ _ ihf iha =>
      apply no_circle_of_parts
      intro j hpart
      have hj := hpart.of_fields hform hfields
      simp only [List.map_cons, List.map_nil, List.mem_cons, List.not_mem_nil, or_false] at hj
      rcases hj with rfl | rfl
      · exact ihf
      · exact iha
  | letIn hform hfields hname _ _ ihv ihb =>
      apply no_circle_of_parts
      intro j hpart
      have hj := hpart.of_fields hform hfields
      simp only [List.map_cons, List.map_nil, List.mem_cons, List.not_mem_nil, or_false] at hj
      rcases hj with rfl | rfl | rfl
      · exact hname.no_circle
      · exact ihv
      · exact ihb
  | @calls i v func args f es hform hkind hcontent _ _ hlength _ ihf iha =>
      apply no_circle_of_parts
      intro j hpart
      have hj := hpart.of_items hform hkind
      rw [hcontent, List.mem_cons] at hj
      rcases hj with rfl | hj
      · exact ihf
      · rw [← List.map_fst_zip hlength.ge] at hj
        obtain ⟨p, hp, rfl⟩ := List.mem_map.mp hj
        exact iha p hp

/-! ## Completeness -/

theorem Denotes.lt_size (h : g.Denotes i e) : i < g.size := by
  apply lt_size_of_kind
  cases h with
  | document hkind | aliased hkind | unit hkind => simp [hkind]
  | var h => simp [h.kind]
  | lam hform | call hform | letIn hform | calls hform => simp [hform.kind]

/-- The decoder stands at a node: the nodes above it are known and have used up part of the budget,
and all nodes that are being expanded are among them. -/
structure Stands (g : Graph) (above : Finset Nat) (o : List Nat) (n i : Nat) : Prop where
  lt_size : ∀ w ∈ above, w < g.size
  leads : ∀ w ∈ above, Relation.TransGen g.Part w i
  budget : g.size ≤ n + above.card
  opened : ∀ w ∈ o, w = i ∨ w ∈ above

variable {above : Finset Nat}

theorem Stands.not_mem (h : g.Stands above o n i) (hd : g.Denotes i e) : i ∉ above :=
  fun hi => hd.no_circle (h.leads i hi)

theorem card_le_size (h : ∀ w ∈ above, w < g.size) : above.card ≤ g.size := by
  have hcard := Finset.card_le_card fun w hw => Finset.mem_range.mpr (h w hw)
  rwa [Finset.card_range] at hcard

/-- There is budget left for a node that denotes something. -/
theorem Stands.exists_succ (h : g.Stands above o n i) (hd : g.Denotes i e) : ∃ m, n = m + 1 := by
  have hcard := card_le_size ((Finset.forall_mem_insert _ _ _).mpr ⟨hd.lt_size, h.lt_size⟩)
  rw [Finset.card_insert_of_notMem (h.not_mem hd)] at hcard
  have hbudget := h.budget
  exact ⟨n - 1, by omega⟩

theorem Stands.part (h : g.Stands above o (n + 1) i) (hd : g.Denotes i e) (hpart : g.Part i j) :
    g.Stands (insert i above) o n j where
  lt_size := (Finset.forall_mem_insert _ _ _).mpr ⟨hd.lt_size, h.lt_size⟩
  leads w hw := by
    rcases Finset.mem_insert.mp hw with rfl | hw
    · exact .single hpart
    · exact (h.leads w hw).tail hpart
  budget := by
    have hbudget := h.budget
    rw [Finset.card_insert_of_notMem (h.not_mem hd)]
    omega
  opened w hw := .inr (Finset.mem_insert.mpr (h.opened w hw))

/-- A part of a node that is being expanded is not itself being expanded. -/
theorem Stands.not_opened (h : g.Stands above o (n + 1) i) (hpart : g.Part i j)
    (hj : g.Denotes j e) : j ∉ o := by
  intro hmem
  apply hj.no_circle
  rcases h.opened j hmem with rfl | hw
  · exact .single hpart
  · exact (h.leads j hw).tail hpart

theorem Stands.expanding (h : g.Stands above o (n + 1) i) (hd : g.Denotes i e)
    (hpart : g.Part i j) : g.Stands (insert i above) (j :: o) n j :=
  { h.part hd hpart with
    opened := List.forall_mem_cons.mpr ⟨.inl rfl, (h.part hd hpart).opened⟩ }

theorem Denotes.decodeUpTo_eq (h : g.Denotes i e) (hs : g.Stands above o n i) :
    g.decodeUpTo n i o = .ok e o := by
  have hd := h
  induction h generalizing above o n with
  | document hkind hcontent h ih =>
      obtain ⟨m, rfl⟩ := hs.exists_succ hd
      rw [decodeUpTo_document hkind hcontent]
      exact ih (hs.part hd (.document hkind hcontent)) h
  | @aliased i target e hkind htarget h ih =>
      obtain ⟨m, rfl⟩ := hs.exists_succ hd
      have hpart : g.Part i target := .aliased hkind htarget
      have hnot := hs.not_opened hpart h
      rw [decodeUpTo_alias hkind htarget, if_neg (by simpa using hnot)]
      exact expanding_eq_ok.mpr ⟨target :: o, ih (hs.expanding hd hpart) h, by simp⟩
  | unit hkind hvalue =>
      obtain ⟨m, rfl⟩ := hs.exists_succ hd
      rw [decodeUpTo]
      simp only [hkind, hvalue]
      rfl
  | var h =>
      obtain ⟨m, rfl⟩ := hs.exists_succ hd
      obtain ⟨hkind, rfl, hne, hunit⟩ := h
      rw [decodeUpTo]
      simp [hkind, hne, hunit, pure_apply]
  | @lam i v arg body x e hform hfields harg hbody ih =>
      obtain ⟨m, rfl⟩ := hs.exists_succ hd
      have hpart : g.Part i body := hfields.part hform (by simp)
      have hread : g.fields (g.node v) ["arg", "body"] o = .ok [arg, body] o :=
        fields_ok (by decide) rfl hfields
      rw [decodeUpTo_fun hform, bind_apply, hread]
      simp only [bind_apply, harg.bindingName, ih (hs.part hd hpart) hbody]
      rfl
  | @call i v func arg f a hform hfields hfunc harg ihf iha =>
      obtain ⟨m, rfl⟩ := hs.exists_succ hd
      have hpartf : g.Part i func := hfields.part hform (by simp)
      have hparta : g.Part i arg := hfields.part hform (by simp)
      have hread : g.fields (g.node v) ["func", "arg"] o = .ok [func, arg] o :=
        fields_ok (by decide) rfl hfields
      rw [decodeUpTo_call hform (by simp [hfields.kind]), bind_apply, hread]
      simp only [bind_apply, ihf (hs.part hd hpartf) hfunc, iha (hs.part hd hparta) harg]
      rfl
  | @letIn i v name value body x e e' hform hfields hname hvalue hbody ihv ihb =>
      obtain ⟨m, rfl⟩ := hs.exists_succ hd
      have hpartv : g.Part i value := hfields.part hform (by simp)
      have hpartb : g.Part i body := hfields.part hform (by simp)
      have hread : g.fields (g.node v) ["var", "value", "body"] o = .ok [name, value, body] o :=
        fields_ok (by decide) rfl hfields
      rw [decodeUpTo_let hform, bind_apply, hread]
      simp only [bind_apply, hname.bindingName, ihv (hs.part hd hpartv) hvalue,
        ihb (hs.part hd hpartb) hbody]
      rfl
  | @calls i v func args f es hform hkind hcontent hne hfunc hlength hargs ihf iha =>
      obtain ⟨m, rfl⟩ := hs.exists_succ hd
      have hpart : ∀ j ∈ func :: args, g.Part i j := fun j hj =>
        .item hform hkind (hcontent ▸ hj)
      have hlong : ¬ (func :: args).length < 2 := by
        have := List.length_pos_of_ne_nil hne
        simp only [List.length_cons]
        omega
      have hitems : (func :: args).mapM (g.decodeUpTo m) o = .ok (f :: es) o := by
        apply mapM_ok (by simp [hlength])
        rw [List.zip_cons_cons, List.forall_mem_cons]
        refine ⟨ihf (hs.part hd (hpart func (by simp))) hfunc, fun p hp => ?_⟩
        have hmem : p.1 ∈ func :: args := List.mem_cons_of_mem _ (List.of_mem_zip hp).1
        exact iha p hp (hs.part hd (hpart p.1 hmem)) (hargs p hp)
      rw [decodeUpTo_calls hform hkind, hcontent, if_neg hlong, bind_apply, hitems]
      rfl

theorem Denotes.decodeUpTo_nil (h : g.Denotes i e) (hn : g.size ≤ n) :
    g.decodeUpTo n i [] = .ok e [] := by
  have hstart : g.Stands ∅ [] n i := ⟨by simp, by simp, by simpa using hn, by simp⟩
  exact h.decodeUpTo_eq hstart

theorem Denotes.decode_eq (h : g.Denotes i e) : g.decode i [] = .ok e [] :=
  h.decodeUpTo_nil ((Nat.le_succ _).trans (Nat.le_mul_self _))

/-- With a budget of as many levels as there are nodes, the decoder accepts what the rules allow. -/
theorem decodeUpTo_eq_ok_iff (hg : g.EvenMappings) (hn : g.size ≤ n) :
    (∃ o, g.decodeUpTo n i [] = .ok e o) ↔ g.Denotes i e := by
  constructor
  · rintro ⟨o, h⟩
    exact denotes_of_decodeUpTo hg h
  · exact fun h => ⟨[], h.decodeUpTo_nil hn⟩

/-- Decoding a node gives an expression exactly if the node denotes it. -/
theorem decode_eq_ok_iff_denotes (g : Graph) (hg : g.EvenMappings) (i : Nat) (e : Expr) :
    (∃ o, g.decode i [] = .ok e o) ↔ g.Denotes i e := by
  have hbudget : g.size ≤ (g.size + 1) * (g.size + 1) :=
    (Nat.le_succ _).trans (Nat.le_mul_self _)
  exact decodeUpTo_eq_ok_iff hg hbudget

/-- The document `{call: [&f {fun: {body: x, arg: x}}, *f, ()]}`. -/
def callDocument : Graph where
  nodes := #[{ kind := .document, content := [1] }, { kind := .mapping, content := [2, 3] },
    { kind := .scalar, value := "call" }, { kind := .sequence, content := [4, 10, 11] },
    { kind := .mapping, content := [5, 6] }, { kind := .scalar, value := "fun" },
    { kind := .mapping, content := [7, 9, 8, 9] }, { kind := .scalar, value := "body" },
    { kind := .scalar, value := "arg" }, { kind := .scalar, value := "x" },
    { kind := .alias, value := "f", target := some 4 }, { kind := .scalar, value := "()" }]

theorem decode_eq_ok_iff_denotes_call :
    callDocument.EvenMappings ∧ callDocument.Denotes 0
      (.call (.call (.lam "x" (.var "x")) (.lam "x" (.var "x"))) .unit) := by
  have heven : callDocument.EvenMappings := by decide
  exact ⟨heven, (decode_eq_ok_iff_denotes callDocument heven 0 _).mp ⟨[], rfl⟩⟩

end LetPoly.Yaml.Graph
