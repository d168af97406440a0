import LetPoly.Proofs.Halting
import Mathlib.Data.List.Perm.Basic

/-! # Aliases in the place of their targets

An alias that stands for an expression can be replaced by its target. The decoder looks at the other
nodes of a form as they are: at the keys, at the mapping of the fields or the sequence of the items,
and at the name that the form binds. An alias in one of these places is not followed. As a key it is
read by its own name.
-/

namespace LetPoly.Yaml.Graph

variable {g g' : Graph} {i j p k a t v m : Nat} {e : Expr} {key field : String}
  {content : List Nat}

/-! ## Replacing a node in one place -/

/-- The graph with the node `t` in the `k`-th place of the content of `p`. -/
def put (g : Graph) (p k t : Nat) : Graph where
  nodes := g.nodes.modify p fun n => { n with content := n.content.set k t }

theorem node_put_self : (g.put p k t).node p =
    { g.node p with content := (g.node p).content.set k t } := by
  by_cases hp : p < g.nodes.size
  · simp [put, node, hp, Array.getElem_modify]
  · simp [put, node, hp]

theorem node_put_of_ne (h : i ≠ p) : (g.put p k t).node i = g.node i := by
  simp [put, node, Array.getElem?_modify, h.symm]

@[simp]
theorem size_put : (g.put p k t).size = g.size := by
  simp [put, size]

@[simp]
theorem kind_put : ((g.put p k t).node i).kind = (g.node i).kind := by
  by_cases h : i = p
  · subst h
    rw [node_put_self]
  · rw [node_put_of_ne h]

@[simp]
theorem value_put : ((g.put p k t).node i).value = (g.node i).value := by
  by_cases h : i = p
  · subst h
    rw [node_put_self]
  · rw [node_put_of_ne h]

@[simp]
theorem target_put : ((g.put p k t).node i).target = (g.node i).target := by
  by_cases h : i = p
  · subst h
    rw [node_put_self]
  · rw [node_put_of_ne h]

theorem content_put_self : ((g.put p k t).node p).content = (g.node p).content.set k t := by
  rw [node_put_self]

theorem content_put_of_ne (h : i ≠ p) : ((g.put p k t).node i).content = (g.node i).content := by
  rw [node_put_of_ne h]

theorem length_content_put :
    ((g.put p k t).node i).content.length = (g.node i).content.length := by
  by_cases h : i = p
  · subst h
    rw [content_put_self, List.length_set]
  · rw [content_put_of_ne h]

/-! ## Finite expansion -/

/-- The second node stands in the content of the first one, or the first one is an alias of it. -/
def Leads (g : Graph) (i j : Nat) : Prop :=
  g.Contains i j ∨ (g.node i).kind = .alias ∧ (g.node i).target = some j

/-- No node leads back to itself: with every alias replaced by its target, and so on, the graph is
finite. -/
def Expands (g : Graph) : Prop :=
  ∀ i, ¬ Relation.TransGen g.Leads i i

/-- No content lies below itself, every alias has a target, and every key has a value. -/
structure WellFormed (g : Graph) : Prop where
  acyclic : g.Acyclic
  targeted : g.Targeted
  even : g.EvenMappings

theorem Expands.acyclic (h : g.Expands) : g.Acyclic :=
  fun i hi => h i (Relation.TransGen.mono (fun _ _ => .inl) _ _ hi)

theorem Expands.acyclic_put (h : g.Expands) (hplace : (g.node p).content[k]? = some a)
    (halias : (g.node a).kind = .alias) (htarget : (g.node a).target = some t) :
    (g.put p k t).Acyclic := by
  have hstep : ∀ i j, (g.put p k t).Contains i j → Relation.TransGen g.Leads i j := by
    intro i j hj
    by_cases hi : i = p
    · subst hi
      rw [Contains, content_put_self] at hj
      rcases List.mem_or_eq_of_mem_set hj with hj | rfl
      · exact .single (.inl hj)
      · exact .tail (.single (.inl (List.mem_of_getElem? hplace))) (.inr ⟨halias, htarget⟩)
    · rw [Contains, content_put_of_ne hi] at hj
      exact .single (.inl hj)
  exact fun i hi => h i (Relation.TransGen.closed hstep _ _ hi)

theorem targeted_put (h : g.Targeted) : (g.put p k t).Targeted := by
  intro i hi hkind
  rw [target_put]
  exact h i (by simpa using hi) (by simpa using hkind)

theorem evenMappings_put (h : g.EvenMappings) : (g.put p k t).EvenMappings := by
  intro i hi hkind
  rw [length_content_put]
  exact h i (by simpa using hi) (by simpa using hkind)

/-! ## Agreement of two runs -/

/-- Both runs give the same expression, or both fail. -/
def Agree (x y : EStateM.Result (Stop NodeError) (List Nat) Expr) : Prop :=
  (∃ e, x = .ok e [] ∧ y = .ok e []) ∨
    ∃ error error', x = .error (.error error) [] ∧ y = .error (.error error') []

theorem WellFormed.settles (h : g.WellFormed) (i : Nat) :
    (∃ e, g.decode i [] = .ok e []) ∨ ∃ error, g.decode i [] = .error (.error error) [] := by
  have hsettle : Settle [] (g.decode i) (g.decode i) :=
    settle_decodeUpTo h.acyclic h.targeted (affords_start le_rfl) (affords_start le_rfl)
  rcases hsettle with ⟨e, hrun, -⟩ | ⟨error, hrun, -⟩
  · exact .inl ⟨e, hrun⟩
  · exact .inr ⟨error, hrun⟩

theorem WellFormed.decode_eq_ok (h : g.WellFormed) : g.decode i [] = .ok e [] ↔ g.Denotes i e :=
  ⟨denotes_of_decodeUpTo h.even, Denotes.decode_eq⟩

/-- A node that denotes nothing is refused. -/
theorem WellFormed.refused (h : g.WellFormed) (hi : ∀ e, ¬ g.Denotes i e) :
    ∃ error, g.decode i [] = .error (.error error) [] :=
  (h.settles i).resolve_left fun ⟨e, hrun⟩ => hi e (h.decode_eq_ok.mp hrun)

theorem agree_iff (hg : g.WellFormed) (hg' : g'.WellFormed) :
    Agree (g.decode i []) (g'.decode j []) ↔ ∀ e, g.Denotes i e ↔ g'.Denotes j e := by
  constructor
  · rintro (⟨e, h, h'⟩ | ⟨error, error', h, h'⟩) e'
    · rw [← hg.decode_eq_ok, ← hg'.decode_eq_ok, h, h']
    · simp [← hg.decode_eq_ok, ← hg'.decode_eq_ok, h, h']
  · intro hiff
    rcases hg.settles i with ⟨e, h⟩ | ⟨error, h⟩
    · exact .inl ⟨e, h, ((hiff e).mp (hg.decode_eq_ok.mp h)).decode_eq⟩
    · have hnone : ∀ e, ¬ g'.Denotes j e := by
        intro e he
        have hrun := ((hiff e).mpr he).decode_eq
        rw [h] at hrun
        cases hrun
      obtain ⟨error', h'⟩ := hg'.refused hnone
      exact .inr ⟨error, error', h, h'⟩

/-! ## Places of a form -/

/-- A form of this key binds the name in this field. -/
def IsBinder (key field : String) : Prop :=
  key = "fun" ∧ field = "arg" ∨ key = "let" ∧ field = "var"

/-- The form at `i` looks at the `k`-th place of `p` as it is, and not for an expression: the place
belongs to the form itself, or it holds the key of a field or the name that is bound. -/
inductive Inspects (g : Graph) : (i p k : Nat) → Prop where
  | own {i k v : Nat} {key : String} (hform : g.IsForm i key v) : Inspects g i i k
  | key {i m v : Nat} {key : String} (hform : g.IsForm i key v)
      (hkind : (g.node v).kind = .mapping) : Inspects g i v (2 * m)
  | binder {i m v c : Nat} {key field : String} (hform : g.IsForm i key v)
      (hkey : (g.node v).content[2 * m]? = some c) (hfield : (g.node c).value = field)
      (hbinder : IsBinder key field) : Inspects g i v (2 * m + 1)

/-- The form at `i` can tell `a` from `t` in the `k`-th place of `p`. Of a key it only reads the
text. -/
def Distinguishes (g : Graph) (i p k a t : Nat) : Prop :=
  g.Inspects i p k ∧ (k % 2 = 0 → (g.node a).value ≠ (g.node t).value)

theorem Inspects.key_eq (h : g.Inspects i p k) (hnot : ¬ g.Distinguishes i p k a t) :
    k % 2 = 0 ∧ (g.node a).value = (g.node t).value := by
  by_contra hne
  exact hnot ⟨h, fun heven heq => hne ⟨heven, heq⟩⟩

/-- The node stands for the other one: it is that node or an alias of it. -/
def StandsFor (g : Graph) (i j : Nat) : Prop :=
  j = i ∨ (g.node i).kind = .alias ∧ (g.node i).target = some j

theorem Denotes.of_alias (h : g.Denotes i e) (hkind : (g.node i).kind = .alias)
    (htarget : (g.node i).target = some j) : g.Denotes j e := by
  cases h with
  | aliased _ htarget' h =>
      rw [htarget] at htarget'
      cases htarget'
      exact h
  | document hkind' | unit hkind' => simp [hkind] at hkind'
  | var h => simp [h.kind] at hkind
  | lam hform | call hform | letIn hform | calls hform => simp [hform.kind] at hkind

theorem StandsFor.denotes_iff (h : g.StandsFor i j) : g.Denotes i e ↔ g.Denotes j e := by
  rcases h with rfl | ⟨hkind, htarget⟩
  · exact .rfl
  · exact ⟨fun h => h.of_alias hkind htarget, .aliased hkind htarget⟩

/-- The value of a form is a mapping or a sequence, and no alias of one. -/
theorem Denotes.value_kind (h : g.Denotes i e) (hform : g.IsForm i key v) :
    (g.node v).kind = .mapping ∨ (g.node v).kind = .sequence := by
  have hi := hform.kind
  cases h with
  | document hkind | aliased hkind | unit hkind => simp [hi] at hkind
  | var h => simp [h.kind] at hi
  | lam hform' hfields | call hform' hfields | letIn hform' hfields =>
      rw [hform.value_eq hform']
      exact .inl hfields.kind
  | calls hform' hkind =>
      rw [hform.value_eq hform']
      exact .inr hkind

/-- The name that a form binds is a scalar, and no alias of one. -/
theorem Denotes.binder_kind (h : g.Denotes i e) (hform : g.IsForm i key v)
    (hbinder : IsBinder key field) (hmem : (field, j) ∈ g.entries (g.node v).content) :
    (g.node j).kind = .scalar := by
  have hi := hform.kind
  cases h with
  | document hkind | aliased hkind | unit hkind => simp [hi] at hkind
  | var h => simp [h.kind] at hi
  | lam hform' hfields harg =>
      have hkey := hform.key_eq hform'
      obtain rfl : field = "arg" := by simpa [IsBinder, hkey] using hbinder
      rw [hform.value_eq hform', hfields.perm.mem_iff] at hmem
      obtain rfl : j = _ := by simpa using hmem
      exact harg.kind
  | letIn hform' hfields hname =>
      have hkey := hform.key_eq hform'
      obtain rfl : field = "var" := by simpa [IsBinder, hkey] using hbinder
      rw [hform.value_eq hform', hfields.perm.mem_iff] at hmem
      obtain rfl : j = _ := by simpa using hmem
      exact hname.kind
  | call hform' | calls hform' => simp [IsBinder, hform.key_eq hform'] at hbinder

/-! ## Parts that stand for others -/

theorem mem_entries {c : Nat} (hkey : content[2 * m]? = some c)
    (hvalue : content[2 * m + 1]? = some a) : ((g.node c).value, a) ∈ g.entries content := by
  induction content using pairs.induct generalizing m with
  | case1 c' v rest ih =>
      cases m with
      | zero =>
          obtain rfl : c' = c := by simpa using hkey
          obtain rfl : v = a := by simpa using hvalue
          simp [entries_cons]
      | succ m =>
          rw [Nat.mul_add] at hkey hvalue
          rw [entries_cons]
          exact List.mem_cons_of_mem _ (ih (by simpa using hkey) (by simpa using hvalue))
  | case2 content hcontent =>
      rcases content with _ | ⟨c', _ | ⟨v, rest⟩⟩
      · simp at hvalue
      · simp at hvalue
      · exact absurd rfl (hcontent c' v rest)

theorem forall₂_set {r : Nat → Nat → Prop} (hrefl : ∀ j, r j j) (hplace : content[k]? = some a)
    (hr : r a t) : List.Forall₂ r content (content.set k t) := by
  induction content generalizing k with
  | nil => simp at hplace
  | cons j content ih =>
      cases k with
      | zero =>
          obtain rfl : j = a := by simpa using hplace
          exact .cons hr (List.forall₂_same.mpr fun j _ => hrefl j)
      | succ k => exact .cons (hrefl j) (ih (by simpa using hplace))

/-- A key of the same text makes the same field. -/
theorem entries_set_key (hplace : content[2 * m]? = some a)
    (hvalue : (g.node a).value = (g.node t).value) :
    g.entries (content.set (2 * m) t) = g.entries content := by
  induction content using pairs.induct generalizing m with
  | case1 c v rest ih =>
      cases m with
      | zero =>
          obtain rfl : c = a := by simpa using hplace
          simp [entries_cons, hvalue]
      | succ m =>
          rw [Nat.mul_add] at hplace ⊢
          exact congrArg (_ :: ·) (ih (by simpa using hplace))
  | case2 content hcontent =>
      rcases content with _ | ⟨c, _ | ⟨v, rest⟩⟩
      · simp at hplace
      · cases m with
        | zero => rfl
        | succ m => simp at hplace
      · exact absurd rfl (hcontent c v rest)

theorem forall₂_entries_set {r : String × Nat → String × Nat → Prop} (hrefl : ∀ f, r f f)
    (hplace : content[2 * m + 1]? = some a)
    (hr : ∀ c, content[2 * m]? = some c → r ((g.node c).value, a) ((g.node c).value, t)) :
    List.Forall₂ r (g.entries content) (g.entries (content.set (2 * m + 1) t)) := by
  induction content using pairs.induct generalizing m with
  | case1 c v rest ih =>
      cases m with
      | zero =>
          obtain rfl : v = a := by simpa using hplace
          exact .cons (hr c (by simp)) (List.forall₂_same.mpr fun f _ => hrefl f)
      | succ m =>
          rw [Nat.mul_add] at hplace hr ⊢
          exact .cons (hrefl _) (ih (by simpa using hplace) (by simpa using hr))
  | case2 content hcontent =>
      rcases content with _ | ⟨c, _ | ⟨v, rest⟩⟩
      · simp at hplace
      · simp at hplace
      · exact absurd rfl (hcontent c v rest)

/-- Graphs of the same nodes, but for their content. What stands in the content of the first one is
related to what stands in the same place of the second one, and that denotes no less. -/
structure Mirrors (g g' : Graph) (S : Nat → Nat → Prop) : Prop where
  kind_eq : ∀ i, (g'.node i).kind = (g.node i).kind
  value_eq : ∀ i, (g'.node i).value = (g.node i).value
  target_eq : ∀ i, (g'.node i).target = (g.node i).target
  content : ∀ i, (g.node i).kind ≠ .mapping →
    List.Forall₂ S (g.node i).content (g'.node i).content
  carries : ∀ {i j : Nat} {e : Expr}, S i j → g'.Denotes i e → g'.Denotes j e
  form : ∀ {i v : Nat} {key : String}, g.IsForm i key v →
    (∀ e, g.Denotes i e → g'.Denotes i e) ∨ g'.IsForm i key v ∧
      ∀ fs, g.HasFields v fs → ∃ fs', g'.HasFields v fs' ∧ List.Forall₂
        (fun f f' => f'.1 = f.1 ∧ S f.2 f'.2 ∧ (IsBinder key f.1 → f'.2 = f.2)) fs fs'

namespace Mirrors

variable {S : Nat → Nat → Prop} {x : String}

theorem names (h : Mirrors g g' S) (hx : g.Names i x) : g'.Names i x :=
  ⟨(h.kind_eq i).trans hx.kind, (h.value_eq i).trans hx.value, hx.nonempty, hx.ne_unit⟩

theorem denotes (h : Mirrors g g' S) (hd : g.Denotes i e) : g'.Denotes i e := by
  have hnode := hd
  induction hd with
  | @document i child e hkind hcontent hchild ih =>
      have hcontent' := h.content i (by simp [hkind])
      rw [hcontent] at hcontent'
      obtain ⟨child', _, hS, hnil, hcontent'⟩ := List.forall₂_cons_left_iff.mp hcontent'
      cases hnil
      exact .document ((h.kind_eq i).trans hkind) hcontent' (h.carries hS (ih hchild))
  | @aliased i target e hkind htarget htarget' ih =>
      exact .aliased ((h.kind_eq i).trans hkind) ((h.target_eq i).trans htarget) (ih htarget')
  | @unit i hkind hvalue =>
      exact .unit ((h.kind_eq i).trans hkind) ((h.value_eq i).trans hvalue)
  | var hx => exact .var (h.names hx)
  | @lam i v arg body x e hform hfields harg hbody ih =>
      rcases h.form hform with hall | ⟨hform, htransfer⟩
      · exact hall _ hnode
      · obtain ⟨fs, hfields, hfs⟩ := htransfer _ hfields
        rcases hfs with _ | @⟨_, ⟨_, arg'⟩, _, _, ⟨rfl, -, hname⟩,
          _ | @⟨_, ⟨_, body'⟩, _, _, ⟨rfl, hbody', -⟩, _ | _⟩⟩
        obtain rfl : arg' = arg := hname (.inl ⟨rfl, rfl⟩)
        exact .lam hform hfields (h.names harg) (h.carries hbody' (ih hbody))
  | call hform hfields hfunc harg ihf iha =>
      rcases h.form hform with hall | ⟨hform, htransfer⟩
      · exact hall _ hnode
      · obtain ⟨fs, hfields, hfs⟩ := htransfer _ hfields
        rcases hfs with _ | @⟨_, ⟨_, func'⟩, _, _, ⟨rfl, hfunc', -⟩,
          _ | @⟨_, ⟨_, arg'⟩, _, _, ⟨rfl, harg', -⟩, _ | _⟩⟩
        exact .call hform hfields (h.carries hfunc' (ihf hfunc)) (h.carries harg' (iha harg))
  | @letIn i v name value body x e e' hform hfields hname hvalue hbody ihv ihb =>
      rcases h.form hform with hall | ⟨hform, htransfer⟩
      · exact hall _ hnode
      · obtain ⟨fs, hfields, hfs⟩ := htransfer _ hfields
        rcases hfs with _ | @⟨_, ⟨_, name'⟩, _, _, ⟨rfl, -, hbound⟩,
          _ | @⟨_, ⟨_, value'⟩, _, _, ⟨rfl, hvalue', -⟩,
            _ | @⟨_, ⟨_, body'⟩, _, _, ⟨rfl, hbody', -⟩, _ | _⟩⟩⟩
        obtain rfl : name' = name := hbound (.inr ⟨rfl, rfl⟩)
        exact .letIn hform hfields (h.names hname) (h.carries hvalue' (ihv hvalue))
          (h.carries hbody' (ihb hbody))
  | @calls i v func args f es hform hkind hcontent hne hfunc hlength hargs ihf iha =>
      rcases h.form hform with hall | ⟨hform, -⟩
      · exact hall _ hnode
      · have hcontent' := h.content v (by simp [hkind])
        rw [hcontent] at hcontent'
        obtain ⟨func', args', hfunc', hargs', hcontent'⟩ := List.forall₂_cons_left_iff.mp hcontent'
        have hdenotes : List.Forall₂ g'.Denotes args es :=
          List.forall₂_iff_zip.mpr ⟨hlength.symm, fun {j e} hj => iha (j, e) hj (hargs (j, e) hj)⟩
        have hback : List.Forall₂ (fun j' j => S j j') args' args := List.Forall₂.flip hargs'
        have hdenotes' : List.Forall₂ g'.Denotes args' es :=
          forall₂_comp hback hdenotes fun _ _ _ hS hd => h.carries hS hd
        obtain ⟨hlength', hall⟩ := List.forall₂_iff_zip.mp hdenotes'
        have hne' : args' ≠ [] := by
          rintro rfl
          exact hne (List.forall₂_nil_right_iff.mp hargs')
        exact .calls hform ((h.kind_eq v).trans hkind) hcontent' hne' (h.carries hfunc' (ihf hfunc))
          hlength'.symm fun p hp => hall hp

end Mirrors

/-- Fields in any order are carried over one by one. -/
theorem HasFields.transfer {r : String × Nat → String × Nat → Prop} {fs : List (String × Nat)}
    (h : g.HasFields v fs) (hkind : (g'.node v).kind = (g.node v).kind)
    (hlength : (g'.node v).content.length = (g.node v).content.length)
    (hentries : List.Forall₂ r (g.entries (g.node v).content) (g'.entries (g'.node v).content)) :
    ∃ fs', g'.HasFields v fs' ∧ List.Forall₂ r fs fs' := by
  obtain ⟨fs', hfs, hperm⟩ := List.perm_comp_forall₂ h.perm.symm hentries
  exact ⟨fs', ⟨hkind.trans h.kind, hlength ▸ h.even, hperm.symm⟩, hfs⟩

/-! ## An alias and its target -/

@[simp]
theorem entries_put : (g.put p k t).entries content = g.entries content := by
  simp [entries]

theorem isForm_put_of_ne (h : i ≠ p) : (g.put p k t).IsForm i key v ↔ g.IsForm i key v := by
  constructor
  · rintro ⟨hkind, c, hcontent, hvalue⟩
    exact ⟨by simpa using hkind, c, by rwa [content_put_of_ne h] at hcontent, by simpa using hvalue⟩
  · rintro ⟨hkind, c, hcontent, hvalue⟩
    exact ⟨by simpa using hkind, c, by rwa [content_put_of_ne h], by simpa using hvalue⟩

theorem IsForm.content_of_put (h : (g.put p k t).IsForm p key v) :
    ∃ c w, (g.node p).content = [c, w] := by
  obtain ⟨-, c, hcontent, -⟩ := h
  exact List.length_eq_two.mp (length_content_put.symm.trans (congrArg List.length hcontent))

/-- A form that has the place in its own content was one before. -/
theorem IsForm.inspects_put (h : (g.put p k t).IsForm p key v) : g.Inspects p p k := by
  obtain ⟨c, w, hcontent⟩ := h.content_of_put
  exact .own ⟨kind_put.symm.trans h.kind, c, hcontent, rfl⟩

/-- The own key of a form can be replaced by one of the same text. -/
theorem isForm_put_key (hplace : (g.node p).content[k]? = some a) (heven : k % 2 = 0)
    (hvalue : (g.node a).value = (g.node t).value) :
    (g.put p k t).IsForm p key v ↔ g.IsForm p key v := by
  have hkey : ∀ c w, (g.node p).content = [c, w] → k = 0 ∧ c = a := by
    intro c w hcontent
    have hlt := (List.getElem?_eq_some_iff.mp hplace).1
    obtain rfl : k = 0 := by
      simp only [hcontent, List.length_cons, List.length_nil] at hlt
      omega
    exact ⟨rfl, by simpa [hcontent] using hplace⟩
  constructor
  · intro h
    obtain ⟨c, w, hpair⟩ := h.content_of_put
    obtain ⟨hkind, c', hcontent, htext⟩ := h
    obtain ⟨rfl, rfl⟩ := hkey c w hpair
    obtain ⟨rfl, rfl⟩ : t = c' ∧ w = v := by simpa [content_put_self, hpair] using hcontent
    exact ⟨by simpa using hkind, c, hpair, by simpa [hvalue] using htext⟩
  · rintro ⟨hkind, c, hcontent, htext⟩
    obtain ⟨rfl, rfl⟩ := hkey c v hcontent
    exact ⟨by simpa using hkind, t, by simp [content_put_self, hcontent], by simp [← hvalue, htext]⟩

/-- A form that cannot tell the two nodes has the same key and value with either of them in the
place. -/
theorem IsForm.put_iff (hplace : (g.node p).content[k]? = some a)
    (hnot : ¬ g.Distinguishes i p k a t) :
    (g.put p k t).IsForm i key v ↔ g.IsForm i key v := by
  by_cases hi : i = p
  · subst hi
    by_cases hin : g.Inspects i i k
    · obtain ⟨heven, hvalue⟩ := hin.key_eq hnot
      exact isForm_put_key hplace heven hvalue
    · exact ⟨fun h => absurd h.inspects_put hin, fun h => absurd (.own h) hin⟩
  · exact isForm_put_of_ne hi

section Place

variable (hplace : (g.node p).content[k]? = some a) (halias : (g.node a).kind = .alias)
  (htarget : (g.node a).target = some t)
include hplace halias htarget

theorem standsFor_content (i : Nat) :
    List.Forall₂ g.StandsFor (g.node i).content ((g.put p k t).node i).content := by
  by_cases hi : i = p
  · subst hi
    rw [content_put_self]
    exact forall₂_set (fun _ => .inl rfl) hplace (.inr ⟨halias, htarget⟩)
  · rw [content_put_of_ne hi]
    exact List.forall₂_same.mpr fun _ _ => .inl rfl

theorem standsFor_entries (hform : g.IsForm i key v) (hkind : (g.node v).kind = .mapping)
    (hnot : ¬ g.Distinguishes i p k a t) :
    List.Forall₂
      (fun f f' => f'.1 = f.1 ∧ g.StandsFor f.2 f'.2 ∧ (IsBinder key f.1 → f'.2 = f.2))
      (g.entries (g.node v).content) (g.entries ((g.put p k t).node v).content) := by
  have hrefl : ∀ f : String × Nat,
      f.1 = f.1 ∧ g.StandsFor f.2 f.2 ∧ (IsBinder key f.1 → f.2 = f.2) :=
    fun f => ⟨rfl, .inl rfl, fun _ => rfl⟩
  by_cases hv : v = p
  · subst hv
    obtain ⟨m, rfl | rfl⟩ : ∃ m, k = 2 * m ∨ k = 2 * m + 1 := ⟨k / 2, by omega⟩
    · obtain ⟨-, hvalue⟩ := Inspects.key_eq (.key hform hkind) hnot
      rw [content_put_self, entries_set_key hplace hvalue]
      exact List.forall₂_same.mpr fun f _ => hrefl f
    · rw [content_put_self]
      refine forall₂_entries_set hrefl hplace fun c hc => ?_
      refine ⟨rfl, .inr ⟨halias, htarget⟩, fun hbinder => ?_⟩
      obtain ⟨heven, -⟩ := Inspects.key_eq (.binder hform hc rfl hbinder) hnot
      omega
  · rw [content_put_of_ne hv]
    exact List.forall₂_same.mpr fun f _ => hrefl f

/-- If the target gives no less to the forms that can tell it, it gives no less anywhere. -/
theorem mirrors_put
    (hin : ∀ i, g.Distinguishes i p k a t → ∀ e, g.Denotes i e → (g.put p k t).Denotes i e) :
    Mirrors g (g.put p k t) g.StandsFor where
  kind_eq _ := kind_put
  value_eq _ := value_put
  target_eq _ := target_put
  content i _ := standsFor_content hplace halias htarget i
  carries {i j e} h := by
    have h' : (g.put p k t).StandsFor i j := by simpa [StandsFor] using h
    exact h'.denotes_iff.mp
  form {i v key} hform := by
    by_cases hnot : g.Distinguishes i p k a t
    · exact .inl (hin i hnot)
    · refine .inr ⟨(IsForm.put_iff hplace hnot).mpr hform, fun fs hfields => ?_⟩
      refine hfields.transfer kind_put length_content_put ?_
      rw [entries_put]
      exact standsFor_entries hplace halias htarget hform hfields.kind hnot

/-- If the alias gives no less to the forms that can tell it, it gives no less anywhere. -/
theorem put_mirrors
    (hin : ∀ i, g.Distinguishes i p k a t → ∀ e, (g.put p k t).Denotes i e → g.Denotes i e) :
    Mirrors (g.put p k t) g fun i j => g.StandsFor j i where
  kind_eq _ := kind_put.symm
  value_eq _ := value_put.symm
  target_eq _ := target_put.symm
  content i _ := List.Forall₂.flip (standsFor_content hplace halias htarget i)
  carries h := h.denotes_iff.mpr
  form {i v key} hform := by
    by_cases hnot : g.Distinguishes i p k a t
    · exact .inl (hin i hnot)
    · have hform := (IsForm.put_iff hplace hnot).mp hform
      refine .inr ⟨hform, fun fs hfields => ?_⟩
      have hkind : (g.node v).kind = .mapping := kind_put.symm.trans hfields.kind
      refine hfields.transfer kind_put.symm length_content_put.symm ?_
      rw [entries_put]
      refine List.Forall₂.flip ((standsFor_entries hplace halias htarget hform hkind hnot).imp ?_)
      rintro f f' ⟨hkey, hstands, hbinder⟩
      exact ⟨hkey.symm, hstands, fun h => (hbinder (hkey ▸ h)).symm⟩

omit htarget in
/-- A form that looks at the place for anything but a key does not see through an alias there. -/
theorem not_denotes_of_inspects (h : g.Inspects i p k) (hodd : k % 2 = 1) : ¬ g.Denotes i e := by
  intro hd
  cases h with
  | own hform =>
      have hvalue := hd.value_kind hform
      obtain ⟨-, c, hcontent, -⟩ := hform
      have hk : k = 1 := by
        have hlt := (List.getElem?_eq_some_iff.mp hplace).1
        simp only [hcontent, List.length_cons, List.length_nil] at hlt
        omega
      obtain rfl : _ = a := by simpa [hk, hcontent] using hplace
      simp [halias] at hvalue
  | key => omega
  | binder hform hkey hfield hbinder =>
      have hkind := hd.binder_kind hform hbinder (hfield ▸ mem_entries hkey hplace)
      simp [halias] at hkind

end Place

/-- A node in the place of an alias of it changes nothing exactly if it changes nothing for the
forms that can tell the two: those that inspect the place, and for a key only if the alias has
another name than the text of the key. All that inspect the place for anything but a key refuse the
alias. At the start an alias always counts as its target. -/
theorem alias_transparent_iff (g : Graph) (hexpands : g.Expands) (htargeted : g.Targeted)
    (heven : g.EvenMappings) (p k a t : Nat) (hplace : (g.node p).content[k]? = some a)
    (halias : (g.node a).kind = .alias) (htarget : (g.node a).target = some t) :
    ((∀ i, Agree (g.decode i []) ((g.put p k t).decode i [])) ↔
      ∀ i, g.Distinguishes i p k a t → Agree (g.decode i []) ((g.put p k t).decode i [])) ∧
    (∀ i, g.Inspects i p k → k % 2 = 1 →
      ∃ error, g.decode i [] = .error (.error error) []) ∧
    Agree (g.decode a []) (g.decode t []) := by
  have hg : g.WellFormed := ⟨hexpands.acyclic, htargeted, heven⟩
  have hg' : (g.put p k t).WellFormed :=
    ⟨hexpands.acyclic_put hplace halias htarget, targeted_put htargeted, evenMappings_put heven⟩
  refine ⟨⟨fun h i _ => h i, fun h i => ?_⟩, fun i hi hodd => ?_, ?_⟩
  · simp only [agree_iff hg hg'] at h
    refine (agree_iff hg hg').mpr fun e => ⟨?_, ?_⟩
    · exact (mirrors_put hplace halias htarget fun i hi e => (h i hi e).mp).denotes
    · exact (put_mirrors hplace halias htarget fun i hi e => (h i hi e).mpr).denotes
  · exact hg.refused fun e => not_denotes_of_inspects hplace halias hi hodd
  · exact (agree_iff hg hg).mpr fun e => StandsFor.denotes_iff (.inr ⟨halias, htarget⟩)

theorem expands_of_descending
    (h : ∀ i < g.size, (∀ j ∈ (g.node i).content, j < i) ∧ ∀ j ∈ (g.node i).target, j < i) :
    g.Expands := by
  have hlt : ∀ i j, g.Leads i j → j < i := by
    intro i j hj
    have hi : i < g.size := by
      by_contra hle
      have hnode : g.nodes[i]? = none := Array.getElem?_eq_none (Nat.le_of_not_lt hle)
      simp [Leads, Contains, node, hnode] at hj
    rcases hj with hj | ⟨-, hj⟩
    · exact (h i hi).1 j hj
    · exact (h i hi).2 j hj
  have hdown : ∀ i j, Relation.TransGen g.Leads i j → j < i := by
    intro i j hj
    induction hj with
    | single hj => exact hlt _ _ hj
    | tail _ hj ih => exact (hlt _ _ hj).trans ih
  exact fun i hi => Nat.lt_irrefl i (hdown i i hi)

/-- The nodes of `{fun: {arg: x, body: x}}` and `{call: [x, x]}`, with an alias of the fields, of
the items, of the name and of the key and a form for each of them, the call of the function with an
alias of itself, and a call of two fields whose keys are aliases, each with the name of the other
field. -/
def aliasedParts : Graph where
  nodes := #[{ kind := .scalar, value := "fun" }, { kind := .scalar, value := "call" },
    { kind := .scalar, value := "arg" }, { kind := .scalar, value := "x" },
    { kind := .scalar, value := "body" }, { kind := .mapping, content := [2, 3, 4, 3] },
    { kind := .mapping, content := [0, 5] }, { kind := .sequence, content := [3, 3] },
    { kind := .alias, value := "fields", target := some 5 },
    { kind := .alias, value := "items", target := some 7 },
    { kind := .alias, value := "name", target := some 3 },
    { kind := .alias, value := "key", target := some 0 },
    { kind := .mapping, content := [0, 8] }, { kind := .mapping, content := [1, 9] },
    { kind := .mapping, content := [2, 10, 4, 3] }, { kind := .mapping, content := [0, 14] },
    { kind := .mapping, content := [11, 5] },
    { kind := .alias, value := "function", target := some 6 },
    { kind := .sequence, content := [6, 17] }, { kind := .mapping, content := [1, 18] },
    { kind := .scalar, value := "func" }, { kind := .alias, value := "arg", target := some 20 },
    { kind := .alias, value := "func", target := some 2 },
    { kind := .mapping, content := [21, 6, 22, 3] }, { kind := .mapping, content := [1, 23] }]

/-- No form inspects the place of the argument. -/
theorem not_inspects_argument (h : aliasedParts.Inspects i p k) (hp : p = 18) : k ≠ 1 := by
  intro hk
  cases h with
  | own hform =>
      subst hp
      exact absurd hform.kind (by decide)
  | key => omega
  | binder hform hkey hfield hbinder =>
      subst hp
      have hforms : ∀ i < aliasedParts.size, 18 ∈ (aliasedParts.node i).content → i = 19 := by
        decide
      obtain rfl := hforms i (lt_size_of_kind (by simp [hform.kind])) hform.contains
      have hcall : aliasedParts.IsForm 19 "call" 18 := ⟨rfl, 1, rfl, rfl⟩
      simp [IsBinder, hform.key_eq hcall] at hbinder

/-- The function is called with itself, whether by an alias or not. -/
theorem alias_transparent_iff_argument :
    aliasedParts.Expands ∧ aliasedParts.Targeted ∧ aliasedParts.EvenMappings ∧
    (aliasedParts.node 18).content[1]? = some 17 ∧ (∀ i, ¬ aliasedParts.Inspects i 18 1) ∧
    aliasedParts.decode 19 [] = .ok (.call (.lam "x" (.var "x")) (.lam "x" (.var "x"))) [] ∧
    (aliasedParts.put 18 1 6).decode 19 [] =
      .ok (.call (.lam "x" (.var "x")) (.lam "x" (.var "x"))) [] := by
  have hexpands : aliasedParts.Expands := expands_of_descending (by decide)
  have hfree : ∀ i, ¬ aliasedParts.Inspects i 18 1 := fun i h => not_inspects_argument h rfl rfl
  obtain ⟨hiff, -⟩ := alias_transparent_iff aliasedParts hexpands (by decide) (by decide) 18 1 17 6
    rfl rfl rfl
  rcases hiff.mpr (fun i hi => absurd hi.1 (hfree i)) 19 with ⟨e, hrun, hrun'⟩ | ⟨_, _, hrun, -⟩
  · cases hrun
    exact ⟨hexpands, by decide, by decide, rfl, hfree, rfl, hrun'⟩
  · cases hrun

/-- As the fields, as the items, as the name and as the key of a form the alias is refused, and its
target in the same place is not. The call of two fields is read the wrong way round: as a call of
`x` with the function, in place of a call of the function with `x`. -/
theorem alias_not_transparent :
    aliasedParts.Expands ∧ aliasedParts.Targeted ∧ aliasedParts.EvenMappings ∧
    aliasedParts.decode 12 [] = .error (.error ⟨0, .notMapping⟩) [] ∧
    (aliasedParts.put 12 1 5).decode 12 [] = .ok (.lam "x" (.var "x")) [] ∧
    aliasedParts.decode 13 [] = .error (.error ⟨0, .notMapping⟩) [] ∧
    (aliasedParts.put 13 1 7).decode 13 [] = .ok (.call (.var "x") (.var "x")) [] ∧
    aliasedParts.decode 15 [] = .error (.error ⟨0, .notIdentifier⟩) [] ∧
    (aliasedParts.put 14 1 3).decode 15 [] = .ok (.lam "x" (.var "x")) [] ∧
    aliasedParts.decode 16 [] = .error (.error ⟨0, .unknownForm "key"⟩) [] ∧
    (aliasedParts.put 16 0 0).decode 16 [] = .ok (.lam "x" (.var "x")) [] ∧
    aliasedParts.decode 24 [] = .ok (.call (.var "x") (.lam "x" (.var "x"))) [] ∧
    (aliasedParts.put 23 0 20).decode 24 [] = .error (.error ⟨0, .duplicateField "func"⟩) [] ∧
    ((aliasedParts.put 23 0 20).put 23 2 2).decode 24 [] =
      .ok (.call (.lam "x" (.var "x")) (.var "x")) [] :=
  ⟨expands_of_descending (by decide), by decide, by decide, rfl, rfl, rfl, rfl, rfl, rfl, rfl, rfl,
    rfl, rfl, rfl⟩

end LetPoly.Yaml.Graph
