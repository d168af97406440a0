import LetPoly.Proofs.Halting

/-! # Writing expressions as nodes

An expression whose names are identifiers can be written as a tree of nodes, each call with its
parts as fields or as items of a sequence. The decoder reads the expression back from such a tree,
and it gives no other expressions, from whatever graph.
-/

namespace LetPoly

open Yaml

/-! ## Expressions that a document can hold -/

/-- A text that can be read as a name. -/
def IsIdentifier (x : String) : Prop :=
  x ≠ "" ∧ x ≠ "()"

/-- The expression has only forms of the calculus, and all its names are identifiers. -/
def Expr.WellNamed : Expr → Prop
  | unit => True
  | var x => IsIdentifier x
  | lam x body => IsIdentifier x ∧ body.WellNamed
  | call f a => f.WellNamed ∧ a.WellNamed
  | letIn x value body => IsIdentifier x ∧ value.WellNamed ∧ body.WellNamed
  | absent | foreign _ => False

theorem Expr.wellNamed_calls {f : Expr} {es : List Expr} (hf : f.WellNamed)
    (hes : ∀ e ∈ es, e.WellNamed) : (f.calls es).WellNamed := by
  induction es generalizing f with
  | nil => exact hf
  | cons a es ih =>
      rw [List.forall_mem_cons] at hes
      exact ih ⟨hf, hes.1⟩ hes.2

namespace Yaml

variable {g : Graph} {i j base : Nat} {x key : String} {e e' f a : Expr} {es : List Expr}

theorem Graph.Names.isIdentifier (h : g.Names i x) : IsIdentifier x :=
  ⟨h.nonempty, h.ne_unit⟩

theorem Graph.Rule.wellNamed (h : g.Rule (fun _ e => e.WellNamed) i e) : e.WellNamed := by
  cases h with
  | document _ _ h | aliased _ _ h => exact h
  | unit => trivial
  | var h => exact h.isIdentifier
  | lam _ _ harg hbody => exact ⟨harg.isIdentifier, hbody⟩
  | call _ _ hfunc harg => exact ⟨hfunc, harg⟩
  | letIn _ _ hname hvalue hbody => exact ⟨hname.isIdentifier, hvalue, hbody⟩
  | calls _ _ _ _ hfunc hlength hargs =>
      refine Expr.wellNamed_calls hfunc fun e he => ?_
      rw [← List.map_snd_zip hlength.le] at he
      obtain ⟨p, hp, rfl⟩ := List.mem_map.mp he
      exact hargs p hp

/-! ## Trees of nodes -/

/-- A document without aliases. The content of a mapping is its keys and values by turns. -/
inductive Tree where
  | scalar (value : String)
  | mapping (content : List Tree)
  | sequence (items : List Tree)

namespace Tree

mutual

/-- The nodes of a tree in the order in which they are written, with the root at `base`. -/
def nodes : Tree → (base : Nat) → List Node
  | scalar value, _ => [{ kind := .scalar, value }]
  | mapping content, base =>
    { kind := .mapping, content := roots content (base + 1) } :: forest content (base + 1)
  | sequence items, base =>
    { kind := .sequence, content := roots items (base + 1) } :: forest items (base + 1)

/-- The nodes of several trees, one tree behind the other. -/
def forest : List Tree → (base : Nat) → List Node
  | [], _ => []
  | t :: ts, base => t.nodes base ++ forest ts (base + (t.nodes base).length)

/-- Where the roots of several trees stand. -/
def roots : List Tree → (base : Nat) → List Nat
  | [], _ => []
  | t :: ts, base => base :: roots ts (base + (t.nodes base).length)

end

/-- The graph of a tree, with the root as its first node. -/
def graph (t : Tree) : Graph where
  nodes := (t.nodes 0).toArray

/-- A mapping of the given fields. -/
def table (fs : List (String × Tree)) : Tree :=
  mapping (fs.flatMap fun f => [scalar f.1, f.2])

/-- A mapping of one pair. -/
def form (key : String) (value : Tree) : Tree :=
  table [(key, value)]

end Tree

/-- The nodes stand in the graph from `base` on. -/
def Graph.Holds (g : Graph) (base : Nat) (ns : List Node) : Prop :=
  ∀ p ∈ ns.zipIdx base, g.node p.2 = p.1

/-- The tree stands in the graph, with its root at the node. -/
def Graph.Shows (g : Graph) (i : Nat) (t : Tree) : Prop :=
  g.Holds i (t.nodes i)

namespace Graph

variable {t : Tree} {ts : List Tree}

theorem holds_cons {n : Node} {ns : List Node} :
    g.Holds base (n :: ns) ↔ g.node base = n ∧ g.Holds (base + 1) ns := by
  rw [Holds, List.zipIdx_cons, List.forall_mem_cons]
  rfl

theorem holds_append {ns ms : List Node} :
    g.Holds base (ns ++ ms) ↔ g.Holds base ns ∧ g.Holds (base + ns.length) ms := by
  rw [Holds, List.zipIdx_append, List.forall_mem_append]
  rfl

/-- The trees of a forest stand where their roots are. -/
theorem Holds.forest (h : g.Holds base (Tree.forest ts base)) :
    List.Forall₂ g.Shows (Tree.roots ts base) ts := by
  induction ts generalizing base with
  | nil => exact .nil
  | cons t ts ih =>
      rw [Tree.forest, holds_append] at h
      exact .cons h.1 (ih h.2)

theorem Shows.scalar {value : String} (h : g.Shows i (.scalar value)) :
    (g.node i).kind = .scalar ∧ (g.node i).value = value := by
  rw [Shows, Tree.nodes, holds_cons] at h
  simp [h.1]

theorem Shows.mapping (h : g.Shows i (.mapping ts)) :
    (g.node i).kind = .mapping ∧ List.Forall₂ g.Shows (g.node i).content ts := by
  rw [Shows, Tree.nodes, holds_cons] at h
  rw [h.1]
  exact ⟨rfl, h.2.forest⟩

theorem Shows.sequence (h : g.Shows i (.sequence ts)) :
    (g.node i).kind = .sequence ∧ List.Forall₂ g.Shows (g.node i).content ts := by
  rw [Shows, Tree.nodes, holds_cons] at h
  rw [h.1]
  exact ⟨rfl, h.2.forest⟩

theorem entries_of_shows {fs : List (String × Tree)} {content : List Nat}
    (h : List.Forall₂ g.Shows content (fs.flatMap fun f => [.scalar f.1, f.2])) :
    2 ∣ content.length ∧ ∃ vs, g.entries content = (fs.map Prod.fst).zip vs ∧
      List.Forall₂ g.Shows vs (fs.map Prod.snd) := by
  induction fs generalizing content with
  | nil =>
      cases h
      exact ⟨by simp, [], rfl, .nil⟩
  | cons f fs ih =>
      rw [List.flatMap_cons, List.cons_append, List.cons_append, List.nil_append] at h
      rcases h with _ | ⟨hkey, _ | ⟨hvalue, h⟩⟩
      obtain ⟨heven, vs, hentries, hvs⟩ := ih h
      refine ⟨(Nat.dvd_add_left (Nat.dvd_refl 2)).mpr heven, _ :: vs, ?_, .cons hvalue hvs⟩
      rw [entries_cons, hentries, hkey.scalar.2]
      rfl

/-- A mapping of fields has these fields. -/
theorem Shows.table {fs : List (String × Tree)} (h : g.Shows i (.table fs)) :
    ∃ vs, g.HasFields i ((fs.map Prod.fst).zip vs) ∧ List.Forall₂ g.Shows vs (fs.map Prod.snd) := by
  obtain ⟨hkind, hcontent⟩ := h.mapping
  obtain ⟨heven, vs, hentries, hvs⟩ := entries_of_shows hcontent
  exact ⟨vs, ⟨hkind, heven, hentries ▸ .refl _⟩, hvs⟩

theorem Shows.form (h : g.Shows i (.form key t)) : ∃ v, g.IsForm i key v ∧ g.Shows v t := by
  obtain ⟨hkind, hcontent⟩ := h.mapping
  generalize hc : (g.node i).content = content at hcontent
  rcases hcontent with _ | ⟨hkey, _ | ⟨hvalue, _ | _⟩⟩
  exact ⟨_, ⟨hkind, _, hc, hkey.scalar.2⟩, hvalue⟩

theorem Shows.names (h : g.Shows i (.scalar x)) (hx : IsIdentifier x) : g.Names i x :=
  ⟨h.scalar.1, h.scalar.2, hx.1, hx.2⟩

end Graph

theorem Tree.shows_graph (t : Tree) : t.graph.Shows 0 t := by
  intro p hp
  have hget := List.mem_zipIdx_iff_getElem?.mp hp
  simp [Graph.node, graph, hget]

/-! ## Every node in one place -/

/-- Below its first node the graph is a tree: no node lies below itself, and every other node stands
in exactly one place. -/
structure Graph.IsTree (g : Graph) : Prop where
  acyclic : g.Acyclic
  once : (0 :: g.nodes.toList.flatMap Node.content).Perm (List.range g.size)

namespace Tree

mutual

theorem content_nodes : (t : Tree) → (base : Nat) →
    (base :: (t.nodes base).flatMap Node.content).Perm (List.range' base (t.nodes base).length)
  | scalar value, base => by simp [nodes]
  | mapping content, base => by
      simpa [nodes, List.range'_succ] using content_forest content (base + 1)
  | sequence items, base => by
      simpa [nodes, List.range'_succ] using content_forest items (base + 1)

theorem content_forest : (ts : List Tree) → (base : Nat) →
    (roots ts base ++ (forest ts base).flatMap Node.content).Perm
      (List.range' base (forest ts base).length)
  | [], base => by simp [roots, forest]
  | t :: ts, base => by
      have hhead := content_nodes t base
      have htail := content_forest ts (base + (t.nodes base).length)
      rw [roots, forest, List.flatMap_append, List.length_append, ← List.range'_append_1]
      refine .trans ?_ (hhead.append htail)
      rw [List.cons_append, List.cons_append, List.perm_cons]
      exact List.perm_append_comm_assoc _ _ _

end

theorem le_of_mem_roots {ts : List Tree} (h : i ∈ roots ts base) : base ≤ i := by
  induction ts generalizing base with
  | nil => simp [roots] at h
  | cons t ts ih =>
      rw [roots, List.mem_cons] at h
      rcases h with rfl | h
      · exact Nat.le_refl _
      · exact (Nat.le_add_right _ _).trans (ih h)

mutual

theorem ascending_nodes : (t : Tree) → (base : Nat) →
    ∀ p ∈ (t.nodes base).zipIdx base, ∀ j ∈ p.1.content, p.2 < j
  | scalar value, base => by simp [nodes]
  | mapping content, base => by
      rw [nodes, List.zipIdx_cons, List.forall_mem_cons]
      exact ⟨fun j hj => le_of_mem_roots hj, ascending_forest content (base + 1)⟩
  | sequence items, base => by
      rw [nodes, List.zipIdx_cons, List.forall_mem_cons]
      exact ⟨fun j hj => le_of_mem_roots hj, ascending_forest items (base + 1)⟩

theorem ascending_forest : (ts : List Tree) → (base : Nat) →
    ∀ p ∈ (forest ts base).zipIdx base, ∀ j ∈ p.1.content, p.2 < j
  | [], base => by simp [forest]
  | t :: ts, base => by
      rw [forest, List.zipIdx_append, List.forall_mem_append]
      exact ⟨ascending_nodes t base, ascending_forest ts _⟩

end

theorem mem_zipIdx_of_lt_size {t : Tree} (h : i < t.graph.size) :
    (t.graph.node i, i) ∈ (t.nodes 0).zipIdx := by
  have hlt : i < (t.nodes 0).length := by simpa [graph, Graph.size] using h
  rw [List.mem_zipIdx_iff_getElem?]
  simp [Graph.node, graph, hlt]

theorem isTree_graph (t : Tree) : t.graph.IsTree where
  acyclic := Graph.acyclic_of_ascending fun _ hi =>
    ascending_nodes t 0 _ (mem_zipIdx_of_lt_size hi)
  once := by
    rw [List.range_eq_range']
    simpa [graph, Graph.size] using content_nodes t 0

end Tree

/-! ## Trees that stand for expressions -/

/-- How a call is written. -/
inductive CallForm where
  /-- A mapping of the function and the argument. -/
  | fields
  /-- A sequence of the function and the argument. -/
  | items
  /-- The sequence of the function's own items and the argument. A function that is not written as a
  sequence is the first item. -/
  | joined

/-- If the node is a call, it is written in the form that is chosen for it. -/
def Graph.CallAt (g : Graph) (style : Expr → Expr → CallForm) (i : Nat) : Prop :=
  ∀ v, g.IsForm i "call" v → ∃ f a, g.decode i [] = .ok (.call f a) [] ∧
    ((g.node v).kind = .sequence ↔ style f a ≠ .fields)

/-- The node is a scalar or a mapping, or the items of a call, and it is written in the chosen
form. -/
structure Graph.PlainAt (g : Graph) (style : Expr → Expr → CallForm) (i : Nat) : Prop where
  kind : (g.node i).kind = .scalar ∨ (g.node i).kind = .mapping ∨
    (g.node i).kind = .sequence ∧ ∃ j, g.IsForm j "call" i
  call : g.CallAt style i

theorem Graph.callAt_of_kind {style : Expr → Expr → CallForm} (h : (g.node i).kind ≠ .mapping) :
    g.CallAt style i :=
  fun _ hform => absurd hform.kind h

namespace Tree

variable {style : Expr → Expr → CallForm} {t t' : Tree} {ts : List Tree}
  {fs : List (String × Tree)}

/-- Wherever the tree stands in a graph, all of its nodes are plain. -/
def Plain (style : Expr → Expr → CallForm) (t : Tree) : Prop :=
  ∀ (g : Graph) (i : Nat), g.Shows i t → ∀ p ∈ (t.nodes i).zipIdx i, g.PlainAt style p.2

theorem plain_scalar (value : String) : (scalar value).Plain style := by
  intro g i h
  rw [nodes, List.zipIdx_singleton, List.forall_mem_singleton]
  exact ⟨.inl h.scalar.1, Graph.callAt_of_kind (by simp [h.scalar.1])⟩

theorem plain_forest (hts : ∀ t ∈ ts, t.Plain style) (h : g.Holds base (forest ts base)) :
    ∀ p ∈ (forest ts base).zipIdx base, g.PlainAt style p.2 := by
  induction ts generalizing base with
  | nil => simp [forest]
  | cons t ts ih =>
      rw [List.forall_mem_cons] at hts
      rw [forest, Graph.holds_append] at h
      rw [forest, List.zipIdx_append, List.forall_mem_append]
      exact ⟨hts.1 g base h.1, ih hts.2 h.2⟩

theorem plain_table (hfs : ∀ f ∈ fs, f.2.Plain style)
    (hcall : ∀ (g : Graph) (i : Nat), g.Shows i (table fs) → g.CallAt style i) :
    (table fs).Plain style := by
  intro g i h
  have hkind := h.mapping.1
  have hroot := hcall g i h
  rw [Graph.Shows, table, nodes, Graph.holds_cons] at h
  rw [table, nodes, List.zipIdx_cons, List.forall_mem_cons]
  refine ⟨⟨.inr (.inl hkind), hroot⟩, plain_forest (fun t ht => ?_) h.2⟩
  obtain ⟨f, hf, ht⟩ := List.mem_flatMap.mp ht
  rcases List.mem_pair.mp ht with rfl | rfl
  · exact plain_scalar f.1
  · exact hfs f hf

/-- A mapping of several fields is no form. -/
theorem plain_fields (hfs : ∀ f ∈ fs, f.2.Plain style) (hlength : fs.length ≠ 1) :
    (table fs).Plain style := by
  refine plain_table hfs fun g i h v hform => ?_
  obtain ⟨-, k, hcontent, -⟩ := hform
  obtain ⟨vs, hfields, hvs⟩ := h.table
  have hperm := hfields.perm.length_eq
  have hlength' := hvs.length_eq
  simp [hcontent, Graph.entries, pairs] at hperm hlength'
  omega

theorem plain_form (h : t.Plain style) (hkey : key ≠ "call") : (form key t).Plain style := by
  refine plain_table (by simpa using h) fun g i hi v hcall => ?_
  obtain ⟨w, hform, -⟩ := hi.form
  exact absurd (hform.key_eq hcall) hkey

/-- The one place where a sequence is plain. -/
theorem plain_items (hts : ∀ t ∈ ts, t.Plain style)
    (hcall : ∀ (g : Graph) (i : Nat), g.Shows i (form "call" (sequence ts)) → g.CallAt style i) :
    (form "call" (sequence ts)).Plain style := by
  intro g i h
  have hroot := hcall g i h
  have hnodes : (form "call" (sequence ts)).nodes i =
      { kind := .mapping, content := [i + 1, i + 2] } :: { kind := .scalar, value := "call" } ::
      { kind := .sequence, content := roots ts (i + 3) } :: forest ts (i + 3) := by
    simp [form, table, nodes, forest, roots]
  rw [Graph.Shows, hnodes, Graph.holds_cons, Graph.holds_cons, Graph.holds_cons] at h
  obtain ⟨hform, hkey, hitems, hrest⟩ := h
  simp only [hnodes, List.zipIdx_cons, List.forall_mem_cons]
  refine ⟨⟨.inr (.inl (by rw [hform])), hroot⟩,
    ⟨.inl (by rw [hkey]), Graph.callAt_of_kind (by simp [hkey])⟩,
    ⟨.inr (.inr ⟨by rw [hitems], i, ?_⟩), Graph.callAt_of_kind (by simp [hitems])⟩,
    plain_forest hts hrest⟩
  exact ⟨by rw [hform], i + 1, by rw [hform], by rw [hkey]⟩

/-- The tree stands for the expression in every graph, and all of its nodes are plain. -/
structure Writes (style : Expr → Expr → CallForm) (t : Tree) (e : Expr) : Prop where
  denotes : ∀ (g : Graph) (i : Nat), g.Shows i t → g.Denotes i e
  plain : t.Plain style

theorem writes_unit : (scalar "()").Writes style .unit where
  denotes _ _ h := .unit h.scalar.1 h.scalar.2
  plain := plain_scalar _

theorem writes_var (hx : IsIdentifier x) : (scalar x).Writes style (.var x) where
  denotes _ _ h := .var (h.names hx)
  plain := plain_scalar x

theorem Writes.lam (hx : IsIdentifier x) (h : t.Writes style e) :
    (form "fun" (table [("arg", scalar x), ("body", t)])).Writes style (.lam x e) where
  denotes g i hi := by
    obtain ⟨v, hform, hv⟩ := hi.form
    obtain ⟨vs, hfields, hvs⟩ := hv.table
    rcases hvs with _ | ⟨harg, _ | ⟨hbody, _ | _⟩⟩
    exact .lam hform hfields (harg.names hx) (h.denotes g _ hbody)
  plain := plain_form (plain_fields (by simpa using ⟨plain_scalar x, h.plain⟩) (by simp))
    (by decide)

theorem Writes.letIn (hx : IsIdentifier x) (h : t.Writes style e) (h' : t'.Writes style e') :
    (form "let" (table [("var", scalar x), ("value", t), ("body", t')])).Writes style
      (.letIn x e e') where
  denotes g i hi := by
    obtain ⟨v, hform, hv⟩ := hi.form
    obtain ⟨vs, hfields, hvs⟩ := hv.table
    rcases hvs with _ | ⟨hname, _ | ⟨hvalue, _ | ⟨hbody, _ | _⟩⟩⟩
    exact .letIn hform hfields (hname.names hx) (h.denotes g _ hvalue) (h'.denotes g _ hbody)
  plain := plain_form (plain_fields (by simpa using ⟨plain_scalar x, h.plain, h'.plain⟩) (by simp))
    (by decide)

theorem denotes_fields (hf : t.Writes style f) (ha : t'.Writes style a)
    (h : g.Shows i (form "call" (table [("func", t), ("arg", t')]))) :
    ∃ v, g.IsForm i "call" v ∧ (g.node v).kind = .mapping ∧ g.Denotes i (.call f a) := by
  obtain ⟨v, hform, hv⟩ := h.form
  obtain ⟨vs, hfields, hvs⟩ := hv.table
  rcases hvs with _ | ⟨hfunc, _ | ⟨harg, _ | _⟩⟩
  exact ⟨v, hform, hfields.kind,
    .call hform hfields (hf.denotes g _ hfunc) (ha.denotes g _ harg)⟩

theorem Writes.call (hf : t.Writes style f) (ha : t'.Writes style a)
    (hstyle : style f a = .fields) :
    (form "call" (table [("func", t), ("arg", t')])).Writes style (.call f a) where
  denotes g i h := by
    obtain ⟨v, -, -, hd⟩ := denotes_fields hf ha h
    exact hd
  plain := by
    have hfields : (table [("func", t), ("arg", t')]).Plain style :=
      plain_fields (by simpa using ⟨hf.plain, ha.plain⟩) (by simp)
    refine plain_table (by simpa using hfields) fun g i h v hv => ?_
    obtain ⟨w, hform, hkind, hd⟩ := denotes_fields hf ha h
    rw [← hform.value_eq hv]
    exact ⟨f, a, hd.decode_eq, by simp [hkind, hstyle]⟩

theorem plain_of_writes (hes : List.Forall₂ (Writes style) ts es) : ∀ t ∈ ts, t.Plain style := by
  induction hes with
  | nil => simp
  | cons he _ ih => exact List.forall_mem_cons.mpr ⟨he.plain, ih⟩

theorem denotes_items (hf : t.Writes style f) (hes : List.Forall₂ (Writes style) ts es)
    (hne : ts ≠ []) (h : g.Shows i (form "call" (sequence (t :: ts)))) :
    ∃ v, g.IsForm i "call" v ∧ (g.node v).kind = .sequence ∧ g.Denotes i (f.calls es) := by
  obtain ⟨v, hform, hv⟩ := h.form
  obtain ⟨hkind, hitems⟩ := hv.sequence
  obtain ⟨func, args, hfunc, hargs, hcontent⟩ := List.forall₂_cons_right_iff.mp hitems
  have hdenotes : List.Forall₂ g.Denotes args es :=
    forall₂_comp hargs hes fun j _ _ hj he => he.denotes g j hj
  obtain ⟨hlength, hall⟩ := List.forall₂_iff_zip.mp hdenotes
  have hargs_ne : args ≠ [] := by
    rintro rfl
    exact hne (List.forall₂_nil_left_iff.mp hargs)
  exact ⟨v, hform, hkind, .calls hform hkind hcontent hargs_ne (hf.denotes g func hfunc)
    hlength.symm fun p hp => hall hp⟩

theorem Writes.calls (hf : t.Writes style f) (hes : List.Forall₂ (Writes style) ts es)
    (hne : ts ≠ []) (hlast : f.calls es = .call e a) (hstyle : style e a ≠ .fields) :
    (form "call" (sequence (t :: ts))).Writes style (f.calls es) where
  denotes g i h := by
    obtain ⟨v, -, -, hd⟩ := denotes_items hf hes hne h
    exact hd
  plain := by
    have hplain := List.forall_mem_cons.mpr ⟨hf.plain, plain_of_writes hes⟩
    refine plain_items hplain fun g i h v hv => ?_
    obtain ⟨w, hform, hkind, hd⟩ := denotes_items hf hes hne h
    rw [← hform.value_eq hv]
    exact ⟨e, a, hlast ▸ hd.decode_eq, by simp [hkind, hstyle]⟩

end Tree

end Yaml

/-! ## The encoder -/

/-- The tree of a function and the arguments that follow it in its sequence. -/
def Yaml.Tree.ofItems : Tree × List Tree → Tree
  | (t, []) => t
  | (t, ts) => form "call" (sequence (t :: ts))

open Yaml.Tree

namespace Expr

variable {style : Expr → Expr → CallForm} {e f a : Expr} {x : String}

/-- The function of an expression and the arguments that follow it in its sequence. An expression
that is not written as a sequence is all function. What no document can hold is written as the empty
name. -/
def toItems (style : Expr → Expr → CallForm) : Expr → Tree × List Tree
  | unit => (scalar "()", [])
  | var x => (scalar x, [])
  | lam x body =>
    (form "fun" (table [("arg", scalar x), ("body", ofItems (body.toItems style))]), [])
  | call f a =>
    match style f a with
    | .fields =>
      (form "call" (table [("func", ofItems (f.toItems style)),
        ("arg", ofItems (a.toItems style))]), [])
    | .items => (ofItems (f.toItems style), [ofItems (a.toItems style)])
    | .joined => ((f.toItems style).1, (f.toItems style).2 ++ [ofItems (a.toItems style)])
  | letIn x value body =>
    (form "let" (table [("var", scalar x), ("value", ofItems (value.toItems style)),
      ("body", ofItems (body.toItems style))]), [])
  | absent | foreign _ => (scalar "", [])

/-- The tree of an expression, with its calls in the given forms. -/
def toTree (style : Expr → Expr → CallForm) (e : Expr) : Tree :=
  ofItems (e.toItems style)

/-- The document of an expression, with its calls in the given forms. -/
def document (style : Expr → Expr → CallForm) (e : Expr) : Graph :=
  (e.toTree style).graph

/-- The function and its arguments stand for those of the expression. -/
structure WrittenBy (style : Expr → Expr → CallForm) (e f : Expr) (es : List Expr)
    (p : Tree × List Tree) : Prop where
  eq_calls : e = f.calls es
  func : p.1.Writes style f
  args : List.Forall₂ (Writes style) p.2 es
  /-- A sequence is begun or continued only where it is chosen. -/
  chosen : p.2 ≠ [] → ∃ f a, e = call f a ∧ style f a ≠ .fields

theorem WrittenBy.ofItems {es : List Expr} {p : Tree × List Tree} (h : WrittenBy style e f es p) :
    (ofItems p).Writes style e := by
  obtain ⟨t, ts⟩ := p
  obtain ⟨rfl, hf, hes, hchosen⟩ := h
  cases hes with
  | nil => exact hf
  | cons he hes =>
      obtain ⟨f', a, hlast, hstyle⟩ := hchosen (by simp)
      exact hf.calls (.cons he hes) (by simp) hlast hstyle

theorem writtenBy_of_writes {t : Tree} (h : t.Writes style e) : WrittenBy style e e [] (t, []) :=
  ⟨rfl, h, .nil, fun hne => absurd rfl hne⟩

theorem WrittenBy.append {es : List Expr} {p : Tree × List Tree} {t : Tree}
    (hf : WrittenBy style e f es p) (ha : t.Writes style a) (hstyle : style e a ≠ .fields) :
    WrittenBy style (call e a) f (es ++ [a]) (p.1, p.2 ++ [t]) where
  eq_calls := by simp [calls, hf.eq_calls]
  func := hf.func
  args := List.rel_append hf.args (.cons ha .nil)
  chosen _ := ⟨e, a, rfl, hstyle⟩

theorem WellNamed.writtenBy (h : e.WellNamed) :
    ∃ f es, WrittenBy style e f es (e.toItems style) := by
  induction e with
  | unit => exact ⟨_, _, writtenBy_of_writes writes_unit⟩
  | var x => exact ⟨_, _, writtenBy_of_writes (writes_var h)⟩
  | lam x body ih =>
      obtain ⟨f, es, hbody⟩ := ih h.2
      exact ⟨_, _, writtenBy_of_writes (.lam h.1 hbody.ofItems)⟩
  | call f a ihf iha =>
      obtain ⟨f', es, hf⟩ := ihf h.1
      obtain ⟨_, _, ha⟩ := iha h.2
      rw [toItems]
      cases hstyle : style f a with
      | fields => exact ⟨_, _, writtenBy_of_writes (.call hf.ofItems ha.ofItems hstyle)⟩
      | items =>
          have halone := writtenBy_of_writes hf.ofItems
          exact ⟨_, _, halone.append ha.ofItems (by simp [hstyle])⟩
      | joined => exact ⟨_, _, hf.append ha.ofItems (by simp [hstyle])⟩
  | letIn x value body ihv ihb =>
      obtain ⟨_, _, hvalue⟩ := ihv h.2.1
      obtain ⟨_, _, hbody⟩ := ihb h.2.2
      exact ⟨_, _, writtenBy_of_writes (.letIn h.1 hvalue.ofItems hbody.ofItems)⟩
  | absent | foreign => exact h.elim

theorem WellNamed.writes (h : e.WellNamed) : (e.toTree style).Writes style e := by
  obtain ⟨f, es, hwritten⟩ : ∃ f es, WrittenBy style e f es (e.toItems style) := h.writtenBy
  exact hwritten.ofItems

end Expr

open Yaml.Graph

/-- The decoder gives only expressions whose names are identifiers, and every such expression: it is
what the decoder gives for its document, in whatever form each call is written there. -/
theorem decode_image (e : Expr) :
    (∀ (g : Graph) (i : Nat) (o o' : List Nat), g.decode i o = .ok e o' → e.WellNamed) ∧
    (e.WellNamed → ∀ style : Expr → Expr → CallForm,
      (e.document style).IsTree ∧
      (∀ i < (e.document style).size, (e.document style).PlainAt style i) ∧
      (e.document style).decode 0 [] = .ok e []) := by
  constructor
  · intro g i o o' h
    exact of_decodeUpTo (P := fun _ e => e.WellNamed) (fun i e hrule => hrule.wellNamed) h
  · intro h style
    have hwrites : (e.toTree style).Writes style e := h.writes
    have hshows : (e.document style).Shows 0 (e.toTree style) := shows_graph _
    refine ⟨isTree_graph _, fun i hi => ?_, (hwrites.denotes _ 0 hshows).decode_eq⟩
    exact hwrites.plain _ 0 hshows _ (mem_zipIdx_of_lt_size hi)

/-- A function that is called with itself and with the unit literal. -/
def calledTwice : Expr :=
  .call (.call (.lam "x" (.var "x")) (.lam "x" (.var "x"))) .unit

/-- The expression comes from a document with an alias. Its own documents have none: with fields, or
with all arguments in one sequence. -/
theorem decode_image_called_twice :
    callDocument.decode 0 [] = .ok calledTwice [] ∧ calledTwice.WellNamed ∧
    (calledTwice.document fun _ _ => .fields).decode 0 [] = .ok calledTwice [] ∧
    (calledTwice.document fun _ _ => .joined).decode 0 [] = .ok calledTwice [] := by
  have hrun : callDocument.decode 0 [] = .ok calledTwice [] := rfl
  have hnamed := (decode_image calledTwice).1 callDocument 0 [] [] hrun
  obtain ⟨-, -, hfields⟩ := (decode_image calledTwice).2 hnamed fun _ _ => .fields
  obtain ⟨-, -, hjoined⟩ := (decode_image calledTwice).2 hnamed fun _ _ => .joined
  exact ⟨hrun, hnamed, hfields, hjoined⟩

end LetPoly
