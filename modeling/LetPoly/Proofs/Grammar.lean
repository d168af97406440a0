import LetPoly.Expr.Document
import LetPoly.Proofs.Running
import Mathlib.Data.List.Nodup

/-! # The grammar of node graphs

Which expression a node denotes is said by rules, one for each form. What the decoder does at a node
is said by one equation for each form, with the fields of a mapping in any order.
-/

namespace LetPoly

open Yaml

variable {α β γ ε σ : Type}

/-! ## Computations over lists -/

theorem forall₂_comp {r : α → β → Prop} {q : β → γ → Prop} {u : α → γ → Prop} {xs : List α}
    {ys : List β} {zs : List γ} (hr : List.Forall₂ r xs ys) (hq : List.Forall₂ q ys zs)
    (h : ∀ a b c, r a b → q b c → u a c) : List.Forall₂ u xs zs := by
  induction hr generalizing zs with
  | nil =>
      cases hq
      exact .nil
  | cons hab _ ih =>
      cases hq with
      | cons hbc hq => exact .cons (h _ _ _ hab hbc) (ih hq)

theorem mapM_sound {f : α → EStateM ε σ β} {xs : List α} {ys : List β} {s s' : σ}
    (h : xs.mapM f s = .ok ys s') :
    ys.length = xs.length ∧ ∀ p ∈ xs.zip ys, ∃ s₁ s₂, f p.1 s₁ = .ok p.2 s₂ := by
  induction xs generalizing ys s with
  | nil =>
      cases h
      simp
  | cons x xs ih =>
      rw [List.mapM_cons] at h
      obtain ⟨y, s₁, hy, h⟩ := bind_eq_ok.mp h
      obtain ⟨ys, s₂, hys, h⟩ := bind_eq_ok.mp h
      cases h
      obtain ⟨hlength, hall⟩ := ih hys
      refine ⟨by simp [hlength], ?_⟩
      rw [List.zip_cons_cons, List.forall_mem_cons]
      exact ⟨⟨s, s₁, hy⟩, hall⟩

theorem mapM_ok {f : α → EStateM ε σ β} {xs : List α} {ys : List β} {s : σ}
    (hlength : ys.length = xs.length) (h : ∀ p ∈ xs.zip ys, f p.1 s = .ok p.2 s) :
    xs.mapM f s = .ok ys s := by
  induction xs generalizing ys with
  | nil =>
      obtain rfl : ys = [] := List.length_eq_zero_iff.mp hlength
      rfl
  | cons x xs ih =>
      obtain ⟨y, ys, rfl⟩ := List.exists_cons_of_length_eq_add_one hlength
      rw [List.zip_cons_cons, List.forall_mem_cons] at h
      have hys := ih (Nat.succ.inj hlength) h.2
      rw [List.mapM_cons, bind_apply, h.1]
      simp only [bind_apply, hys]
      rfl

/-! ## Rules -/

namespace Yaml.Graph

variable {g : Graph} {i j n v w : Nat} {e : Expr} {x key : String} {o o' : List Nat}
  {keys : List String} {vs : List Nat} {fs found found' : List (String × Nat)}

/-- The texts of a mapping's keys, with its values. -/
def entries (g : Graph) (content : List Nat) : List (String × Nat) :=
  (pairs content).map fun p => ((g.node p.1).value, p.2)

/-- The node is a mapping of exactly the given fields, in any order. -/
structure HasFields (g : Graph) (i : Nat) (fs : List (String × Nat)) : Prop where
  kind : (g.node i).kind = .mapping
  even : 2 ∣ (g.node i).content.length
  perm : (g.entries (g.node i).content).Perm fs

/-- The node is a mapping of one pair, with the given text as its key and the given value. -/
structure IsForm (g : Graph) (i : Nat) (key : String) (v : Nat) : Prop where
  kind : (g.node i).kind = .mapping
  content : ∃ k, (g.node i).content = [k, v] ∧ (g.node k).value = key

/-- The node is a scalar that can serve as a name. -/
structure Names (g : Graph) (i : Nat) (x : String) : Prop where
  kind : (g.node i).kind = .scalar
  value : (g.node i).value = x
  nonempty : x ≠ ""
  ne_unit : x ≠ "()"

/-- The node denotes the expression. -/
inductive Denotes (g : Graph) : Nat → Expr → Prop where
  | document {i child : Nat} {e : Expr} (hkind : (g.node i).kind = .document)
      (hcontent : (g.node i).content = [child]) (h : Denotes g child e) : Denotes g i e
  | aliased {i target : Nat} {e : Expr} (hkind : (g.node i).kind = .alias)
      (htarget : (g.node i).target = some target) (h : Denotes g target e) : Denotes g i e
  | unit {i : Nat} (hkind : (g.node i).kind = .scalar) (hvalue : (g.node i).value = "()") :
      Denotes g i .unit
  | var {i : Nat} {x : String} (h : g.Names i x) : Denotes g i (.var x)
  | lam {i v arg body : Nat} {x : String} {e : Expr} (hform : g.IsForm i "fun" v)
      (hfields : g.HasFields v [("arg", arg), ("body", body)]) (harg : g.Names arg x)
      (hbody : Denotes g body e) : Denotes g i (.lam x e)
  | call {i v func arg : Nat} {f a : Expr} (hform : g.IsForm i "call" v)
      (hfields : g.HasFields v [("func", func), ("arg", arg)]) (hfunc : Denotes g func f)
      (harg : Denotes g arg a) : Denotes g i (.call f a)
  | letIn {i v name value body : Nat} {x : String} {e e' : Expr} (hform : g.IsForm i "let" v)
      (hfields : g.HasFields v [("var", name), ("value", value), ("body", body)])
      (hname : g.Names name x) (hvalue : Denotes g value e) (hbody : Denotes g body e') :
      Denotes g i (.letIn x e e')
  | calls {i v func : Nat} {args : List Nat} {f : Expr} {es : List Expr}
      (hform : g.IsForm i "call" v) (hkind : (g.node v).kind = .sequence)
      (hcontent : (g.node v).content = func :: args) (hne : args ≠ []) (hfunc : Denotes g func f)
      (hlength : es.length = args.length) (hargs : ∀ p ∈ args.zip es, Denotes g p.1 p.2) :
      Denotes g i (f.calls es)

/-! ## Fields -/

theorem refuse_ne_ok {node : Node} {problem : NodeProblem} {a : α} :
    (node.refuse problem : DecodeM α) o ≠ .ok a o' := nofun

theorem entries_cons {k v : Nat} {rest : List Nat} :
    g.entries (k :: v :: rest) = ((g.node k).value, v) :: g.entries rest := rfl

theorem collectFields_cons_eq_ok {k v : Nat} {rest : List Nat} :
    g.collectFields keys (k :: v :: rest) found o = .ok found' o' ↔
      (g.node k).value ∈ keys ∧ (g.node k).value ∉ found.map Prod.fst ∧
        g.collectFields keys rest (((g.node k).value, v) :: found) o = .ok found' o' := by
  have hlookup : (found.lookup (g.node k).value).isSome = true ↔
      (g.node k).value ∈ found.map Prod.fst := by
    simp [Option.isSome_iff_ne_none]
  rw [collectFields, ← hlookup]
  by_cases hkey : (g.node k).value ∈ keys
  · cases (found.lookup (g.node k).value).isSome with
    | false => simp [hkey]
    | true => simp [hkey, Node.refuse, throw_apply]
  · simp [hkey, Node.refuse, throw_apply]

theorem collectFields_eq_ok {content : List Nat} :
    g.collectFields keys content found o = .ok found' o' ↔
      found' = (g.entries content).reverse ++ found ∧ o' = o ∧
      (∀ f ∈ g.entries content, f.1 ∈ keys) ∧ ((g.entries content).map Prod.fst).Nodup ∧
      List.Disjoint ((g.entries content).map Prod.fst) (found.map Prod.fst) := by
  induction content using pairs.induct generalizing found with
  | case1 k v rest ih =>
      rw [collectFields_cons_eq_ok, ih, entries_cons]
      simp only [List.map_cons, List.reverse_cons, List.append_assoc, List.cons_append,
        List.nil_append, List.forall_mem_cons, List.nodup_cons, List.disjoint_cons_left,
        List.disjoint_cons_right]
      tauto
  | case2 content hcontent =>
      cases content with
      | nil => simp [collectFields, pure_apply, entries, pairs, eq_comm]
      | cons k rest =>
          cases rest with
          | nil => simp [collectFields, pure_apply, entries, pairs, eq_comm]
          | cons v rest => exact absurd rfl (hcontent k v rest)

theorem collectFields_nil_eq_ok {content : List Nat} :
    g.collectFields keys content [] o = .ok found o' ↔
      found = (g.entries content).reverse ∧ o' = o ∧
      (∀ f ∈ g.entries content, f.1 ∈ keys) ∧ ((g.entries content).map Prod.fst).Nodup := by
  simp [collectFields_eq_ok]

theorem lookup_eq_some_iff_mem (hfs : (fs.map Prod.fst).Nodup) :
    fs.lookup key = some v ↔ (key, v) ∈ fs := by
  constructor
  · intro h
    obtain ⟨before, after, rfl, -⟩ := List.lookup_eq_some_iff.mp h
    simp
  · intro hmem
    obtain ⟨before, after, rfl⟩ := List.append_of_mem hmem
    rw [List.map_append, List.map_cons, List.nodup_append] at hfs
    refine List.lookup_eq_some_iff.mpr ⟨before, after, rfl, fun p hp => ?_⟩
    have hne := hfs.2.2 p.1 (List.mem_map_of_mem hp) key (by simp)
    simpa using hne.symm

/-- The fields that are found are those that are asked for. -/
theorem fields_sound (hkeys : keys.Nodup) (h : g.fields (g.node i) keys o = .ok vs o') :
    (g.node i).kind = .mapping ∧ vs.length = keys.length ∧
      (g.entries (g.node i).content).Perm (keys.zip vs) := by
  by_cases hkind : (g.node i).kind = .mapping
  · simp only [fields, hkind, bne_self_eq_false, Bool.false_eq_true, if_false] at h
    obtain ⟨found, o₁, hfound, h⟩ := bind_eq_ok.mp h
    obtain ⟨rfl, -, hin, hnodup⟩ := collectFields_nil_eq_ok.mp hfound
    obtain ⟨hlength, hall⟩ := mapM_sound h
    have hfst : (keys.zip vs).map Prod.fst = keys := List.map_fst_zip (Nat.le_of_eq hlength.symm)
    have hmem : ∀ f ∈ keys.zip vs, f ∈ g.entries (g.node i).content := by
      intro f hf
      obtain ⟨s₁, s₂, hf⟩ := hall f hf
      cases hlookup : (g.entries (g.node i).content).reverse.lookup f.1 with
      | none =>
          rw [hlookup] at hf
          exact absurd hf refuse_ne_ok
      | some v =>
          rw [hlookup] at hf
          obtain rfl : v = f.2 := (EStateM.Result.ok.inj hf).1
          rw [lookup_eq_some_iff_mem, List.mem_reverse] at hlookup
          · exact hlookup
          · rwa [List.map_reverse, List.nodup_reverse]
    have hkeys' : ((keys.zip vs).map Prod.fst).Nodup := by rwa [hfst]
    refine ⟨hkind, hlength, (List.perm_ext_iff_of_nodup hnodup.of_map hkeys'.of_map).mpr ?_⟩
    intro f
    refine ⟨fun hf => ?_, hmem f⟩
    have hkey := hin f hf
    rw [← hfst] at hkey
    obtain ⟨f', hf', heq⟩ := List.mem_map.mp hkey
    obtain rfl : f' = f := List.inj_on_of_nodup_map hnodup (hmem f' hf') hf heq
    exact hf'
  · simp [fields, hkind, Node.refuse, throw_apply] at h

theorem fields_ok (hkeys : keys.Nodup) (hlength : vs.length = keys.length)
    (h : g.HasFields i (keys.zip vs)) : g.fields (g.node i) keys o = .ok vs o := by
  have hfst : (keys.zip vs).map Prod.fst = keys := List.map_fst_zip (Nat.le_of_eq hlength.symm)
  have hkeysPerm := h.perm.map Prod.fst
  rw [hfst] at hkeysPerm
  have hnodup : ((g.entries (g.node i).content).map Prod.fst).Nodup := hkeysPerm.nodup_iff.mpr hkeys
  have hcollect : g.collectFields keys (g.node i).content [] o =
      .ok (g.entries (g.node i).content).reverse o := by
    refine collectFields_nil_eq_ok.mpr ⟨rfl, rfl, fun f hf => ?_, hnodup⟩
    exact hkeysPerm.mem_iff.mp (List.mem_map_of_mem hf)
  simp only [fields, h.kind, bne_self_eq_false, Bool.false_eq_true, if_false]
  rw [bind_apply, hcollect]
  refine mapM_ok hlength fun p hp => ?_
  have hlookup : (g.entries (g.node i).content).reverse.lookup p.1 = some p.2 := by
    rw [lookup_eq_some_iff_mem, List.mem_reverse, h.perm.mem_iff]
    · exact hp
    · rwa [List.map_reverse, List.nodup_reverse]
  simp only [hlookup]
  rfl

/-! ## Forms -/

theorem bindingName_eq_ok :
    (g.node i).bindingName o = .ok x o' ↔ g.Names i x ∧ o' = o := by
  rw [Node.bindingName]
  split
  · rename_i hbad
    constructor
    · intro h
      exact absurd h refuse_ne_ok
    · rintro ⟨⟨hkind, rfl, hne, hunit⟩, -⟩
      simp [hkind, hne, hunit] at hbad
  · rename_i hgood
    simp only [Bool.or_eq_true, bne_iff_ne, beq_iff_eq, not_or, not_not] at hgood
    obtain ⟨⟨hkind, hne⟩, hunit⟩ := hgood
    constructor
    · intro h
      cases h
      exact ⟨⟨hkind, rfl, hne, hunit⟩, rfl⟩
    · rintro ⟨⟨-, rfl, -, -⟩, rfl⟩
      rfl

theorem Names.bindingName (h : g.Names i x) : (g.node i).bindingName o = .ok x o :=
  bindingName_eq_ok.mpr ⟨h, rfl⟩

theorem expanding_eq_ok {act : DecodeM α} {a : α} :
    expanding i act o = .ok a o' ↔ ∃ o₁, act (i :: o) = .ok a o₁ ∧ o' = o₁.erase i := by
  unfold expanding
  split <;> simp_all [eq_comm]

theorem decodeUpTo_document {child : Nat} (hkind : (g.node i).kind = .document)
    (hcontent : (g.node i).content = [child]) :
    g.decodeUpTo (n + 1) i = g.decodeUpTo n child := by
  rw [decodeUpTo]
  simp only [hkind, hcontent]

theorem decodeUpTo_alias (hkind : (g.node i).kind = .alias)
    (htarget : (g.node i).target = some j) :
    g.decodeUpTo (n + 1) i o = if o.contains j then
        (g.node i).refuse (.recursiveAlias (g.node i).value) o
      else expanding j (g.decodeUpTo n j) o := by
  rw [decodeUpTo]
  simp only [hkind, htarget, bind_apply, get_apply]
  split <;> rfl

theorem decodeUpTo_fun (h : g.IsForm i "fun" v) :
    g.decodeUpTo (n + 1) i = (do
      match ← g.fields (g.node v) ["arg", "body"] with
      | [arg, body] => return .lam (← (g.node arg).bindingName) (← g.decodeUpTo n body)
      | _ => (g.node v).refuse .notMapping) := by
  obtain ⟨hkind, k, hcontent, hkey⟩ := h
  rw [decodeUpTo]
  simp only [hkind, hcontent, hkey]
  rfl

theorem decodeUpTo_call (h : g.IsForm i "call" v) (hv : (g.node v).kind ≠ .sequence) :
    g.decodeUpTo (n + 1) i = (do
      match ← g.fields (g.node v) ["func", "arg"] with
      | [func, arg] => return .call (← g.decodeUpTo n func) (← g.decodeUpTo n arg)
      | _ => (g.node v).refuse .notMapping) := by
  obtain ⟨hkind, k, hcontent, hkey⟩ := h
  rw [decodeUpTo]
  simp only [hkind, hcontent, hkey, beq_eq_false_iff_ne.mpr hv]
  rfl

theorem decodeUpTo_calls (h : g.IsForm i "call" v) (hv : (g.node v).kind = .sequence) :
    g.decodeUpTo (n + 1) i =
      if (g.node v).content.length < 2 then (g.node v).refuse .shortCall
      else (do
        match ← (g.node v).content.mapM (g.decodeUpTo n) with
        | func :: args => return func.calls args
        | [] => (g.node v).refuse .shortCall) := by
  obtain ⟨hkind, k, hcontent, hkey⟩ := h
  rw [decodeUpTo]
  simp only [hkind, hcontent, hkey, hv]
  rfl

theorem decodeUpTo_let (h : g.IsForm i "let" v) :
    g.decodeUpTo (n + 1) i = (do
      match ← g.fields (g.node v) ["var", "value", "body"] with
      | [name, bound, body] =>
        return .letIn (← (g.node name).bindingName) (← g.decodeUpTo n bound)
          (← g.decodeUpTo n body)
      | _ => (g.node v).refuse .notMapping) := by
  obtain ⟨hkind, k, hcontent, hkey⟩ := h
  rw [decodeUpTo]
  simp only [hkind, hcontent, hkey]
  rfl

end Yaml.Graph

end LetPoly
