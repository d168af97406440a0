/-! # Running computations -/

namespace LetPoly

variable {ε σ α β : Type}

theorem bind_apply (x : EStateM ε σ α) (f : α → EStateM ε σ β) (s : σ) :
    (x >>= f) s = match x s with
      | .ok a s' => f a s'
      | .error e s' => .error e s' := by
  cases h : x s <;> simp [bind, EStateM.bind, h]

theorem bind_eq_ok {x : EStateM ε σ α} {f : α → EStateM ε σ β} {s s'' : σ} {b : β} :
    (x >>= f) s = .ok b s'' ↔ ∃ a s', x s = .ok a s' ∧ f a s' = .ok b s'' := by
  rw [bind_apply]
  cases x s with
  | error e s' => simp
  | ok a s' =>
      constructor
      · intro h
        exact ⟨a, s', rfl, h⟩
      · rintro ⟨_, _, ⟨⟩, h⟩
        exact h

theorem pure_apply (a : α) (s : σ) : (pure a : EStateM ε σ α) s = .ok a s := rfl

theorem throw_apply (e : ε) (s : σ) : (throw e : EStateM ε σ α) s = .error e s := rfl

theorem get_apply (s : σ) : (get : EStateM ε σ σ) s = .ok s s := rfl

theorem set_apply (s s' : σ) : (set s' : EStateM ε σ PUnit) s = .ok ⟨⟩ s' := rfl

theorem ite_run (c : Prop) [Decidable c] (x y : EStateM ε σ α) (s : σ) :
    (if c then x else y) s = if c then x s else y s := by
  split <;> rfl

/-- The state that a computation leaves, however it ends. -/
def leaves : EStateM.Result ε σ α → σ
  | .ok _ s => s
  | .error _ s => s

/-- Whatever state the computation starts in, it leaves one that stands in the relation to it. -/
def Keeps (R : σ → σ → Prop) (x : EStateM ε σ α) : Prop :=
  ∀ s, R s (leaves (x s))

namespace Keeps

variable {R : σ → σ → Prop} [Std.Refl R] {x : EStateM ε σ α} {f : α → EStateM ε σ β}

theorem pure (a : α) : Keeps R (pure a : EStateM ε σ α) :=
  fun s => Std.Refl.refl s

theorem throw (e : ε) : Keeps R (throw e : EStateM ε σ α) :=
  fun s => Std.Refl.refl s

/-- What a computation leaves stands in the relation to what its first part leaves. -/
theorem bind_right (hf : ∀ a, Keeps R (f a)) (s : σ) :
    R (leaves (x s)) (leaves ((x >>= f) s)) := by
  rw [bind_apply]
  cases x s with
  | ok a s' => exact hf a s'
  | error e s' => exact Std.Refl.refl s'

theorem bind [Trans R R R] (hx : Keeps R x) (hf : ∀ a, Keeps R (f a)) : Keeps R (x >>= f) :=
  fun s => Trans.trans (hx s) (bind_right hf s)

end Keeps

/-! ## Two computations side by side -/

section Pairs

variable {ε' σ' α' β' : Type} {R : α → σ → α' → σ' → Prop} {E : ε → σ → ε' → σ' → Prop}

/-- Both computations end well, with results in the first relation, or both stop, for reasons in the
second. -/
inductive InStep (R : α → σ → α' → σ' → Prop) (E : ε → σ → ε' → σ' → Prop) :
    EStateM.Result ε σ α → EStateM.Result ε' σ' α' → Prop where
  | ok {a : α} {s : σ} {a' : α'} {s' : σ'} (h : R a s a' s') : InStep R E (.ok a s) (.ok a' s')
  | error {e : ε} {s : σ} {e' : ε'} {s' : σ'} (h : E e s e' s') :
      InStep R E (.error e s) (.error e' s')

theorem InStep.ok_iff {x : EStateM.Result ε σ α} {x' : EStateM.Result ε' σ' α'}
    (h : InStep R E x x') : (∃ a s, x = .ok a s) ↔ ∃ a s, x' = .ok a s := by
  cases h with
  | ok h => exact ⟨fun _ => ⟨_, _, rfl⟩, fun _ => ⟨_, _, rfl⟩⟩
  | error h => exact ⟨nofun, nofun⟩

theorem InStep.imp {R' : α → σ → α' → σ' → Prop} {x : EStateM.Result ε σ α}
    {x' : EStateM.Result ε' σ' α'} (h : InStep R E x x')
    (hR : ∀ a s a' s', R a s a' s' → R' a s a' s') : InStep R' E x x' := by
  cases h with
  | ok h => exact .ok (hR _ _ _ _ h)
  | error h => exact .error h

/-- Computations stay in step if what follows each of them does. -/
theorem InStep.bind {T : β → σ → β' → σ' → Prop} {x : EStateM ε σ α} {x' : EStateM ε' σ' α'}
    {f : α → EStateM ε σ β} {f' : α' → EStateM ε' σ' β'} {s : σ} {s' : σ'}
    (hx : InStep R E (x s) (x' s'))
    (hf : ∀ a s₁ a' s₁', x s = .ok a s₁ → x' s' = .ok a' s₁' → R a s₁ a' s₁' →
      InStep T E (f a s₁) (f' a' s₁')) :
    InStep T E ((x >>= f) s) ((x' >>= f') s') := by
  rw [bind_apply, bind_apply]
  generalize hrun : x s = r at hx
  generalize hrun' : x' s' = r' at hx
  cases hx with
  | ok h => exact hf _ _ _ _ hrun hrun' h
  | error h => exact .error h

end Pairs

end LetPoly
