/-
**Steps one after the other.**

Parsing, the analysis of scopes and running a program are all steps that carry a state along and may
stop.  What a sequence of steps does from a given state is what its second part does from the state
that the first one leaves, unless the first one stops.

Main definitions:

* `Lox.Gives` — what holds of every result of a step.

Main results:

* `Lox.bind_ok`, `Lox.bind_error` — **a sequence** whose first step gives a result, or stops;
* `Lox.get_bind` — the state at hand.
-/

set_option relaxedAutoImplicit false
set_option autoImplicit false

namespace Lox

variable {ε σ α β : Type} {x : EStateM ε σ α} {f : α → EStateM ε σ β} {s s' : σ}

theorem get_bind (f : σ → EStateM ε σ α) (s : σ) : (get >>= f) s = f s s := rfl

theorem bind_ok {a : α} (hx : x s = .ok a s') : (x >>= f) s = f a s' := by
  change EStateM.bind x f s = _
  rw [EStateM.bind, hx]

theorem bind_error {i : ε} (hx : x s = .error i s') : (x >>= f) s = .error i s' := by
  change EStateM.bind x f s = _
  rw [EStateM.bind, hx]

/-- What holds of **every result** of a step. -/
def Gives (P : α → Prop) (x : EStateM ε σ α) : Prop := ∀ s a s', x s = .ok a s' → P a

namespace Gives

variable {P : α → Prop} {Q : β → Prop}

theorem pure {a : α} (h : P a) : Gives P (Pure.pure a : EStateM ε σ α) := by
  intro s a' s' heq
  cases heq
  exact h

theorem throw (i : ε) : Gives P (throw i : EStateM ε σ α) := by
  intro s a s' heq
  cases heq

theorem bind (hx : Gives P x) (hf : ∀ a, P a → Gives Q (f a)) : Gives Q (x >>= f) := by
  intro s b s' heq
  cases hstep : x s with
  | ok a s₁ =>
    rw [bind_ok hstep] at heq
    exact hf a (hx s a s₁ hstep) s₁ b s' heq
  | error i s₁ =>
    rw [bind_error hstep] at heq
    cases heq

/-- A step before, of whose result nothing has to be known. -/
theorem behind (hf : ∀ a, Gives Q (f a)) : Gives Q (x >>= f) :=
  bind (P := fun _ => True) (fun _ _ _ _ => trivial) fun a _ => hf a

theorem map {g : α → β} (hx : Gives P x) (hg : ∀ a, P a → Q (g a)) : Gives Q (g <$> x) :=
  hx.bind fun a ha => .pure (hg a ha)

end Gives

end Lox
