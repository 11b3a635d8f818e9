/-
**Reading given tokens.**

A step *reads* some tokens before others if it takes just those, reports nothing, and gives a result
that is as it should be.  It may want for fuel; that the fuel of a whole text is enough is known
from elsewhere, so that no count of it is kept here.

Whether a step stops at the right place depends on the token behind: what could go on with an
expression must not be next.

Main definitions:

* `Lox.NotNext` — the next token is of none of the given kinds;
* `Lox.Reads` — **a step reads the given tokens**.

Main results:

* `Lox.Reads.bind`, `Lox.Reads.map` — steps put together;
* `Lox.Reads.expect`, `Lox.Reads.accept`, `Lox.Reads.acceptNone` — the basic steps.
-/

import Lox.Proofs.Grammar.Outcome

set_option relaxedAutoImplicit false
set_option autoImplicit false

namespace Lox

/-! ### The next token -/

/-- The next of the given tokens, if there is one, is of none of the given kinds. -/
def NotNext (ks : List Token.Kind) (ts : List Token) : Prop :=
  ∀ t, ts.head? = some t → t.kind ∉ ks

namespace NotNext

variable {ks ks' : List Token.Kind} {t : Token} {ts us : List Token}

theorem nil (ks : List Token.Kind) : NotNext ks [] := by
  intro t h
  cases h

theorem cons (ht : t.kind ∉ ks) : NotNext ks (t :: ts) := by
  intro t' h
  obtain rfl := Option.some.inj h
  exact ht

theorem mono (h : NotNext ks ts) (hks : ∀ k ∈ ks', k ∈ ks) : NotNext ks' ts :=
  fun t ht hk => h t ht (hks _ hk)

end NotNext

/-! ### Reading -/

/-- The step takes just the tokens `ts` before `rest`, reports nothing and gives a result with the
property `P`, unless it wants for fuel. -/
def Reads {α : Type} (p : Parse α) (ts rest : List Token) (P : α → Prop) : Prop :=
  ∀ c : Cursor, c.rest = ts ++ rest →
    (∃ a id, p c = .ok a { c with rest := rest, nextId := id } ∧ P a) ∨
      ∃ c', p c = .error .outOfFuel c'

namespace Reads

variable {α β : Type} {p : Parse α} {f : α → Parse β} {ts us rest : List Token} {P : α → Prop}
  {Q : β → Prop} {t : Token}

theorem pure {a : α} (ha : P a) : Reads (Pure.pure a) [] rest P :=
  fun c hc => .inl ⟨a, c.nextId, by rw [List.nil_append] at hc; rw [← hc]; rfl, ha⟩

theorem outOfFuel : Reads (throw .outOfFuel : Parse α) ts rest P :=
  fun c _ => .inr ⟨c, rfl⟩

theorem imp {P' : α → Prop} (hp : Reads p ts rest P) (h : ∀ a, P a → P' a) :
    Reads p ts rest P' := by
  intro c hc
  rcases hp c hc with ⟨a, id, hstep, ha⟩ | hstop
  · exact .inl ⟨a, id, hstep, h a ha⟩
  · exact .inr hstop

/-- Steps put together. -/
theorem bind (hp : Reads p ts (us ++ rest) P) (hf : ∀ a, P a → Reads (f a) us rest Q) :
    Reads (p >>= f) (ts ++ us) rest Q := by
  intro c hc
  rw [List.append_assoc] at hc
  rcases hp c hc with ⟨a, id, hstep, ha⟩ | ⟨c', hstep⟩
  · rw [bind_ok hstep]
    exact hf a ha _ rfl
  · exact .inr ⟨c', bind_error hstep⟩

/-- A step with one behind it that takes no tokens. -/
theorem last (hp : Reads p ts rest P) (hf : ∀ a, P a → Reads (f a) [] rest Q) :
    Reads (p >>= f) ts rest Q := by
  have h : Reads (p >>= f) (ts ++ []) rest Q := hp.bind hf
  rw [List.append_nil] at h
  exact h

/-- A step whose result is made into another. -/
theorem map {g : α → β} (hp : Reads p ts rest P) (hg : ∀ a, P a → Q (g a)) :
    Reads (p >>= fun a => Pure.pure (g a)) ts rest Q :=
  hp.last fun a ha => pure (hg a ha)

/-- A step that takes no tokens goes before. -/
theorem before (hp : Reads p [] (ts ++ rest) P) (hf : ∀ a, P a → Reads (f a) ts rest Q) :
    Reads (p >>= f) ts rest Q :=
  hp.bind hf

theorem newReference (name : Token) :
    Reads (Parse.newReference name) [] rest fun ref => ref.name = name :=
  fun c hc => .inl ⟨⟨c.nextId, name⟩, c.nextId + 1,
    by rw [List.nil_append] at hc; rw [← hc]; rfl, rfl⟩

/-! ### Tokens that are taken -/

theorem acceptAny {ks : List Token.Kind} (ht : t.kind ∈ ks) {f : Option Token → Parse β}
    (hf : Reads (f (some t)) ts rest Q) : Reads (Parse.acceptAny ks >>= f) (t :: ts) rest Q := by
  intro c hc
  rcases acceptAny_cases ks c with ⟨t', us, hus, -, hstep⟩ | ⟨hnot, -⟩
  · obtain ⟨rfl, rfl⟩ := List.cons.inj (hus.symm.trans hc)
    rw [bind_ok hstep]
    exact hf _ rfl
  · exact absurd ht (hnot t _ hc)

theorem acceptNone {ks : List Token.Kind} (hnot : NotNext ks (ts ++ rest))
    {f : Option Token → Parse β} (hf : Reads (f none) ts rest Q) :
    Reads (Parse.acceptAny ks >>= f) ts rest Q := by
  intro c hc
  rcases acceptAny_cases ks c with ⟨t, us, hus, ht, -⟩ | ⟨-, hstep⟩
  · exact absurd ht (hnot t (by rw [← hc, hus]; rfl))
  · rw [bind_ok hstep]
    exact hf c hc

theorem accept {k : Token.Kind} (ht : t.kind = k) {f : Option Token → Parse β}
    (hf : Reads (f (some t)) ts rest Q) : Reads (Parse.accept k >>= f) (t :: ts) rest Q :=
  acceptAny (List.mem_singleton.2 ht) hf

theorem expect {e : Expectation} (ht : t.kind = e.kind) {f : Token → Parse β}
    (hf : Reads (f t) ts rest Q) : Reads (Parse.expect e >>= f) (t :: ts) rest Q := by
  intro c hc
  have hstep : Parse.expect e c = .ok t { c with rest := ts ++ rest } := by
    unfold Parse.expect
    rcases accept_cases e.kind c with ⟨t', us, hus, -, hstep⟩ | ⟨hnot, -⟩
    · obtain ⟨rfl, rfl⟩ := List.cons.inj (hus.symm.trans hc)
      rw [bind_ok hstep]
      rfl
    · exact absurd ht (hnot t _ hc)
  rw [bind_ok hstep]
  exact hf _ rfl

/-! ### Choices -/

theorem after {k : Token.Kind} (ht : t.kind = k) (hp : Reads p ts rest P) :
    Reads (Parse.after k p) (t :: ts) rest fun a? => ∃ a, a? = some a ∧ P a :=
  accept ht (hp.map fun a ha => ⟨a, rfl, ha⟩)

theorem afterNone {k : Token.Kind} (hnot : NotNext [k] rest) :
    Reads (Parse.after k p) [] rest fun a? => a? = none :=
  acceptNone hnot (pure rfl)

theorem unlessNext {k : Token.Kind} {absent : α} (hnot : NotNext [k] (ts ++ rest))
    (hp : Reads p ts rest P) : Reads (Parse.unlessNext k absent p) ts rest P := by
  intro c hc
  have hcheck : c.rest.head?.any (fun t => t.kind == k) = false := by
    rw [hc]
    cases hhead : (ts ++ rest).head? with
    | none => rfl
    | some t => simpa using hnot t hhead
  have hstep : Parse.unlessNext k absent p c =
      (if c.rest.head?.any (fun t => t.kind == k) then Pure.pure absent else p : Parse α) c := rfl
  rw [hstep, hcheck]
  exact hp c hc

theorem unlessNextAbsent {k : Token.Kind} {absent : α} {rest : List Token} (ht : t.kind = k)
    (ha : P absent) : Reads (Parse.unlessNext k absent p) [] (t :: rest) P := by
  intro c hc
  have hcheck : c.rest.head?.any (fun t => t.kind == k) = true := by
    rw [hc]
    simpa using ht
  have hstep : Parse.unlessNext k absent p c =
      (if c.rest.head?.any (fun t => t.kind == k) then Pure.pure absent else p : Parse α) c := rfl
  rw [hstep, hcheck]
  exact pure ha c hc

/-- A step that only looks at the tokens. -/
theorem inspect {a : α} (hp : ∀ c : Cursor, c.rest = ts ++ rest → p c = .ok a c)
    (hf : Reads (f a) ts rest Q) : Reads (p >>= f) ts rest Q := by
  intro c hc
  rw [bind_ok (hp c hc)]
  exact hf c hc

theorem reportIf {b : Bool} (problem : Problem) (hb : b = false) {f : Unit → Parse β}
    (hf : Reads (f ()) ts rest Q) : Reads (Parse.reportIf b problem >>= f) ts rest Q := by
  subst hb
  exact before (pure (P := fun _ => True) trivial) fun _ _ => hf

theorem recovering (hp : Reads p ts rest P) :
    Reads (recovering p) ts rest fun a? => ∃ a, a? = some a ∧ P a := by
  intro c hc
  unfold Lox.recovering
  rcases hp c hc with ⟨a, id, hstep, ha⟩ | ⟨c', hstep⟩
  · exact .inl ⟨some a, id, by rw [hstep], a, rfl, ha⟩
  · exact .inr ⟨c', by rw [hstep]⟩

end Reads

end Lox
