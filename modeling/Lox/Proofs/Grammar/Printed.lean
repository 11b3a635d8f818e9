/-
**Printed trees are told apart.**

What the parser gives for the tokens of a text is readable: the tokens are genuine, the grammar puts
them in their places, and the number that a text denotes has no sign and is no NaN.  Only a string,
which is printed without its quotes, and a number out of range, which is printed like a name, can be
mistaken.  Without these, a printed form belongs to one tree.

Main definitions:

* `Lox.Expr.literals` — the literals of an expression;
* `Lox.Literal.isDistinct` — **literals that are not mistaken** for anything else;
* `Lox.Expr.ParsedFrom` — the expression that the parser gives for a text.

Main results:

* `Lox.Grammar.Derives.readable` — expressions of the grammar are **readable**;
* `Lox.printed_once` — **one printed form, one tree**.
-/

import Lox.Proofs.Grammar.Proper
import Lox.Proofs.Tree.Readable

set_option relaxedAutoImplicit false
set_option autoImplicit false

namespace Lox

/-! ### Literals -/

mutual

/-- The literals of an expression, in the order of the text. -/
def Expr.literals : Expr → List Literal
  | .literal v => [v]
  | .grouping e => e.literals
  | .unary _ e => e.literals
  | .binary l _ r => l.literals ++ r.literals
  | .logical l _ r => l.literals ++ r.literals
  | .variable _ => []
  | .assign _ e => e.literals
  | .call f _ as => f.literals ++ literalsOfArguments as
  | .get o _ => o.literals
  | .set o _ v => o.literals ++ v.literals
  | .this _ => []
  | .super .. => []
  | .hole _ => []

/-- The literals of a list of arguments. -/
def literalsOfArguments : List Expr → List Literal
  | [] => []
  | e :: es => e.literals ++ literalsOfArguments es

end

theorem mem_literalsOfArguments {es : List Expr} {e : Expr} (he : e ∈ es) {v : Literal}
    (hv : v ∈ e.literals) : v ∈ literalsOfArguments es := by
  induction es with
  | nil => cases he
  | cons e' es ih =>
    rcases List.mem_cons.1 he with rfl | he
    · exact List.mem_append_left _ hv
    · exact List.mem_append_right _ (ih he)

theorem literals_join (r : Grammar.Rank) (left : Expr) (t : Token) (right : Expr) :
    (r.join left t right).literals = left.literals ++ right.literals := by
  cases r <;> rfl

/-- Literals that are **not mistaken** for anything else where they are printed: no string, and no
number out of range. -/
def Literal.isDistinct : Literal → Bool
  | .string _ => false
  | .number x => !x.isInfinite
  | _ => true

/-! ### Numbers that are read -/

theorem Decimal.magnitude_le (d : Decimal) : d.magnitude ≤ Number.infinityBits :=
  Nat.min_le_right ..

/-- The number that a decimal denotes has **no sign**, and is no NaN. -/
theorem Decimal.toNumber_sign (d : Decimal) :
    d.toNumber.isNegative = false ∧ d.toNumber.isNaN = false := by
  have hlt : d.magnitude < signWeight := d.magnitude_le.trans_lt (by decide)
  refine ⟨Number.isNegative_ofMagnitude false hlt, ?_⟩
  rw [Number.isNaN, toNumber, Number.magnitude_ofMagnitude false hlt]
  exact decide_eq_false (Nat.not_lt.2 d.magnitude_le)

/-! ### Expressions of the grammar are readable -/

namespace Grammar

/-- The expressions of the grammar are **readable**, if their tokens are genuine and their literals
distinct. -/
theorem Derives.readable {r : Rank} {ts : List Token} {e : Expr} (h : Derives r ts e)
    (hgenuine : ∀ t ∈ ts, t.Genuine) (hdistinct : ∀ v ∈ e.literals, v.isDistinct = true) :
    e.Readable := by
  induction h with
  | tighter hr he ih => exact ih hgenuine hdistinct
  | assign hname hequals hvalue ih =>
    exact .assign ⟨hgenuine _ (by simp), hname⟩
      (ih (fun t ht => hgenuine t (by simp [ht])) hdistinct)
  | set hobject hdot hname hequals hvalue ihobject ihvalue =>
    exact .set
      (ihobject (fun t ht => hgenuine t (by simp [ht]))
        fun v hv => hdistinct v (List.mem_append_left _ hv))
      ⟨hgenuine _ (by simp), hname⟩
      (ihvalue (fun t ht => hgenuine t (by simp [ht]))
        fun v hv => hdistinct v (List.mem_append_right _ hv))
  | operator hr hleft ht hright ihleft ihright =>
    rw [literals_join] at hdistinct
    exact .operator (hgenuine _ (by simp)) ht
      (ihleft (fun t ht => hgenuine t (by simp [ht]))
        fun v hv => hdistinct v (List.mem_append_left _ hv))
      (ihright (fun t ht => hgenuine t (by simp [ht]))
        fun v hv => hdistinct v (List.mem_append_right _ hv))
  | unary ht he ih =>
    exact .unary (hgenuine _ (by simp)) ht (ih (fun t ht => hgenuine t (by simp [ht])) hdistinct)
  | call hcallee hopening hcommas harguments hlength hclosing ihcallee iharguments =>
    refine .call
      (ihcallee (fun t ht => hgenuine t (by simp [ht]))
        fun v hv => hdistinct v (List.mem_append_left _ hv))
      ⟨hgenuine _ (by simp), hclosing⟩ fun e he => ?_
    obtain ⟨a, ha, rfl⟩ := List.mem_map.1 he
    refine iharguments a ha (fun t ht => hgenuine t ?_) fun v hv => ?_
    · simp [hcommas.mem (List.mem_map_of_mem ha) ht]
    · exact hdistinct v (List.mem_append_right _ (mem_literalsOfArguments he hv))
  | get hobject hdot hname ih =>
    exact .get (ih (fun t ht => hgenuine t (by simp [ht])) hdistinct) ⟨hgenuine _ (by simp), hname⟩
  | false_ ht => exact .bool false
  | true_ ht => exact .bool true
  | nil ht => exact .nil
  | @literal t ht =>
    have hvalue := (hgenuine t (by simp)).value
    have hliteral := hdistinct t.literal (List.mem_singleton_self _)
    rcases ht with ht | ht
    · rw [ht, Token.Kind.valueOf] at hvalue
      rw [Token.literal, hvalue] at hliteral ⊢
      obtain ⟨hsign, hnan⟩ := Decimal.toNumber_sign _
      rw [Literal.isDistinct, Bool.not_eq_true'] at hliteral
      exact .number (Number.isFinite_iff.2 ⟨hnan, hliteral⟩) hsign
    · rw [ht, Token.Kind.valueOf] at hvalue
      rw [Token.literal, hvalue] at hliteral
      cases hliteral
  | name ht => exact .name ⟨hgenuine _ (by simp), ht⟩
  | this ht => exact .this ⟨hgenuine _ (by simp), ht⟩
  | super ht hdot hmethod => exact .super ⟨hgenuine _ (by simp), ht⟩ ⟨hgenuine _ (by simp), hmethod⟩
  | grouping hopening hinner hclosing ih =>
    exact .grouping (ih (fun t ht => hgenuine t (by simp [ht])) hdistinct)

end Grammar

/-! ### One printed form, one tree -/

/-- The expression that **the parser gives for a text**, in which it finds nothing wrong. -/
def Expr.ParsedFrom (source : String) (e : Expr) : Prop :=
  ∃ (endMark : Token) (id : NodeId),
    (parseExpression (scan source.toList).tokens endMark id).findings = [] ∧
      (parseExpression (scan source.toList).tokens endMark id).tree = some e

theorem Expr.ParsedFrom.readable {source : String} {e : Expr} (h : e.ParsedFrom source)
    (hdistinct : ∀ v ∈ e.literals, v.isDistinct = true) : e.Readable := by
  obtain ⟨endMark, id, hfindings, htree⟩ := h
  obtain ⟨e', htree', hderived, -⟩ := (parseExpression_sound _ endMark id).2 hfindings
  obtain rfl := Option.some.inj (htree.symm.trans htree')
  exact hderived.readable (scan_genuine _) hdistinct

/-- **One printed form, one tree.**  An expression that is parsed from a text, and holds no string
literal and no number out of range, has a printed form.  If two such expressions have the same one,
they are the same tree: the same kinds of nodes, with the same operators, names, values and
arguments, in the same order; only the lines of tokens and the numbers of references may differ. -/
theorem printed_once {source source' : String} {e e' : Expr} (h : e.ParsedFrom source)
    (h' : e'.ParsedFrom source') (hdistinct : ∀ v ∈ e.literals, v.isDistinct = true)
    (hdistinct' : ∀ v ∈ e'.literals, v.isDistinct = true) :
    (∃ shown, e.render = .ok shown) ∧
      (e.render = e'.render → e.relabel .bare = e'.relabel .bare) :=
  ⟨⟨_, (h.readable hdistinct).render_eq.2⟩,
    (h.readable hdistinct).eq_of_render (h'.readable hdistinct')⟩

/-- A property that is assigned a difference: once on one line, and once on three, with a comment
and with a number that is spelled otherwise. -/
theorem printed_once_lines :
    ∃ e e' : Expr,
      e.ParsedFrom "a.call = group(-1.5, this) - super.m" ∧
      e'.ParsedFrom "a\n.call = // a property\ngroup(-1.50,this)-super.m" ∧
      (∀ v ∈ e.literals, v.isDistinct = true) ∧ (∀ v ∈ e'.literals, v.isDistinct = true) ∧
      e.render = .ok "(= (. a call) (- (call group (- 1.5) this) (super m)))" ∧
      e.render = e'.render ∧ e.relabel .bare = e'.relabel .bare := by
  let parsed (source : String) := (parseExpression (scan source.toList).tokens (.endMark 1) 0)
  have hparsed : ∀ source, (parsed source).findings = [] → (parsed source).tree.isSome = true →
      ∃ e, (parsed source).tree = some e ∧ e.ParsedFrom source := by
    intro source hfindings htree
    obtain ⟨e, he⟩ := Option.isSome_iff_exists.1 htree
    exact ⟨e, he, .endMark 1, 0, hfindings, he⟩
  obtain ⟨e, htree, he⟩ := hparsed "a.call = group(-1.5, this) - super.m"
    (by decide +kernel) (by decide +kernel)
  obtain ⟨e', htree', he'⟩ := hparsed "a\n.call = // a property\ngroup(-1.50,this)-super.m"
    (by decide +kernel) (by decide +kernel)
  have hshown : ∀ source shown (e : Expr), (parsed source).tree = some e →
      ((parsed source).tree.any fun e =>
        e.literals.all Literal.isDistinct && (e.render == .ok shown)) = true →
      (∀ v ∈ e.literals, v.isDistinct = true) ∧ e.render = .ok shown := by
    intro source shown e htree h
    rw [htree] at h
    simpa using h
  obtain ⟨hdistinct, hrender⟩ := hshown _
    "(= (. a call) (- (call group (- 1.5) this) (super m)))" e htree (by decide +kernel)
  obtain ⟨hdistinct', hrender'⟩ := hshown _
    "(= (. a call) (- (call group (- 1.5) this) (super m)))" e' htree' (by decide +kernel)
  have hsame : e.render = e'.render := hrender.trans hrender'.symm
  exact ⟨e, e', he, he', hdistinct, hdistinct', hrender, hsame,
    (printed_once he he' hdistinct hdistinct').2 hsame⟩

end Lox
