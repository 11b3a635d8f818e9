/-
**Trees that differ in local names and in braces.**

Two trees are *variants* of each other if they have the same form, except that local variables and
parameters may be called differently and that a statement may stand in a block of its own.  What a
name stands for is a matter of the declarations around it, so the two trees are gone through side by
side, under a pairing that says which name of the one stands for what which name of the other stands
for.  At the top of a program every name is paired with itself; a declaration pairs the two declared
names, and hides what was paired with either of them.

Main definitions:

* `Lox.Pairing`, `Lox.Pairing.bind` — names that stand for the same, and one more pair of them;
* `Lox.Expr.Variant`, `Lox.Stmt.Variant`, `Lox.Routine.Variant`, `Lox.BodyVariant` — **variants**;
* `Lox.Stmt.Congruent` — statements of the same form, whose parts are variants.

Main results:

* `Lox.Pairing.bind_same` — a name that is declared on both sides is paired with itself;
* `Lox.Stmt.Scoped.congruent`, `Lox.bodyScoped.variant` — **a tree is a variant of itself**.
-/

import Mathlib.Data.List.Forall2
import Lox.Proofs.Scope.Scoped
import Lox.Proofs.Token.Respelling

set_option relaxedAutoImplicit false
set_option autoImplicit false

namespace Lox

/-! ### Pairings -/

/-- A **pairing** of the names of one tree with those of another one that stand for the same. -/
abbrev Pairing := String → String → Prop

namespace Pairing

/-- The two names are declared: they are paired with each other, and with nothing else. -/
def bind (Δ : Pairing) (y y' : String) : Pairing := fun a a' =>
  a = y ∧ a' = y' ∨ a ≠ y ∧ a' ≠ y' ∧ Δ a a'

/-- Names are declared one after the other. -/
def bindAll : Pairing → List String → List String → Pairing
  | Δ, y :: ys, y' :: ys' => bindAll (Δ.bind y y') ys ys'
  | Δ, _, _ => Δ

/-- A declaration at a place that is local or not: at the top of a program names are global, and
stand for themselves. -/
def declare (Δ : Pairing) (isLocal : Bool) (y y' : String) : Pairing :=
  if isLocal then Δ.bind y y' else Δ

/-- The names behind two statements. -/
def after (Δ : Pairing) (isLocal : Bool) (s s' : Stmt) : Pairing :=
  match s.declared?, s'.declared? with
  | some name, some name' => Δ.declare isLocal name.lexeme name'.lexeme
  | _, _ => Δ

/-- Every name stands for itself. -/
def same : Pairing := Eq

@[simp] theorem bind_same (y : String) : same.bind y y = same := by
  funext a a'
  simp only [bind, same, eq_iff_iff]
  constructor
  · rintro (⟨rfl, rfl⟩ | ⟨-, -, h⟩)
    · rfl
    · exact h
  · rintro rfl
    by_cases h : a = y
    · exact .inl ⟨h, h⟩
    · exact .inr ⟨h, h, rfl⟩

@[simp] theorem bindAll_same (ys : List String) : same.bindAll ys ys = same := by
  induction ys with
  | nil => rfl
  | cons y ys ih => rw [bindAll, bind_same, ih]

@[simp] theorem declare_same (isLocal : Bool) (y : String) : same.declare isLocal y y = same := by
  cases isLocal with
  | false => rfl
  | true => exact bind_same y

@[simp] theorem after_same (isLocal : Bool) (s : Stmt) : same.after isLocal s s = same := by
  unfold after
  cases s.declared? with
  | none => rfl
  | some name => exact declare_same isLocal name.lexeme

end Pairing

/-! ### Variants -/

/-- References to names that are paired; the tokens differ in nothing else. -/
structure Reference.Variant (Δ : Pairing) (ref ref' : Reference) : Prop where
  paired : Δ ref.name.lexeme ref'.name.lexeme
  token : ref.name.Respells ref'.name

/-- A name that is the same on both sides has the same token. -/
theorem Reference.Variant.name_eq {Δ : Pairing} {ref ref' : Reference} (h : ref.Variant Δ ref')
    (hsame : ref.name.lexeme = ref'.name.lexeme) : ref'.name = ref.name := by
  rw [h.token.eq_respell, ← hsame]
  rfl

/-- Expressions that are **variants** of each other. -/
inductive Expr.Variant (Δ : Pairing) : Expr → Expr → Prop
  | literal (value : Literal) : Variant Δ (.literal value) (.literal value)
  | grouping {e e' : Expr} (he : Variant Δ e e') : Variant Δ (.grouping e) (.grouping e')
  | unary {e e' : Expr} (operator : Token) (he : Variant Δ e e') :
      Variant Δ (.unary operator e) (.unary operator e')
  | binary {l l' r r' : Expr} (hl : Variant Δ l l') (operator : Token) (hr : Variant Δ r r') :
      Variant Δ (.binary l operator r) (.binary l' operator r')
  | logical {l l' r r' : Expr} (hl : Variant Δ l l') (operator : Token) (hr : Variant Δ r r') :
      Variant Δ (.logical l operator r) (.logical l' operator r')
  | variable {ref ref' : Reference} (h : ref.Variant Δ ref') :
      Variant Δ (.variable ref) (.variable ref')
  | assign {ref ref' : Reference} {e e' : Expr} (h : ref.Variant Δ ref') (he : Variant Δ e e') :
      Variant Δ (.assign ref e) (.assign ref' e')
  | call {f f' : Expr} {arguments arguments' : List Expr} (hf : Variant Δ f f') (paren : Token)
      (harguments : List.Forall₂ (Variant Δ) arguments arguments') :
      Variant Δ (.call f paren arguments) (.call f' paren arguments')
  | get {object object' : Expr} (h : Variant Δ object object') (name : Token) :
      Variant Δ (.get object name) (.get object' name)
  | set {object object' e e' : Expr} (h : Variant Δ object object') (name : Token)
      (he : Variant Δ e e') : Variant Δ (.set object name e) (.set object' name e')
  | this (ref : Reference) (h : Δ thisName thisName) : Variant Δ (.this ref) (.this ref)
  | super (ref : Reference) (method : Token) (hsuper : Δ superName superName)
      (hthis : Δ thisName thisName) : Variant Δ (.super ref method) (.super ref method)

/-- Expressions that are variants of each other, or none. -/
abbrev OptionalVariant (Δ : Pairing) : Option Expr → Option Expr → Prop :=
  Option.Rel (Expr.Variant Δ)

mutual

/-- Statements that are **variants** of each other, at a place that is local or not.  Unless a
statement declares something, it may stand in a block of its own, if such `braces` are allowed. -/
inductive Stmt.Variant (braces : Prop) : Bool → Pairing → Stmt → Stmt → Prop
  | congruent {isLocal : Bool} {Δ : Pairing} {s s' : Stmt}
      (h : Stmt.Congruent braces isLocal Δ s s') : Stmt.Variant braces isLocal Δ s s'
  | braced {isLocal : Bool} {Δ : Pairing} {s s' : Stmt} (hbraces : braces)
      (hd : s.declared? = none) (hd' : s'.declared? = none)
      (h : Stmt.Congruent braces isLocal Δ s s') : Stmt.Variant braces isLocal Δ s (.block [s'])

/-- Statements of the same form, whose parts are variants of each other. -/
inductive Stmt.Congruent (braces : Prop) : Bool → Pairing → Stmt → Stmt → Prop
  | expression {isLocal : Bool} {Δ : Pairing} {e e' : Expr} (he : e.Variant Δ e') :
      Stmt.Congruent braces isLocal Δ (.expression e) (.expression e')
  | print {isLocal : Bool} {Δ : Pairing} {e e' : Expr} (he : e.Variant Δ e') :
      Stmt.Congruent braces isLocal Δ (.print e) (.print e')
  | var {isLocal : Bool} {Δ : Pairing} {name name' : Token} {e? e'? : Option Expr}
      (htoken : name.Respells name') (hname : isLocal = false → name.lexeme = name'.lexeme)
      (he : OptionalVariant (Δ.declare isLocal name.lexeme name'.lexeme) e? e'?) :
      Stmt.Congruent braces isLocal Δ (.var name e?) (.var name' e'?)
  | block {isLocal : Bool} {Δ : Pairing} {body body' : List Stmt}
      (h : BodyVariant braces true Δ body body') :
      Stmt.Congruent braces isLocal Δ (.block body) (.block body')
  | cond {isLocal : Bool} {Δ : Pairing} {c c' : Expr} {t t' : Stmt} (hc : c.Variant Δ c')
      (ht : Stmt.Variant braces isLocal Δ t t') (hd : t.declared? = none) :
      Stmt.Congruent braces isLocal Δ (.cond c t none) (.cond c' t' none)
  | condElse {isLocal : Bool} {Δ : Pairing} {c c' : Expr} {t t' s s' : Stmt} (hc : c.Variant Δ c')
      (ht : Stmt.Variant braces isLocal Δ t t') (hd : t.declared? = none)
      (hs : Stmt.Variant braces isLocal Δ s s') (hd' : s.declared? = none) :
      Stmt.Congruent braces isLocal Δ (.cond c t (some s)) (.cond c' t' (some s'))
  | loop {isLocal : Bool} {Δ : Pairing} {c c' : Expr} {s s' : Stmt} (hc : c.Variant Δ c')
      (hs : Stmt.Variant braces isLocal Δ s s') (hd : s.declared? = none) :
      Stmt.Congruent braces isLocal Δ (.loop c s) (.loop c' s')
  | function {isLocal : Bool} {Δ : Pairing} {r r' : Routine}
      (h : Routine.Variant braces (Δ.declare isLocal r.name.lexeme r.name.lexeme) r r') :
      Stmt.Congruent braces isLocal Δ (.function r) (.function r')
  | ret {isLocal : Bool} {Δ : Pairing} (keyword : Token) {e? e'? : Option Expr}
      (he : OptionalVariant Δ e? e'?) :
      Stmt.Congruent braces isLocal Δ (.ret keyword e?) (.ret keyword e'?)
  | base {isLocal : Bool} {Δ : Pairing} (name : Token) {methods methods' : List Routine}
      (h : MethodsVariant braces
        ((Δ.declare isLocal name.lexeme name.lexeme).bind thisName thisName) methods methods') :
      Stmt.Congruent braces isLocal Δ (.classDecl name none methods) (.classDecl name none methods')
  | derived {isLocal : Bool} {Δ : Pairing} (name : Token) {ref ref' : Reference}
      {methods methods' : List Routine}
      (href : ref.Variant (Δ.declare isLocal name.lexeme name.lexeme) ref')
      (h : MethodsVariant braces (((Δ.declare isLocal name.lexeme name.lexeme).bind
        superName superName).bind thisName thisName) methods methods') :
      Stmt.Congruent braces isLocal Δ (.classDecl name (some ref) methods)
        (.classDecl name (some ref') methods')

/-- Declared bodies of the same name that are **variants** of each other. -/
inductive Routine.Variant (braces : Prop) : Pairing → Routine → Routine → Prop
  | mk {Δ : Pairing} (name : Token) {params params' : List Token} {body body' : List Stmt}
      (hparams : List.Forall₂ Token.Respells params params')
      (hbody : BodyVariant braces true
        (Δ.bindAll (params.map (·.lexeme)) (params'.map (·.lexeme))) body body') :
      Routine.Variant braces Δ (.mk name params body) (.mk name params' body')

/-- Statements one after the other that are **variants** of each other. -/
inductive BodyVariant (braces : Prop) : Bool → Pairing → List Stmt → List Stmt → Prop
  | nil {isLocal : Bool} {Δ : Pairing} : BodyVariant braces isLocal Δ [] []
  | cons {isLocal : Bool} {Δ : Pairing} {s s' : Stmt} {ss ss' : List Stmt}
      (hs : Stmt.Variant braces isLocal Δ s s')
      (hss : BodyVariant braces isLocal (Δ.after isLocal s s') ss ss') :
      BodyVariant braces isLocal Δ (s :: ss) (s' :: ss')

/-- Methods that are variants of each other. -/
inductive MethodsVariant (braces : Prop) : Pairing → List Routine → List Routine → Prop
  | nil {Δ : Pairing} : MethodsVariant braces Δ [] []
  | cons {Δ : Pairing} {m m' : Routine} {ms ms' : List Routine}
      (hm : Routine.Variant braces Δ m m') (hms : MethodsVariant braces Δ ms ms') :
      MethodsVariant braces Δ (m :: ms) (m' :: ms')

end

section

variable {braces : Prop} {isLocal : Bool} {Δ : Pairing}

theorem Routine.Variant.name_eq {r r' : Routine} (h : Routine.Variant braces Δ r r') :
    r'.name = r.name := by
  cases h
  rfl

theorem Routine.Variant.params_length_eq {r r' : Routine} (h : Routine.Variant braces Δ r r') :
    r'.params.length = r.params.length := by
  cases h with
  | mk name hparams _ => exact hparams.length_eq.symm

end

/-! ### A tree beside itself -/

theorem Reference.Variant.refl (ref : Reference) : ref.Variant .same ref := ⟨rfl, .same _⟩

section

variable {L : Ledger}

mutual

/-- An expression is a variant of itself. -/
theorem Expr.Scoped.variant {Γ : Scopes} : ∀ e : Expr, e.Scoped L Γ → e.Variant .same e
  | .literal value, _ => .literal value
  | .grouping e, he => .grouping (Expr.Scoped.variant e he)
  | .unary operator e, ⟨_, he⟩ => .unary operator (Expr.Scoped.variant e he)
  | .binary l operator r, ⟨_, hl, hr⟩ =>
    .binary (Expr.Scoped.variant l hl) operator (Expr.Scoped.variant r hr)
  | .logical l operator r, ⟨hl, hr⟩ =>
    .logical (Expr.Scoped.variant l hl) operator (Expr.Scoped.variant r hr)
  | .variable ref, _ => .variable (.refl ref)
  | .assign ref e, ⟨_, he⟩ => .assign (.refl ref) (Expr.Scoped.variant e he)
  | .call f paren arguments, ⟨hf, harguments⟩ =>
    .call (Expr.Scoped.variant f hf) paren (argumentsScoped.variant arguments harguments)
  | .get object name, h => .get (Expr.Scoped.variant object h) name
  | .set object name e, ⟨h, he⟩ =>
    .set (Expr.Scoped.variant object h) name (Expr.Scoped.variant e he)
  | .this ref, _ => .this ref rfl
  | .super ref method, _ => .super ref method rfl rfl

theorem argumentsScoped.variant {Γ : Scopes} : ∀ es : List Expr, argumentsScoped L Γ es →
    List.Forall₂ (Expr.Variant .same) es es
  | [], _ => .nil
  | e :: es, ⟨he, hes⟩ => .cons (Expr.Scoped.variant e he) (argumentsScoped.variant es hes)

end

theorem optionalScoped.variant {Γ : Scopes} (e? : Option Expr) (h : optionalScoped L Γ e?) :
    OptionalVariant .same e? e? := by
  cases e? with
  | none => exact .none
  | some e => exact .some (Expr.Scoped.variant e h)

variable {braces : Prop}

mutual

/-- **A statement is a variant of itself**, with no braces but its own. -/
theorem Stmt.Scoped.congruent {inBody isLocal : Bool} {Γ : Scopes} : ∀ s : Stmt,
    s.Scoped L inBody Γ → Stmt.Congruent braces isLocal .same s s
  | .expression e, he => .expression (Expr.Scoped.variant e he)
  | .print e, he => .print (Expr.Scoped.variant e he)
  | .var name e?, ⟨_, he⟩ => .var (.same name) (fun _ => rfl) (by
    rw [Pairing.declare_same]
    exact optionalScoped.variant e? he)
  | .block body, h => .block (bodyScoped.variant body h)
  | .cond c t none, ⟨hc, hd, ht⟩ =>
    .cond (Expr.Scoped.variant c hc) (.congruent (Stmt.Scoped.congruent t ht)) hd
  | .cond c t (some s), ⟨hc, ⟨hd, ht⟩, hd', hs⟩ =>
    .condElse (Expr.Scoped.variant c hc) (.congruent (Stmt.Scoped.congruent t ht)) hd
      (.congruent (Stmt.Scoped.congruent s hs)) hd'
  | .loop c body, ⟨hc, hd, hb⟩ =>
    .loop (Expr.Scoped.variant c hc) (.congruent (Stmt.Scoped.congruent body hb)) hd
  | .function r, ⟨_, hr⟩ => .function (by
    rw [Pairing.declare_same]
    exact Routine.Scoped.variant r hr)
  | .ret keyword e?, ⟨_, he⟩ => .ret keyword (optionalScoped.variant e? he)
  | .classDecl name none methods, ⟨_, hms⟩ => .base name (by
    rw [Pairing.declare_same, Pairing.bind_same]
    exact methodsScoped.variant methods hms)
  | .classDecl name (some ref) methods, ⟨_, _, hms⟩ => .derived name
    (by
      rw [Pairing.declare_same]
      exact .refl ref)
    (by
      rw [Pairing.declare_same, Pairing.bind_same, Pairing.bind_same]
      exact methodsScoped.variant methods hms)

/-- A declared body is a variant of itself. -/
theorem Routine.Scoped.variant {Γ : Scopes} : ∀ r : Routine, r.Scoped L Γ →
    Routine.Variant braces .same r r
  | .mk name params body, ⟨_, _, hb⟩ => .mk name (respells_refl params) (by
    rw [Pairing.bindAll_same]
    exact bodyScoped.variant body hb)

/-- Statements one after the other are variants of themselves. -/
theorem bodyScoped.variant {inBody isLocal : Bool} {Γ : Scopes} : ∀ ss : List Stmt,
    bodyScoped L inBody Γ ss → BodyVariant braces isLocal .same ss ss
  | [], _ => .nil
  | s :: ss, ⟨hs, hss⟩ => .cons (.congruent (Stmt.Scoped.congruent s hs)) (by
    rw [Pairing.after_same]
    exact bodyScoped.variant ss hss)

theorem methodsScoped.variant {Γ : Scopes} : ∀ ms : List Routine, methodsScoped L Γ ms →
    MethodsVariant braces .same ms ms
  | [], _ => .nil
  | m :: ms, ⟨hm, hms⟩ => .cons (Routine.Scoped.variant m hm) (methodsScoped.variant ms hms)

end

end

end Lox
