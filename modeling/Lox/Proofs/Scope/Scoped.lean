/-
**Trees whose references are settled.**

A place of a tree lies inside a number of local scopes, each of which holds the names declared in
it so far.  A tree is *scoped* at such a place when the table of distances says of every reference
where its name is held: at the distance of the nearest scope that holds it, or nowhere when the
name is global.  Scoped trees obey the rules about declarations, `this`, `super` and `return`, have
no holes, declare nothing in a branch or as the whole body of a loop, and use every operator where
it belongs.

Main definitions:

* `Lox.Scopes`, `Lox.Scopes.nearest?`, `Lox.Scopes.mark` — the scopes around a place, **the nearest
  one that holds a name**, and a name put into the innermost one;
* `Lox.Ledger` — the distances of all trees so far, and which names may be declared how deep;
* `Lox.Expr.Scoped`, `Lox.Stmt.Scoped`, `Lox.Routine.Scoped` — **scoped trees**.

Main results:

* `Lox.Scopes.map_fst_nearest?` — the distance of the nearest scope is the one that the analysis of
  scopes records;
* `Lox.Expr.Scoped.mono`, `Lox.Stmt.Scoped.mono` — a tree stays scoped when distances of other trees
  are added;
* `Lox.Expr.Scoped.bounded`, `Lox.Stmt.Scoped.bounded` — the numbers of its references are known.
-/

import Lox.Scope.Distance
import Lox.Tree.Parser.Expression

set_option relaxedAutoImplicit false
set_option autoImplicit false

namespace Lox

/-! ### The scopes around a place -/

/-- The local scopes around a place, the innermost first. -/
abbrev Scopes := List (Bindings Readiness)

namespace Scopes

/-- The **nearest scope** that holds a name: how far it is, and whether the name has a value. -/
def nearest? : Scopes → String → Option (Nat × Readiness)
  | [], _ => none
  | scope :: outer, x =>
    match scope.get? x with
    | some state => some (0, state)
    | none => (nearest? outer x).map fun found => (found.1 + 1, found.2)

/-- Puts a name into the innermost scope; there is none at the top of a program. -/
def mark : Scopes → String → Readiness → Scopes
  | [], _, _ => []
  | scope :: outer, x, state => scope.set x state :: outer

@[simp] theorem mark_cons (scope : Bindings Readiness) (outer : Scopes) (x : String)
    (state : Readiness) : mark (scope :: outer) x state = scope.set x state :: outer := rfl

@[simp] theorem length_mark (Γ : Scopes) (x : String) (state : Readiness) :
    (Γ.mark x state).length = Γ.length := by
  cases Γ <;> rfl

@[simp] theorem mark_mark (Γ : Scopes) (x : String) (s t : Readiness) :
    (Γ.mark x s).mark x t = Γ.mark x t := by
  cases Γ with
  | nil => rfl
  | cons scope outer => simp

theorem nearest?_cons_of_get? {scope : Bindings Readiness} {x : String} {state : Readiness}
    (outer : Scopes) (h : scope.get? x = some state) :
    nearest? (scope :: outer) x = some (0, state) := by
  simp [nearest?, h]

theorem nearest?_cons_of_none {scope : Bindings Readiness} {x : String} (outer : Scopes)
    (h : scope.get? x = none) :
    nearest? (scope :: outer) x = (nearest? outer x).map fun found => (found.1 + 1, found.2) := by
  simp [nearest?, h]

/-- A name is looked up as before after another one is put into the innermost scope. -/
theorem nearest?_mark_of_ne (Γ : Scopes) {x y : String} (state : Readiness) (h : y ≠ x) :
    (Γ.mark x state).nearest? y = Γ.nearest? y := by
  cases Γ with
  | nil => rfl
  | cons scope outer => simp [nearest?, Bindings.get?_set, h]

/-- The distance of the nearest scope is the index of the first one that holds the name. -/
theorem map_fst_nearest? (Γ : Scopes) (x : String) :
    (Γ.nearest? x).map Prod.fst = Γ.findIdx? fun scope => scope.binds x := by
  induction Γ with
  | nil => rfl
  | cons scope outer ih =>
    rw [List.findIdx?_cons, ← ih]
    cases h : scope.get? x with
    | some state => simp [nearest?, Bindings.binds, h]
    | none => simp [nearest?, Bindings.binds, h, Function.comp_def]

end Scopes

/-! ### Ledgers -/

/-- A name that is not one of the two that methods bind by themselves. -/
def IsPlain (x : String) : Prop := x ≠ thisName ∧ x ≠ superName

instance (x : String) : Decidable (IsPlain x) := inferInstanceAs (Decidable (_ ∧ _))

/-- What is known of all trees so far: the distances of their references, a bound on the numbers of
these, and which names may be declared inside how many scopes. -/
structure Ledger where
  distances : Distances
  bound : NodeId
  mayDeclare : Nat → String → Prop

namespace Ledger

/-- A reference of a known tree has the given distance. -/
def Records (L : Ledger) (ref : Reference) (d : Option Nat) : Prop :=
  ref.id < L.bound ∧ L.distances[ref.id]? = d

/-- One ledger goes on from another: what is known stays as it is. -/
structure Extends (L L' : Ledger) : Prop where
  bound_le : L.bound ≤ L'.bound
  distances_eq : ∀ id, id < L.bound → L'.distances[id]? = L.distances[id]?
  mayDeclare_of : ∀ depth x, L.mayDeclare depth x → L'.mayDeclare depth x

theorem Extends.refl (L : Ledger) : L.Extends L :=
  ⟨Nat.le_refl _, fun _ _ => rfl, fun _ _ hm => hm⟩

theorem Extends.records {L L' : Ledger} (h : L.Extends L') {ref : Reference} {d : Option Nat}
    (hr : L.Records ref d) : L'.Records ref d := by
  obtain ⟨hlt, hd⟩ := hr
  exact ⟨Nat.lt_of_lt_of_le hlt h.bound_le, by rw [h.distances_eq _ hlt, hd]⟩

/-- A name may be declared in the innermost of the given scopes: it is not held there yet. -/
def Declares (L : Ledger) (Γ : Scopes) (name : Token) : Prop :=
  IsPlain name.lexeme ∧ ∀ scope outer, Γ = scope :: outer →
    scope.get? name.lexeme = none ∧ L.mayDeclare Γ.length name.lexeme

theorem Extends.declares {L L' : Ledger} (h : L.Extends L') {Γ : Scopes} {name : Token}
    (hd : L.Declares Γ name) : L'.Declares Γ name := by
  refine ⟨hd.1, fun scope outer hΓ => ?_⟩
  obtain ⟨hfree, hmay⟩ := hd.2 scope outer hΓ
  exact ⟨hfree, h.mayDeclare_of _ _ hmay⟩

end Ledger

/-! ### Scoped trees -/

/-- The operators that stand between two operands which are both evaluated. -/
def binaryOperators : List Token.Kind :=
  Level.equality.operators ++ Level.comparison.operators ++ Level.term.operators ++
    Level.factor.operators

namespace Reference

/-- A variable that may be assigned at a place. -/
def WriteScoped (L : Ledger) (Γ : Scopes) (ref : Reference) : Prop :=
  IsPlain ref.name.lexeme ∧ L.Records ref ((Γ.nearest? ref.name.lexeme).map Prod.fst)

/-- A variable that may be read at a place: the nearest scope that holds it has a value for it. -/
def ReadScoped (L : Ledger) (Γ : Scopes) (ref : Reference) : Prop :=
  ref.WriteScoped L Γ ∧ ∀ d, Γ.nearest? ref.name.lexeme ≠ some (d, .declared)

/-- The scope of `this` is known. -/
def ThisScoped (L : Ledger) (Γ : Scopes) (ref : Reference) : Prop :=
  ref.name.lexeme = thisName ∧
    ∃ d, L.Records ref (some d) ∧ Γ.nearest? thisName = some (d, .defined)

/-- The scope of `super` is known, and that of `this` lies directly inside it. -/
def SuperScoped (L : Ledger) (Γ : Scopes) (ref : Reference) : Prop :=
  ref.name.lexeme = superName ∧
    ∃ d, L.Records ref (some (d + 1)) ∧ Γ.nearest? superName = some (d + 1, .defined) ∧
      Γ.nearest? thisName = some (d, .defined)

end Reference

mutual

/-- A **scoped expression**. -/
def Expr.Scoped (L : Ledger) (Γ : Scopes) : Expr → Prop
  | .literal _ => True
  | .grouping e => e.Scoped L Γ
  | .unary operator e => operator.kind ∈ unaryOperators ∧ e.Scoped L Γ
  | .binary l operator r => operator.kind ∈ binaryOperators ∧ l.Scoped L Γ ∧ r.Scoped L Γ
  | .logical l _ r => l.Scoped L Γ ∧ r.Scoped L Γ
  | .variable ref => ref.ReadScoped L Γ
  | .assign ref e => ref.WriteScoped L Γ ∧ e.Scoped L Γ
  | .call f _ arguments => f.Scoped L Γ ∧ argumentsScoped L Γ arguments
  | .get object _ => object.Scoped L Γ
  | .set object _ e => object.Scoped L Γ ∧ e.Scoped L Γ
  | .this ref => ref.ThisScoped L Γ
  | .super ref _ => ref.SuperScoped L Γ
  | .hole _ => False

/-- Scoped arguments. -/
def argumentsScoped (L : Ledger) (Γ : Scopes) : List Expr → Prop
  | [] => True
  | e :: es => e.Scoped L Γ ∧ argumentsScoped L Γ es

end

/-- A scoped expression that may be absent. -/
def optionalScoped (L : Ledger) (Γ : Scopes) : Option Expr → Prop
  | none => True
  | some e => e.Scoped L Γ

/-- A new scope holds the names that it is opened with. -/
theorem Resolve.get?_newScope (names : List String) (x : String) :
    (newScope names).get? x = if x ∈ names then some .defined else none := by
  have hscope : ∀ (ns : List String) (γ : Bindings Readiness),
      (ns.foldl (fun b n => b.set n Readiness.defined) γ).get? x =
        if x ∈ ns then some .defined else γ.get? x := by
    intro ns
    induction ns with
    | nil => simp
    | cons n ns ih =>
      intro γ
      rw [List.foldl_cons, ih, Bindings.get?_set]
      by_cases hn : x = n <;> by_cases hx : x ∈ ns <;> simp [hn, hx]
  rw [newScope, Bindings.ofList, List.foldl_map, hscope, Bindings.get?_empty]

/-- The scope that binds what a method calls its object by. -/
def thisScope : Bindings Readiness := Resolve.newScope [thisName]

/-- The scope that binds what a method calls the superclass by. -/
def superScope : Bindings Readiness := Resolve.newScope [superName]

/-- The scope of a body before its first statement. -/
def parameterScope (params : List Token) : Bindings Readiness :=
  Resolve.newScope (params.map (·.lexeme))

/-- The name that a statement declares. -/
def Stmt.declared? : Stmt → Option Token
  | .var name _ => some name
  | .function routine => some routine.name
  | .classDecl name _ _ => some name
  | _ => none

/-- The scopes behind a statement: what it declares has its value. -/
def Scopes.after (Γ : Scopes) (s : Stmt) : Scopes :=
  match s.declared? with
  | some name => Γ.mark name.lexeme .defined
  | none => Γ

/-- Every name that the scopes hold has its value. -/
def Settled (Γ : Scopes) : Prop := ∀ γ ∈ Γ, ∀ x, γ.get? x ≠ some .declared

/-- Parameters that may be bound in a scope inside the given ones. -/
structure ParametersScoped (L : Ledger) (Γ : Scopes) (params : List Token) : Prop where
  nodup : (params.map (·.lexeme)).Nodup
  plain : ∀ p ∈ params, IsPlain p.lexeme
  mayDeclare : ∀ p ∈ params, L.mayDeclare (Γ.length + 1) p.lexeme

mutual

/-- A **scoped statement**; `inBody` says whether it may return. -/
def Stmt.Scoped (L : Ledger) (inBody : Bool) (Γ : Scopes) : Stmt → Prop
  | .expression e => e.Scoped L Γ
  | .print e => e.Scoped L Γ
  | .var name initializer =>
    L.Declares Γ name ∧ optionalScoped L (Γ.mark name.lexeme .declared) initializer
  | .block body => bodyScoped L inBody (.empty :: Γ) body
  | .cond c t none => c.Scoped L Γ ∧ t.declared? = none ∧ t.Scoped L inBody Γ
  | .cond c t (some e) =>
    c.Scoped L Γ ∧ (t.declared? = none ∧ t.Scoped L inBody Γ) ∧
      e.declared? = none ∧ e.Scoped L inBody Γ
  | .loop c body => c.Scoped L Γ ∧ body.declared? = none ∧ body.Scoped L inBody Γ
  | .function routine =>
    L.Declares Γ routine.name ∧ routine.Scoped L (Γ.mark routine.name.lexeme .defined)
  | .ret _ value => inBody = true ∧ optionalScoped L Γ value
  | .classDecl name none methods =>
    L.Declares Γ name ∧ methodsScoped L (thisScope :: Γ.mark name.lexeme .defined) methods
  | .classDecl name (some superclass) methods =>
    L.Declares Γ name ∧ superclass.ReadScoped L (Γ.mark name.lexeme .declared) ∧
      methodsScoped L (thisScope :: superScope :: Γ.mark name.lexeme .defined) methods

/-- A **scoped body**, declared inside the given scopes, whose names all have their values. -/
def Routine.Scoped (L : Ledger) (Γ : Scopes) : Routine → Prop
  | .mk _ params body =>
    Settled Γ ∧ ParametersScoped L Γ params ∧ bodyScoped L true (parameterScope params :: Γ) body

/-- Scoped statements, one after the other. -/
def bodyScoped (L : Ledger) (inBody : Bool) (Γ : Scopes) : List Stmt → Prop
  | [] => True
  | s :: ss => s.Scoped L inBody Γ ∧ bodyScoped L inBody (Γ.after s) ss

/-- Scoped methods. -/
def methodsScoped (L : Ledger) (Γ : Scopes) : List Routine → Prop
  | [] => True
  | m :: ms => m.Scoped L Γ ∧ methodsScoped L Γ ms

end

theorem Routine.scoped_iff (L : Ledger) (Γ : Scopes) (r : Routine) :
    r.Scoped L Γ ↔ Settled Γ ∧ ParametersScoped L Γ r.params ∧
      bodyScoped L true (parameterScope r.params :: Γ) r.body := by
  cases r
  exact Iff.rfl

theorem methodsScoped_iff (L : Ledger) (Γ : Scopes) (methods : List Routine) :
    methodsScoped L Γ methods ↔ ∀ m ∈ methods, m.Scoped L Γ := by
  induction methods with
  | nil => simp [methodsScoped]
  | cons m ms ih => simp [methodsScoped, ih]

/-! ### Growing ledgers -/

section

variable {L L' : Ledger}

theorem Reference.WriteScoped.mono (h : L.Extends L') {Γ : Scopes} {ref : Reference}
    (hr : ref.WriteScoped L Γ) : ref.WriteScoped L' Γ :=
  ⟨hr.1, h.records hr.2⟩

theorem Reference.ReadScoped.mono (h : L.Extends L') {Γ : Scopes} {ref : Reference}
    (hr : ref.ReadScoped L Γ) : ref.ReadScoped L' Γ :=
  ⟨hr.1.mono h, hr.2⟩

theorem Reference.ThisScoped.mono (h : L.Extends L') {Γ : Scopes} {ref : Reference}
    (hr : ref.ThisScoped L Γ) : ref.ThisScoped L' Γ := by
  obtain ⟨hname, d, hrec, hd⟩ := hr
  exact ⟨hname, d, h.records hrec, hd⟩

theorem Reference.SuperScoped.mono (h : L.Extends L') {Γ : Scopes} {ref : Reference}
    (hr : ref.SuperScoped L Γ) : ref.SuperScoped L' Γ := by
  obtain ⟨hname, d, hrec, hd⟩ := hr
  exact ⟨hname, d, h.records hrec, hd⟩

mutual

/-- An expression stays scoped when the ledger grows. -/
theorem Expr.Scoped.mono (h : L.Extends L') {Γ : Scopes} :
    ∀ (e : Expr), e.Scoped L Γ → e.Scoped L' Γ
  | .literal _, _ => trivial
  | .grouping e, he => Expr.Scoped.mono h e he
  | .unary _ e, ⟨hop, he⟩ => ⟨hop, Expr.Scoped.mono h e he⟩
  | .binary l _ r, ⟨hop, hl, hr⟩ => ⟨hop, Expr.Scoped.mono h l hl, Expr.Scoped.mono h r hr⟩
  | .logical l _ r, ⟨hl, hr⟩ => ⟨Expr.Scoped.mono h l hl, Expr.Scoped.mono h r hr⟩
  | .variable _, hr => Reference.ReadScoped.mono h hr
  | .assign _ e, ⟨hr, he⟩ => ⟨Reference.WriteScoped.mono h hr, Expr.Scoped.mono h e he⟩
  | .call f _ as, ⟨hf, has⟩ => ⟨Expr.Scoped.mono h f hf, argumentsScoped.mono h as has⟩
  | .get o _, ho => Expr.Scoped.mono h o ho
  | .set o _ e, ⟨ho, he⟩ => ⟨Expr.Scoped.mono h o ho, Expr.Scoped.mono h e he⟩
  | .this _, hr => Reference.ThisScoped.mono h hr
  | .super _ _, hr => Reference.SuperScoped.mono h hr

theorem argumentsScoped.mono (h : L.Extends L') {Γ : Scopes} :
    ∀ (es : List Expr), argumentsScoped L Γ es → argumentsScoped L' Γ es
  | [], _ => trivial
  | e :: es, ⟨he, hes⟩ => ⟨Expr.Scoped.mono h e he, argumentsScoped.mono h es hes⟩

end

theorem optionalScoped.mono (h : L.Extends L') {Γ : Scopes} :
    ∀ (e : Option Expr), optionalScoped L Γ e → optionalScoped L' Γ e
  | none, _ => trivial
  | some e, he => Expr.Scoped.mono h e he

theorem ParametersScoped.mono (h : L.Extends L') {Γ : Scopes} {params : List Token}
    (hp : ParametersScoped L Γ params) : ParametersScoped L' Γ params where
  nodup := hp.nodup
  plain := hp.plain
  mayDeclare := fun p hmem => h.mayDeclare_of _ _ (hp.mayDeclare p hmem)

mutual

/-- A statement stays scoped when the ledger grows. -/
theorem Stmt.Scoped.mono (h : L.Extends L') {inBody : Bool} {Γ : Scopes} :
    ∀ (s : Stmt), s.Scoped L inBody Γ → s.Scoped L' inBody Γ
  | .expression e, he => Expr.Scoped.mono h e he
  | .print e, he => Expr.Scoped.mono h e he
  | .var _ e, ⟨hd, he⟩ => ⟨h.declares hd, optionalScoped.mono h e he⟩
  | .block body, hb => bodyScoped.mono h body hb
  | .cond c t none, ⟨hc, hdt, ht⟩ => ⟨Expr.Scoped.mono h c hc, hdt, Stmt.Scoped.mono h t ht⟩
  | .cond c t (some e), ⟨hc, ⟨hdt, ht⟩, hde, he⟩ =>
    ⟨Expr.Scoped.mono h c hc, ⟨hdt, Stmt.Scoped.mono h t ht⟩, hde, Stmt.Scoped.mono h e he⟩
  | .loop c body, ⟨hc, hdb, hb⟩ => ⟨Expr.Scoped.mono h c hc, hdb, Stmt.Scoped.mono h body hb⟩
  | .function r, ⟨hd, hr⟩ => ⟨h.declares hd, Routine.Scoped.mono h r hr⟩
  | .ret _ e, ⟨hb, he⟩ => ⟨hb, optionalScoped.mono h e he⟩
  | .classDecl _ none ms, ⟨hd, hms⟩ => ⟨h.declares hd, methodsScoped.mono h ms hms⟩
  | .classDecl _ (some _) ms, ⟨hd, hr, hms⟩ =>
    ⟨h.declares hd, Reference.ReadScoped.mono h hr, methodsScoped.mono h ms hms⟩

/-- A body stays scoped when the ledger grows. -/
theorem Routine.Scoped.mono (h : L.Extends L') {Γ : Scopes} :
    ∀ (r : Routine), r.Scoped L Γ → r.Scoped L' Γ
  | .mk _ _ body, ⟨hΓ, hp, hb⟩ => ⟨hΓ, ParametersScoped.mono h hp, bodyScoped.mono h body hb⟩

theorem bodyScoped.mono (h : L.Extends L') {inBody : Bool} {Γ : Scopes} :
    ∀ (ss : List Stmt), bodyScoped L inBody Γ ss → bodyScoped L' inBody Γ ss
  | [], _ => trivial
  | s :: ss, ⟨hs, hss⟩ => ⟨Stmt.Scoped.mono h s hs, bodyScoped.mono h ss hss⟩

theorem methodsScoped.mono (h : L.Extends L') {Γ : Scopes} :
    ∀ (ms : List Routine), methodsScoped L Γ ms → methodsScoped L' Γ ms
  | [], _ => trivial
  | m :: ms, ⟨hm, hms⟩ => ⟨Routine.Scoped.mono h m hm, methodsScoped.mono h ms hms⟩

end

end

/-! ### Bounds -/

section

variable {L : Ledger}

mutual

/-- The references of a scoped expression have numbers below the bound. -/
theorem Expr.Scoped.bounded {Γ : Scopes} :
    ∀ (e : Expr), e.Scoped L Γ → ∀ ref ∈ e.references, ref.id < L.bound
  | .literal _, _ => nofun
  | .grouping e, he => Expr.Scoped.bounded e he
  | .unary _ e, ⟨_, he⟩ => Expr.Scoped.bounded e he
  | .binary l _ r, ⟨_, hl, hr⟩ =>
    List.forall_mem_append.2 ⟨Expr.Scoped.bounded l hl, Expr.Scoped.bounded r hr⟩
  | .logical l _ r, ⟨hl, hr⟩ =>
    List.forall_mem_append.2 ⟨Expr.Scoped.bounded l hl, Expr.Scoped.bounded r hr⟩
  | .variable _, hr => List.forall_mem_singleton.2 hr.1.2.1
  | .assign _ e, ⟨hr, he⟩ => List.forall_mem_cons.2 ⟨hr.2.1, Expr.Scoped.bounded e he⟩
  | .call f _ as, ⟨hf, has⟩ =>
    List.forall_mem_append.2 ⟨Expr.Scoped.bounded f hf, argumentsScoped.bounded as has⟩
  | .get o _, ho => Expr.Scoped.bounded o ho
  | .set o _ e, ⟨ho, he⟩ =>
    List.forall_mem_append.2 ⟨Expr.Scoped.bounded o ho, Expr.Scoped.bounded e he⟩
  | .this _, ⟨_, _, hr, _⟩ => List.forall_mem_singleton.2 hr.1
  | .super _ _, ⟨_, _, hr, _⟩ => List.forall_mem_singleton.2 hr.1

theorem argumentsScoped.bounded {Γ : Scopes} :
    ∀ (es : List Expr), argumentsScoped L Γ es → ∀ ref ∈ referencesOfArguments es, ref.id < L.bound
  | [], _ => nofun
  | e :: es, ⟨he, hes⟩ =>
    List.forall_mem_append.2 ⟨Expr.Scoped.bounded e he, argumentsScoped.bounded es hes⟩

end

theorem optionalScoped.bounded {Γ : Scopes} (e? : Option Expr) (h : optionalScoped L Γ e?) :
    ∀ ref ∈ e?.elim [] Expr.references, ref.id < L.bound := by
  cases e? with
  | none => exact nofun
  | some e => exact Expr.Scoped.bounded e h

mutual

/-- The references of a scoped statement have numbers below the bound. -/
theorem Stmt.Scoped.bounded {inBody : Bool} {Γ : Scopes} :
    ∀ (s : Stmt), s.Scoped L inBody Γ → ∀ ref ∈ s.references, ref.id < L.bound
  | .expression e, he => Expr.Scoped.bounded e he
  | .print e, he => Expr.Scoped.bounded e he
  | .var _ e, ⟨_, he⟩ => optionalScoped.bounded e he
  | .block body, hb => bodyScoped.bounded body hb
  | .cond c t none, ⟨hc, _, ht⟩ =>
    List.forall_mem_append.2 ⟨Expr.Scoped.bounded c hc, Stmt.Scoped.bounded t ht⟩
  | .cond c t (some e), ⟨hc, ⟨_, ht⟩, _, he⟩ =>
    List.forall_mem_append.2 ⟨List.forall_mem_append.2
      ⟨Expr.Scoped.bounded c hc, Stmt.Scoped.bounded t ht⟩, Stmt.Scoped.bounded e he⟩
  | .loop c body, ⟨hc, _, hb⟩ =>
    List.forall_mem_append.2 ⟨Expr.Scoped.bounded c hc, Stmt.Scoped.bounded body hb⟩
  | .function r, ⟨_, hr⟩ => Routine.Scoped.bounded r hr
  | .ret _ e, ⟨_, he⟩ => optionalScoped.bounded e he
  | .classDecl _ none ms, ⟨_, hms⟩ => methodsScoped.bounded ms hms
  | .classDecl _ (some _) ms, ⟨_, hr, hms⟩ =>
    List.forall_mem_cons.2 ⟨hr.1.2.1, methodsScoped.bounded ms hms⟩

/-- The references of a scoped body have numbers below the bound. -/
theorem Routine.Scoped.bounded {Γ : Scopes} :
    ∀ (r : Routine), r.Scoped L Γ → ∀ ref ∈ r.references, ref.id < L.bound
  | .mk _ _ body, ⟨_, _, hb⟩ => bodyScoped.bounded body hb

theorem bodyScoped.bounded {inBody : Bool} {Γ : Scopes} :
    ∀ (ss : List Stmt), bodyScoped L inBody Γ ss → ∀ ref ∈ referencesOfBody ss, ref.id < L.bound
  | [], _ => nofun
  | s :: ss, ⟨hs, hss⟩ =>
    List.forall_mem_append.2 ⟨Stmt.Scoped.bounded s hs, bodyScoped.bounded ss hss⟩

theorem methodsScoped.bounded {Γ : Scopes} :
    ∀ (ms : List Routine), methodsScoped L Γ ms → ∀ ref ∈ referencesOfMethods ms, ref.id < L.bound
  | [], _ => nofun
  | m :: ms, ⟨hm, hms⟩ =>
    List.forall_mem_append.2 ⟨Routine.Scoped.bounded m hm, methodsScoped.bounded ms hms⟩

end

end

end Lox
