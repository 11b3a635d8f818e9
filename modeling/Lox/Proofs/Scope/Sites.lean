/-
**Sites.**

The occurrences in a tree that the rules about scopes are about, each with its path: the local
scopes around it, and the names that each of them holds at that point of the tree.  Globals are no
scope, so the path of a place at the top is empty.

A scope holds the names whose declarations have been passed: a variable counts from its own name
on, so in its initializer already; a function and a class count in their own bodies; parameters
count in the whole body, `super` and `this` in all methods.  Everything here is a property of the
tree alone, with no pass over it and no state.

Main definitions:

* `Lox.Frame`, `Lox.Path` — a local scope around a place, and **the path of a place**;
* `Lox.Path.Holds` — how far the innermost scope is that holds a name;
* `Lox.Mention`, `Lox.Site` — an occurrence, and the same at its place;
* `Lox.Expr.sites`, `Lox.Stmt.sites`, `Lox.bodySites` — **the sites of a tree**;
* `Lox.Site.Distance` — the distance of the reference at a site;
* `Lox.Site.violation?`, `Lox.Site.finding?` — **the rule that a site breaks**;
* `Lox.Expr.Whole`, `Lox.Stmt.Whole`, `Lox.bodyWhole` — trees without holes.

Main results:

* `Lox.Path.distance?_eq_some_iff`, `Lox.Site.distance?_eq_some_iff` — distances can be computed;
* `Lox.Expr.referencesAt_sites`, `Lox.referencesAt_bodySites` — every reference of a tree is at one
  of its sites;
* `Lox.bodySites_append` — at the top, nothing carries over from one statement to the next.
-/

import Lox.Scope.Distance

set_option relaxedAutoImplicit false
set_option autoImplicit false

namespace Lox

/-! ### Paths -/

/-- What a local scope is opened for. -/
inductive Enclosure where
  | block
  | function
  /-- A method, which may be the one that makes new objects ready. -/
  | method (initializer : Bool)
  /-- The scope that holds `super`. -/
  | superclass
  /-- The scope that holds `this`, for a class with or without a superclass. -/
  | object (derived : Bool)
deriving DecidableEq

namespace Enclosure

/-- Whether the scope is the one of a function or a method. -/
def isRoutine : Enclosure → Bool
  | function | method _ => true
  | block | superclass | object _ => false

/-- Whether the scope belongs to a class, and then, whether this has a superclass. -/
def derived? : Enclosure → Option Bool
  | object derived => some derived
  | block | function | method _ | superclass => none

end Enclosure

/-- A local **scope** around a place: what it is opened for, and the names it holds there. -/
structure Frame where
  opener : Enclosure
  names : List String
deriving DecidableEq

/-- The local scopes around a place, the innermost first. -/
abbrev Path := List Frame

namespace Path

/-- The path behind a declaration: the innermost scope holds the name. -/
def declare : Path → String → Path
  | [], _ => []
  | frame :: outer, x => { frame with names := x :: frame.names } :: outer

/-- The path behind several declarations. -/
def declareAll (path : Path) (names : List String) : Path := names.foldl declare path

/-- The names of the innermost scope. -/
def innermost (path : Path) : List String := path.head?.elim [] Frame.names

/-- The innermost function or method around a place. -/
def routine? (path : Path) : Option Enclosure := (path.map Frame.opener).find? Enclosure.isRoutine

/-- Whether the innermost class around a place has a superclass. -/
def class? (path : Path) : Option Bool := (path.map Frame.opener).findSome? Enclosure.derived?

/-- The innermost scope that holds a name has `d` scopes inside it. -/
def Holds (path : Path) (x : String) (d : Nat) : Prop :=
  ∃ inner frame outer, path = inner ++ frame :: outer ∧ inner.length = d ∧ x ∈ frame.names ∧
    ∀ f ∈ inner, x ∉ f.names

/-- How many scopes lie inside the innermost one that holds a name. -/
def distance? (path : Path) (x : String) : Option Nat :=
  path.findIdx? fun frame => decide (x ∈ frame.names)

@[simp] theorem declare_nil (x : String) : declare [] x = [] := rfl

@[simp] theorem declareAll_nil (path : Path) : path.declareAll [] = path := rfl

@[simp] theorem declareAll_cons (path : Path) (x : String) (xs : List String) :
    path.declareAll (x :: xs) = (path.declare x).declareAll xs := rfl

theorem declareAll_append (path : Path) (xs ys : List String) :
    path.declareAll (xs ++ ys) = (path.declareAll xs).declareAll ys :=
  List.foldl_append

/-- At the top, a declaration adds to no scope. -/
@[simp] theorem declareAll_top (xs : List String) : declareAll [] xs = [] := by
  induction xs with
  | nil => rfl
  | cons x xs ih => exact ih

/-- Only the innermost scope grows. -/
theorem declareAll_cons_eq (frame : Frame) (outer : Path) (xs : List String) :
    ∃ names, declareAll (frame :: outer) xs = ⟨frame.opener, names⟩ :: outer := by
  induction xs generalizing frame with
  | nil => exact ⟨frame.names, rfl⟩
  | cons x xs ih => exact ih { frame with names := x :: frame.names }

@[simp] theorem map_opener_declare (path : Path) (x : String) :
    (path.declare x).map Frame.opener = path.map Frame.opener := by
  cases path <;> rfl

@[simp] theorem routine?_declare (path : Path) (x : String) :
    (path.declare x).routine? = path.routine? := by
  rw [routine?, map_opener_declare, routine?]

@[simp] theorem class?_declare (path : Path) (x : String) :
    (path.declare x).class? = path.class? := by
  rw [class?, map_opener_declare, class?]

/-- The computed distance is the one of the innermost scope that holds the name. -/
theorem distance?_eq_some_iff {path : Path} {x : String} {d : Nat} :
    path.distance? x = some d ↔ path.Holds x d := by
  rw [distance?, List.findIdx?_eq_some_iff_getElem]
  constructor
  · rintro ⟨hd, hx, hinner⟩
    refine ⟨path.take d, path[d], path.drop (d + 1), ?_, ?_, by simpa using hx, ?_⟩
    · rw [List.getElem_cons_drop, List.take_append_drop]
    · rw [List.length_take]
      omega
    · intro f hf
      obtain ⟨i, hi, rfl⟩ := List.mem_take_iff_getElem.1 hf
      simpa using hinner i (by omega)
  · rintro ⟨inner, frame, outer, rfl, rfl, hx, hinner⟩
    refine ⟨by simp, by simpa using hx, fun j hj => ?_⟩
    rw [List.getElem_append_left hj]
    simpa using hinner _ (List.getElem_mem hj)

end Path

/-! ### Sites -/

/-- What the rules about scopes are about. -/
inductive Mention where
  | declares (name : Token)
  | reads (ref : Reference)
  | assigns (ref : Reference)
  | this (ref : Reference)
  | super (ref : Reference)
  | returns (keyword : Token) (withValue : Bool)
  /-- The class of the first name gives the second one as its superclass. -/
  | inherits (name superclass : Token)
deriving DecidableEq

namespace Mention

/-- The token that a mention is known by. -/
def token : Mention → Token
  | declares name => name
  | reads ref | assigns ref | this ref | super ref => ref.name
  | returns keyword _ => keyword
  | inherits _ superclass => superclass

/-- The reference that a mention is. -/
def reference? : Mention → Option Reference
  | reads ref | assigns ref | this ref | super ref => some ref
  | declares _ | returns .. | inherits .. => none

end Mention

/-- A **site**: a mention with the scopes around it, and with the variable whose initializer it
stands in. -/
structure Site where
  path : Path
  initializing : Option String
  mention : Mention
deriving DecidableEq

mutual

/-- The sites of an expression. -/
def Expr.sites (path : Path) (initializing : Option String) : Expr → List Site
  | .literal _ => []
  | .grouping e => e.sites path initializing
  | .unary _ e => e.sites path initializing
  | .binary l _ r => l.sites path initializing ++ r.sites path initializing
  | .logical l _ r => l.sites path initializing ++ r.sites path initializing
  | .variable ref => [⟨path, initializing, .reads ref⟩]
  | .assign ref value => value.sites path initializing ++ [⟨path, initializing, .assigns ref⟩]
  | .call callee _ arguments =>
    callee.sites path initializing ++ argumentSites path initializing arguments
  | .get object _ => object.sites path initializing
  | .set object _ value => value.sites path initializing ++ object.sites path initializing
  | .this ref => [⟨path, initializing, .this ref⟩]
  | .super ref _ => [⟨path, initializing, .super ref⟩]
  | .hole _ => []

/-- The sites of the arguments of a call. -/
def argumentSites (path : Path) (initializing : Option String) : List Expr → List Site
  | [] => []
  | e :: es => e.sites path initializing ++ argumentSites path initializing es

end

/-- The sites of an expression that may be absent. -/
def optionalSites (path : Path) (initializing : Option String) (e? : Option Expr) : List Site :=
  e?.elim [] (Expr.sites path initializing)

/-- The sites of parameters.  Each is declared in the scope that holds the ones before it. -/
def parameterSites (path : Path) : List Token → List Site
  | [] => []
  | p :: ps => ⟨path, none, .declares p⟩ :: parameterSites (path.declare p.lexeme) ps

/-- The names that a statement declares in the scope it stands in.  A branch and the body of a loop
stand in the scope of the whole statement. -/
def Stmt.introduces : Stmt → List String
  | .var name _ => [name.lexeme]
  | .function routine => [routine.name.lexeme]
  | .classDecl name _ _ => [name.lexeme]
  | .cond _ t none => t.introduces
  | .cond _ t (some e) => t.introduces ++ e.introduces
  | .loop _ body => body.introduces
  | .expression _ | .print _ | .block _ | .ret .. => []

mutual

/-- The sites of a statement. -/
def Stmt.sites (path : Path) : Stmt → List Site
  | .expression e => e.sites path none
  | .print e => e.sites path none
  | .var name initializer =>
    ⟨path, none, .declares name⟩ ::
      optionalSites (path.declare name.lexeme) (some name.lexeme) initializer
  | .block body => bodySites (⟨.block, []⟩ :: path) body
  | .cond c t none => c.sites path none ++ t.sites path
  | .cond c t (some e) =>
    c.sites path none ++ (t.sites path ++ e.sites (path.declareAll t.introduces))
  | .loop c body => c.sites path none ++ body.sites path
  | .function routine =>
    ⟨path, none, .declares routine.name⟩ ::
      routine.sites .function (path.declare routine.name.lexeme)
  | .ret keyword value =>
    ⟨path, none, .returns keyword value.isSome⟩ :: optionalSites path none value
  | .classDecl name none methods =>
    ⟨path, none, .declares name⟩ ::
      methodSites (⟨.object false, [thisName]⟩ :: path.declare name.lexeme) methods
  | .classDecl name (some superclass) methods =>
    [⟨path, none, .declares name⟩,
      ⟨path.declare name.lexeme, none, .inherits name superclass.name⟩,
      ⟨path.declare name.lexeme, none, .reads superclass⟩] ++
      methodSites
        (⟨.object true, [thisName]⟩ :: ⟨.superclass, [superName]⟩ :: path.declare name.lexeme)
        methods

/-- The sites of a declared body: its parameters and its statements stand in one scope. -/
def Routine.sites (opener : Enclosure) (path : Path) : Routine → List Site
  | .mk _ params body =>
    parameterSites (⟨opener, []⟩ :: path) params ++
      bodySites (Path.declareAll (⟨opener, []⟩ :: path) (params.map Token.lexeme)) body

/-- The sites of the statements of a body.  A statement stands behind the declarations before it. -/
def bodySites (path : Path) : List Stmt → List Site
  | [] => []
  | s :: ss => s.sites path ++ bodySites (path.declareAll s.introduces) ss

/-- The sites of the methods of a class. -/
def methodSites (path : Path) : List Routine → List Site
  | [] => []
  | m :: ms => m.sites (.method m.isInitializer) path ++ methodSites path ms

end

/-- At the top, nothing carries over from one statement to the next. -/
theorem bodySites_append (ss ss' : List Stmt) :
    bodySites [] (ss ++ ss') = bodySites [] ss ++ bodySites [] ss' := by
  induction ss with
  | nil => simp [bodySites]
  | cons s ss ih => simp [bodySites, ih]

namespace Site

/-- The reference at a site. -/
def reference? (s : Site) : Option Reference := s.mention.reference?

/-! ### Distances -/

/-- A site whose reference is looked up in the scopes: `this` is so inside a class only. -/
def LookedUp (s : Site) (ref : Reference) : Prop :=
  s.reference? = some ref ∧ (s.mention = .this ref → s.path.class? ≠ none)

/-- The **distance** of the reference at a site: how many scopes around it lie inside the innermost
one that holds the name. -/
def Distance (s : Site) (d : Nat) : Prop :=
  ∃ ref, s.LookedUp ref ∧ s.path.Holds ref.name.lexeme d

/-- The reference that is looked up at a site. -/
def lookedUp? (s : Site) : Option Reference :=
  s.reference?.filter fun ref => decide (s.mention = .this ref → s.path.class? ≠ none)

/-- The distance of the reference at a site, if it has one. -/
def distance? (s : Site) : Option Nat :=
  s.lookedUp?.bind fun ref => s.path.distance? ref.name.lexeme

theorem lookedUp?_eq_some_iff {s : Site} {ref : Reference} :
    s.lookedUp? = some ref ↔ s.LookedUp ref := by
  rw [lookedUp?, Option.filter_eq_some_iff, decide_eq_true_iff, LookedUp]

theorem distance?_eq_some_iff {s : Site} {d : Nat} : s.distance? = some d ↔ s.Distance d := by
  simp only [distance?, Option.bind_eq_some_iff, lookedUp?_eq_some_iff,
    Path.distance?_eq_some_iff, Distance]

/-! ### Rules -/

/-- The rule that is **broken** at a site. -/
def violation? (s : Site) : Option Problem :=
  match s.mention with
  | .declares name => if name.lexeme ∈ s.path.innermost then some .redeclared else none
  | .reads ref =>
    if s.path ≠ [] ∧ s.initializing = some ref.name.lexeme then some .readInOwnInitializer else none
  | .assigns _ => none
  | .this _ => if s.path.class? = none then some .thisOutsideClass else none
  | .super _ =>
    match s.path.class? with
    | none => some .superOutsideClass
    | some false => some .superWithoutSuperclass
    | some true => none
  | .returns _ withValue =>
    match s.path.routine? with
    | none => some .returnAtTop
    | some (.method true) => if withValue then some .returnFromInitializer else none
    | some _ => none
  | .inherits name superclass =>
    if name.lexeme = superclass.lexeme then some .inheritsFromItself else none

/-- The finding that says so, at the token that the mention is known by. -/
def finding? (s : Site) : Option Diagnostic :=
  s.violation?.map fun p => ⟨.token s.mention.token, p⟩

end Site

/-! ### Trees without holes -/

mutual

/-- An expression without holes. -/
def Expr.Whole : Expr → Prop
  | .literal _ | .variable _ | .this _ | .super .. => True
  | .grouping e | .unary _ e | .get e _ | .assign _ e => e.Whole
  | .binary l _ r | .logical l _ r => l.Whole ∧ r.Whole
  | .call f _ arguments => f.Whole ∧ argumentsWhole arguments
  | .set object _ e => e.Whole ∧ object.Whole
  | .hole _ => False

/-- Arguments without holes. -/
def argumentsWhole : List Expr → Prop
  | [] => True
  | e :: es => e.Whole ∧ argumentsWhole es

end

/-- An expression without holes, or none. -/
def optionalWhole : Option Expr → Prop
  | none => True
  | some e => e.Whole

mutual

/-- A statement without holes. -/
def Stmt.Whole : Stmt → Prop
  | .expression e | .print e => e.Whole
  | .var _ e? | .ret _ e? => optionalWhole e?
  | .block body => bodyWhole body
  | .cond c t none => c.Whole ∧ t.Whole
  | .cond c t (some e) => c.Whole ∧ t.Whole ∧ e.Whole
  | .loop c body => c.Whole ∧ body.Whole
  | .function routine => routine.Whole
  | .classDecl _ _ methods => methodsWhole methods

/-- A declared body without holes. -/
def Routine.Whole : Routine → Prop
  | .mk _ _ body => bodyWhole body

/-- Statements without holes. -/
def bodyWhole : List Stmt → Prop
  | [] => True
  | s :: ss => s.Whole ∧ bodyWhole ss

/-- Methods without holes. -/
def methodsWhole : List Routine → Prop
  | [] => True
  | m :: ms => m.Whole ∧ methodsWhole ms

end

/-! ### Every reference is at a site -/

/-- The references at the given sites. -/
def referencesAt (sites : List Site) : List Reference := sites.filterMap Site.reference?

@[simp] theorem referencesAt_nil : referencesAt [] = [] := rfl

theorem referencesAt_cons (s : Site) (ss : List Site) :
    referencesAt (s :: ss) = s.reference?.toList ++ referencesAt ss := by
  unfold referencesAt
  rw [List.filterMap_cons]
  cases s.reference? <;> rfl

@[simp] theorem referencesAt_append (ss ss' : List Site) :
    referencesAt (ss ++ ss') = referencesAt ss ++ referencesAt ss' :=
  List.filterMap_append

mutual

/-- Every reference of an expression is at one site. -/
theorem Expr.referencesAt_sites (path : Path) (initializing : Option String) :
    ∀ e : Expr, (referencesAt (e.sites path initializing)).Perm e.references
  | .literal _ | .hole _ => .nil
  | .grouping e | .unary _ e | .get e _ => e.referencesAt_sites path initializing
  | .binary l _ r | .logical l _ r => by
    simp only [Expr.sites, Expr.references, referencesAt_append]
    exact (l.referencesAt_sites path initializing).append (r.referencesAt_sites path initializing)
  | .variable _ | .this _ | .super .. => .refl _
  | .assign ref e => by
    simp only [Expr.sites, Expr.references, referencesAt_append]
    -- The value is gone through before the variable.
    exact List.perm_append_comm.trans ((e.referencesAt_sites path initializing).cons ref)
  | .call f _ es => by
    simp only [Expr.sites, Expr.references, referencesAt_append]
    exact (f.referencesAt_sites path initializing).append
      (referencesAt_argumentSites path initializing es)
  | .set o _ v => by
    simp only [Expr.sites, Expr.references, referencesAt_append]
    exact List.perm_append_comm.trans
      ((o.referencesAt_sites path initializing).append (v.referencesAt_sites path initializing))

theorem referencesAt_argumentSites (path : Path) (initializing : Option String) :
    ∀ es : List Expr,
      (referencesAt (argumentSites path initializing es)).Perm (referencesOfArguments es)
  | [] => .nil
  | e :: es => by
    simp only [argumentSites, referencesOfArguments, referencesAt_append]
    exact (e.referencesAt_sites path initializing).append
      (referencesAt_argumentSites path initializing es)

end

theorem referencesAt_optionalSites (path : Path) (initializing : Option String)
    (e? : Option Expr) :
    (referencesAt (optionalSites path initializing e?)).Perm (e?.elim [] Expr.references) := by
  cases e? with
  | none => exact .nil
  | some e => exact e.referencesAt_sites path initializing

/-- Parameters are no references. -/
theorem referencesAt_parameterSites (path : Path) (ps : List Token) :
    referencesAt (parameterSites path ps) = [] := by
  induction ps generalizing path with
  | nil => rfl
  | cons p ps ih => exact ih (path.declare p.lexeme)

mutual

/-- Every reference of a statement is at one site. -/
theorem Stmt.referencesAt_sites :
    ∀ (s : Stmt) (path : Path), (referencesAt (s.sites path)).Perm s.references
  | .expression e, path | .print e, path => e.referencesAt_sites path none
  | .var _ initializer, _ => referencesAt_optionalSites _ _ initializer
  | .block body, _ => referencesAt_bodySites body _
  | .cond c t none, path => by
    simp only [Stmt.sites, Stmt.references, referencesAt_append]
    exact (c.referencesAt_sites path none).append (t.referencesAt_sites path)
  | .cond c t (some e), path => by
    simp only [Stmt.sites, Stmt.references, referencesAt_append, List.append_assoc]
    exact (c.referencesAt_sites path none).append
      ((t.referencesAt_sites path).append (e.referencesAt_sites _))
  | .loop c body, path => by
    simp only [Stmt.sites, Stmt.references, referencesAt_append]
    exact (c.referencesAt_sites path none).append (body.referencesAt_sites path)
  | .function routine, _ => routine.referencesAt_sites _ _
  | .ret _ value, _ => referencesAt_optionalSites _ _ value
  | .classDecl _ none methods, _ => referencesAt_methodSites methods _
  | .classDecl _ (some superclass) methods, _ =>
    (referencesAt_methodSites methods _).cons superclass

/-- Every reference of a declared body is at one site. -/
theorem Routine.referencesAt_sites :
    ∀ (r : Routine) (opener : Enclosure) (path : Path),
      (referencesAt (r.sites opener path)).Perm r.references
  | .mk _ params body, opener, path => by
    simp only [Routine.sites, Routine.references, referencesAt_append, referencesAt_parameterSites,
      List.nil_append]
    exact referencesAt_bodySites body _

theorem referencesAt_bodySites :
    ∀ (ss : List Stmt) (path : Path),
      (referencesAt (bodySites path ss)).Perm (referencesOfBody ss)
  | [], _ => .nil
  | s :: ss, path => by
    simp only [bodySites, referencesOfBody, referencesAt_append]
    exact (s.referencesAt_sites path).append (referencesAt_bodySites ss _)

theorem referencesAt_methodSites :
    ∀ (ms : List Routine) (path : Path),
      (referencesAt (methodSites path ms)).Perm (referencesOfMethods ms)
  | [], _ => .nil
  | m :: ms, path => by
    simp only [methodSites, referencesOfMethods, referencesAt_append]
    exact (m.referencesAt_sites _ path).append (referencesAt_methodSites ms path)

end

end Lox
