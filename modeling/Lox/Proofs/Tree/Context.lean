/-
**Places in a tree.**

A place for a statement, at any depth of a tree, is the tree with one statement left out.  What is
asked of a whole tree is asked of the statement at such a place, and two statements that are alike
in what they declare and refer to can stand for each other there.

Main definitions:

* `Lox.Context`, `Lox.Context.fill` — **a place for a statement**, and the tree with a statement
  put there;
* `Lox.Stmt.LawfulAt`, `Lox.BodyLawfulAt` — statements that break no rule where they stand;
* `Lox.Stmt.Avoids`, `Lox.BodyAvoids` — statements that neither declare nor refer to a name.

Main results:

* `Lox.Context.fill_proper`, `Lox.Context.fill_numbers`, `Lox.Context.fill_lawfulAt` — a tree stays
  proper, keeps its numbers and breaks no rule when another statement is put in the place of one;
* `Lox.Context.fill_variant` — **variants at a place** make variants of the whole.
-/

import Lox.Proofs.Scope.Resolution
import Lox.Proofs.Scope.Sites
import Lox.Proofs.Tree.Variant

set_option relaxedAutoImplicit false
set_option autoImplicit false

namespace Lox

/-! ### Places -/

/-- A **place for a statement** in a statement. -/
inductive Context where
  | here
  | block (before : List Stmt) (inner : Context) (after : List Stmt)
  | thenBranch (condition : Expr) (inner : Context) (elseBranch : Option Stmt)
  | elseBranch (condition : Expr) (thenBranch : Stmt) (inner : Context)
  | loop (condition : Expr) (inner : Context)
  | function (name : Token) (params : List Token) (before : List Stmt) (inner : Context)
      (after : List Stmt)
  | method (name : Token) (superclass : Option Reference) (earlier : List Routine) (own : Token)
      (params : List Token) (before : List Stmt) (inner : Context) (after : List Stmt)
      (later : List Routine)

namespace Context

/-- The tree with a statement at the place. -/
def fill : Context → Stmt → Stmt
  | here, s => s
  | block before inner after, s => .block (before ++ inner.fill s :: after)
  | thenBranch c inner e, s => .cond c (inner.fill s) e
  | elseBranch c t inner, s => .cond c t (some (inner.fill s))
  | loop c inner, s => .loop c (inner.fill s)
  | function name params before inner after, s =>
    .function (.mk name params (before ++ inner.fill s :: after))
  | method name superclass earlier own params before inner after later, s =>
    .classDecl name superclass
      (earlier ++ .mk own params (before ++ inner.fill s :: after) :: later)

end Context

/-! ### Lists of statements and methods -/

theorem declarationsOfBody_append (k : Nat) (ss ss' : List Stmt) :
    declarationsOfBody k (ss ++ ss') = declarationsOfBody k ss ++ declarationsOfBody k ss' := by
  induction ss with
  | nil => rfl
  | cons s ss ih => simp [declarationsOfBody, ih]

theorem declarationsOfMethods_append (k : Nat) (ms ms' : List Routine) :
    declarationsOfMethods k (ms ++ ms') =
      declarationsOfMethods k ms ++ declarationsOfMethods k ms' := by
  induction ms with
  | nil => rfl
  | cons m ms ih => simp [declarationsOfMethods, ih]

/-! ### Numbers and proper trees -/

section

variable {s s' : Stmt}

/-- The numbers of the references of a statement. -/
def Stmt.numbers (s : Stmt) : List NodeId := s.references.map (·.id)

/-- The numbers of the references of statements. -/
def numbersOfBody (ss : List Stmt) : List NodeId := (referencesOfBody ss).map (·.id)

theorem numbersOfBody_swap (hnumbers : s'.numbers = s.numbers) (before after : List Stmt) :
    numbersOfBody (before ++ s' :: after) = numbersOfBody (before ++ s :: after) := by
  simp only [Stmt.numbers] at hnumbers
  simp only [numbersOfBody, referencesOfBody_append, referencesOfBody, List.map_append, hnumbers]

namespace Context

theorem fill_declared? (hd : s'.declared? = s.declared?) (K : Context) :
    (K.fill s').declared? = (K.fill s).declared? := by
  cases K with
  | here => exact hd
  | _ => rfl

/-- The references keep their numbers. -/
theorem fill_numbers (hnumbers : s'.numbers = s.numbers) (K : Context) :
    (K.fill s').numbers = (K.fill s).numbers := by
  induction K with
  | here => exact hnumbers
  | block before inner after ih => exact numbersOfBody_swap ih before after
  | thenBranch c inner e ih =>
    simp only [Stmt.numbers] at ih
    cases e <;> simp [fill, Stmt.numbers, Stmt.references, ih]
  | elseBranch c t inner ih =>
    simp only [Stmt.numbers] at ih
    simp [fill, Stmt.numbers, Stmt.references, ih]
  | loop c inner ih =>
    simp only [Stmt.numbers] at ih
    simp [fill, Stmt.numbers, Stmt.references, ih]
  | function name params before inner after ih => exact numbersOfBody_swap ih before after
  | method name superclass earlier own params before inner after later ih =>
    have hbody := numbersOfBody_swap ih before after
    simp only [numbersOfBody] at hbody
    simp only [fill, Stmt.numbers, Stmt.references, referencesOfMethods_append,
      referencesOfMethods, Routine.references, List.map_append, hbody]

end Context

theorem bodyProper_swap (hs : s.Proper → s'.Proper) {before after : List Stmt}
    (h : bodyProper (before ++ s :: after)) : bodyProper (before ++ s' :: after) := by
  simp only [bodyProper_iff, List.forall_mem_append, List.forall_mem_cons] at h ⊢
  exact ⟨h.1, hs h.2.1, h.2.2⟩

/-- What stands at a place of a proper tree is proper. -/
theorem Context.proper_of_fill (K : Context) (h : (K.fill s).Proper) : s.Proper := by
  have hmiddle : ∀ {before after : List Stmt} {t : Stmt}, bodyProper (before ++ t :: after) →
      t.Proper := by
    intro before after t h
    rw [bodyProper_iff] at h
    exact h t (by simp)
  induction K with
  | here => exact h
  | block before inner after ih => exact ih (hmiddle h)
  | thenBranch c inner e ih =>
    cases e with
    | none => exact ih h.2.2
    | some e => exact ih h.2.1.2
  | elseBranch c t inner ih => exact ih h.2.2.2
  | loop c inner ih => exact ih h.2.2
  | function name params before inner after ih => exact ih (hmiddle h.2.2)
  | method name superclass earlier own params before inner after later ih =>
    have hms := (methodsProper_iff _).1 h.2.2 (.mk own params (before ++ inner.fill s :: after))
      (by simp)
    exact ih (hmiddle hms.2.2)

/-- A tree stays proper. -/
theorem Context.fill_proper (hd : s'.declared? = s.declared?) (hs : s.Proper → s'.Proper)
    (K : Context) (h : (K.fill s).Proper) : (K.fill s').Proper := by
  induction K with
  | here => exact hs h
  | block before inner after ih => exact bodyProper_swap ih h
  | thenBranch c inner e ih =>
    cases e with
    | none =>
      obtain ⟨hc, hdt, ht⟩ := h
      exact ⟨hc, (fill_declared? hd inner).trans hdt, ih ht⟩
    | some e =>
      obtain ⟨hc, ⟨hdt, ht⟩, he⟩ := h
      exact ⟨hc, ⟨(fill_declared? hd inner).trans hdt, ih ht⟩, he⟩
  | elseBranch c t inner ih =>
    obtain ⟨hc, ht, hde, he⟩ := h
    exact ⟨hc, ht, (fill_declared? hd inner).trans hde, ih he⟩
  | loop c inner ih =>
    obtain ⟨hc, hdb, hb⟩ := h
    exact ⟨hc, (fill_declared? hd inner).trans hdb, ih hb⟩
  | function name params before inner after ih =>
    obtain ⟨hname, hparams, hbody⟩ := h
    exact ⟨hname, hparams, bodyProper_swap ih hbody⟩
  | method name superclass earlier own params before inner after later ih =>
    obtain ⟨hname, hsuper, hms⟩ := h
    refine ⟨hname, hsuper, ?_⟩
    simp only [methodsProper_iff, List.forall_mem_append, List.forall_mem_cons] at hms ⊢
    obtain ⟨hearlier, ⟨hmethod, hparams, hbody⟩, hlater⟩ := hms
    exact ⟨hearlier, ⟨hmethod, hparams, bodyProper_swap ih hbody⟩, hlater⟩

/-! ### Rules -/

/-- A statement that breaks no rule at the end of a path. -/
def Stmt.LawfulAt (path : Path) (s : Stmt) : Prop := ∀ site ∈ s.sites path, site.violation? = none

/-- Statements one after the other that break no rule at the end of a path. -/
def BodyLawfulAt (path : Path) (ss : List Stmt) : Prop :=
  ∀ site ∈ bodySites path ss, site.violation? = none

/-- A declared body that breaks no rule at the end of a path. -/
def Routine.LawfulAt (opener : Enclosure) (path : Path) (r : Routine) : Prop :=
  ∀ site ∈ r.sites opener path, site.violation? = none

/-- Methods that break no rule at the end of a path. -/
def MethodsLawfulAt (path : Path) (ms : List Routine) : Prop :=
  ∀ site ∈ methodSites path ms, site.violation? = none

theorem bodyLawfulAt_cons (path : Path) (s : Stmt) (ss : List Stmt) :
    BodyLawfulAt path (s :: ss) ↔
      s.LawfulAt path ∧ BodyLawfulAt (path.declareAll s.introduces) ss := by
  simp only [BodyLawfulAt, Stmt.LawfulAt, bodySites, List.forall_mem_append]

theorem methodsLawfulAt_cons (path : Path) (m : Routine) (ms : List Routine) :
    MethodsLawfulAt path (m :: ms) ↔
      m.LawfulAt (.method m.isInitializer) path ∧ MethodsLawfulAt path ms := by
  simp only [MethodsLawfulAt, Routine.LawfulAt, methodSites, List.forall_mem_append]

theorem Routine.lawfulAt_mk (opener : Enclosure) (path : Path) (name : Token) (params : List Token)
    (body : List Stmt) :
    (Routine.mk name params body).LawfulAt opener path ↔
      (∀ site ∈ parameterSites (⟨opener, []⟩ :: path) params, site.violation? = none) ∧
        BodyLawfulAt (Path.declareAll (⟨opener, []⟩ :: path) (params.map Token.lexeme)) body := by
  simp only [Routine.LawfulAt, BodyLawfulAt, Routine.sites, List.forall_mem_append]

theorem Stmt.lawfulAt_function (path : Path) (r : Routine) :
    (Stmt.function r).LawfulAt path ↔
      (Site.mk path none (.declares r.name)).violation? = none ∧
        r.LawfulAt .function (path.declare r.name.lexeme) := by
  simp only [Stmt.LawfulAt, Routine.LawfulAt, Stmt.sites, List.forall_mem_cons]

/-- What a class breaks apart from its methods does not depend on these. -/
theorem Stmt.lawfulAt_classDecl (path : Path) (name : Token) (superclass : Option Reference) :
    ∃ (path' : Path) (P : Prop), ∀ methods : List Routine,
      (Stmt.classDecl name superclass methods).LawfulAt path ↔
        P ∧ MethodsLawfulAt path' methods := by
  cases superclass with
  | none =>
    exact ⟨⟨.object false, [thisName]⟩ :: path.declare name.lexeme,
      (Site.mk path none (.declares name)).violation? = none, fun _ => List.forall_mem_cons⟩
  | some ref =>
    exact ⟨⟨.object true, [thisName]⟩ :: ⟨.superclass, [superName]⟩ :: path.declare name.lexeme,
      ∀ site ∈ ([⟨path, none, .declares name⟩,
        ⟨path.declare name.lexeme, none, .inherits name ref.name⟩,
        ⟨path.declare name.lexeme, none, .reads ref⟩] : List Site), site.violation? = none,
      fun _ => List.forall_mem_append⟩

/-- One of the methods gives way to another one of its name. -/
theorem methodsLawfulAt_swap {m m' : Routine} (hname : m'.name = m.name) {path : Path}
    (hm : ∀ opener, m.LawfulAt opener path → m'.LawfulAt opener path) (earlier later : List Routine)
    (h : MethodsLawfulAt path (earlier ++ m :: later)) :
    MethodsLawfulAt path (earlier ++ m' :: later) := by
  induction earlier with
  | nil =>
    rw [List.nil_append, methodsLawfulAt_cons] at h ⊢
    rw [Routine.isInitializer, hname]
    exact ⟨hm _ h.1, h.2⟩
  | cons r earlier ih =>
    rw [List.cons_append, methodsLawfulAt_cons] at h ⊢
    exact ⟨h.1, ih h.2⟩

theorem bodyLawfulAt_swap (hs : ∀ path, s.LawfulAt path → s'.LawfulAt path)
    (hnames : s'.introduces = s.introduces) (before after : List Stmt) (path : Path)
    (h : BodyLawfulAt path (before ++ s :: after)) :
    BodyLawfulAt path (before ++ s' :: after) := by
  induction before generalizing path with
  | nil =>
    rw [List.nil_append, bodyLawfulAt_cons] at h ⊢
    rw [hnames]
    exact ⟨hs path h.1, h.2⟩
  | cons t before ih =>
    rw [List.cons_append, bodyLawfulAt_cons] at h ⊢
    exact ⟨h.1, ih _ h.2⟩

/-- A proper statement declares at most the one name that it is a declaration of. -/
theorem Stmt.Proper.introduces : ∀ s : Stmt, s.Proper →
    s.introduces = s.declared?.toList.map Token.lexeme
  | .expression _, _ | .print _, _ | .var .., _ | .block _, _ | .function _, _ | .ret .., _
  | .classDecl .., _ => rfl
  | .cond _ t none, ⟨_, hd, ht⟩ => by
    rw [Stmt.introduces, Stmt.Proper.introduces t ht, hd]
    rfl
  | .cond _ t (some e), ⟨_, ⟨hd, ht⟩, hd', he⟩ => by
    rw [Stmt.introduces, Stmt.Proper.introduces t ht, hd, Stmt.Proper.introduces e he, hd']
    rfl
  | .loop _ body, ⟨_, hd, hb⟩ => by
    rw [Stmt.introduces, Stmt.Proper.introduces body hb, hd]
    rfl

namespace Context

theorem fill_introduces (hnames : s'.introduces = s.introduces) (K : Context) :
    (K.fill s').introduces = (K.fill s).introduces := by
  induction K with
  | here => exact hnames
  | thenBranch c inner e ih => cases e <;> simp only [fill, Stmt.introduces, ih]
  | elseBranch c t inner ih => simp only [fill, Stmt.introduces, ih]
  | loop c inner ih => exact ih
  | _ => rfl

/-- The tree breaks no rule either. -/
theorem fill_lawfulAt (hs : ∀ path, s.LawfulAt path → s'.LawfulAt path)
    (hnames : s'.introduces = s.introduces) (K : Context) (path : Path)
    (h : (K.fill s).LawfulAt path) : (K.fill s').LawfulAt path := by
  induction K generalizing path with
  | here => exact hs path h
  | block before inner after ih =>
    exact bodyLawfulAt_swap ih (fill_introduces hnames inner) before after _ h
  | thenBranch c inner e ih =>
    cases e with
    | none =>
      simp only [fill, Stmt.LawfulAt, Stmt.sites, List.forall_mem_append] at h ⊢
      exact ⟨h.1, ih path h.2⟩
    | some e =>
      simp only [fill, Stmt.LawfulAt, Stmt.sites, List.forall_mem_append,
        fill_introduces hnames inner] at h ⊢
      exact ⟨h.1, ih path h.2.1, h.2.2⟩
  | elseBranch c t inner ih =>
    simp only [fill, Stmt.LawfulAt, Stmt.sites, List.forall_mem_append] at h ⊢
    exact ⟨h.1, h.2.1, ih _ h.2.2⟩
  | loop c inner ih =>
    simp only [fill, Stmt.LawfulAt, Stmt.sites, List.forall_mem_append] at h ⊢
    exact ⟨h.1, ih path h.2⟩
  | function name params before inner after ih =>
    rw [fill, Stmt.lawfulAt_function, Routine.lawfulAt_mk] at h ⊢
    exact ⟨h.1, h.2.1, bodyLawfulAt_swap ih (fill_introduces hnames inner) before after _ h.2.2⟩
  | method name superclass earlier own params before inner after later ih =>
    obtain ⟨path', P, hclass⟩ := Stmt.lawfulAt_classDecl path name superclass
    rw [fill, hclass] at h ⊢
    refine ⟨h.1, methodsLawfulAt_swap ?_ (fun opener hm => ?_) earlier later h.2⟩
    · rfl
    rw [Routine.lawfulAt_mk] at hm ⊢
    exact ⟨hm.1, bodyLawfulAt_swap ih (fill_introduces hnames inner) before after _ hm.2⟩

end Context

end

/-! ### Unused names -/

/-- A statement inside `k` local scopes that neither declares nor refers to a name. -/
def Stmt.Avoids (z : String) (k : Nat) (s : Stmt) : Prop :=
  (∀ ref ∈ s.references, ref.name.lexeme ≠ z) ∧ ∀ d ∈ s.declarations k, d.2 ≠ z

/-- A declared body that neither declares nor refers to a name. -/
def Routine.Avoids (z : String) (k : Nat) (r : Routine) : Prop :=
  (∀ ref ∈ r.references, ref.name.lexeme ≠ z) ∧ ∀ d ∈ r.declarations k, d.2 ≠ z

/-- Statements that neither declare nor refer to a name. -/
def BodyAvoids (z : String) (k : Nat) (ss : List Stmt) : Prop :=
  (∀ ref ∈ referencesOfBody ss, ref.name.lexeme ≠ z) ∧ ∀ d ∈ declarationsOfBody k ss, d.2 ≠ z

instance (z : String) (k : Nat) (ss : List Stmt) : Decidable (BodyAvoids z k ss) :=
  inferInstanceAs (Decidable (_ ∧ _))

/-- Methods that neither declare nor refer to a name. -/
def MethodsAvoid (z : String) (k : Nat) (ms : List Routine) : Prop :=
  (∀ ref ∈ referencesOfMethods ms, ref.name.lexeme ≠ z) ∧ ∀ d ∈ declarationsOfMethods k ms, d.2 ≠ z

section

variable {z : String} {k : Nat}

theorem bodyAvoids_cons {s : Stmt} {ss : List Stmt} :
    BodyAvoids z k (s :: ss) ↔ s.Avoids z k ∧ BodyAvoids z k ss := by
  simp only [BodyAvoids, Stmt.Avoids, referencesOfBody, declarationsOfBody, List.forall_mem_append]
  tauto

theorem bodyAvoids_append {ss ss' : List Stmt} :
    BodyAvoids z k (ss ++ ss') ↔ BodyAvoids z k ss ∧ BodyAvoids z k ss' := by
  simp only [BodyAvoids, referencesOfBody_append, declarationsOfBody_append, List.forall_mem_append]
  tauto

theorem methodsAvoid_cons {m : Routine} {ms : List Routine} :
    MethodsAvoid z k (m :: ms) ↔ m.Avoids z k ∧ MethodsAvoid z k ms := by
  simp only [MethodsAvoid, Routine.Avoids, referencesOfMethods, declarationsOfMethods,
    List.forall_mem_append]
  tauto

theorem methodsAvoid_append {ms ms' : List Routine} :
    MethodsAvoid z k (ms ++ ms') ↔ MethodsAvoid z k ms ∧ MethodsAvoid z k ms' := by
  simp only [MethodsAvoid, referencesOfMethods_append, declarationsOfMethods_append,
    List.forall_mem_append]
  tauto

theorem Routine.avoids_mk {name : Token} {params : List Token} {body : List Stmt} :
    (Routine.mk name params body).Avoids z k ↔
      (∀ p ∈ params, p.lexeme ≠ z) ∧ BodyAvoids z (k + 1) body := by
  simp only [Routine.Avoids, BodyAvoids, Routine.references, Routine.declarations,
    List.forall_mem_append, List.forall_mem_map]
  tauto

theorem Stmt.avoids_cond {c : Expr} {t : Stmt} :
    (Stmt.cond c t none).Avoids z k ↔
      (∀ ref ∈ c.references, ref.name.lexeme ≠ z) ∧ t.Avoids z k := by
  simp only [Stmt.Avoids, Stmt.references, Stmt.declarations, List.forall_mem_append, and_assoc]

theorem Stmt.avoids_condElse {c : Expr} {t e : Stmt} :
    (Stmt.cond c t (some e)).Avoids z k ↔
      (∀ ref ∈ c.references, ref.name.lexeme ≠ z) ∧ t.Avoids z k ∧ e.Avoids z k := by
  simp only [Stmt.Avoids, Stmt.references, Stmt.declarations, List.forall_mem_append]
  tauto

theorem Stmt.avoids_loop {c : Expr} {body : Stmt} :
    (Stmt.loop c body).Avoids z k ↔
      (∀ ref ∈ c.references, ref.name.lexeme ≠ z) ∧ body.Avoids z k := by
  simp only [Stmt.Avoids, Stmt.references, Stmt.declarations, List.forall_mem_append, and_assoc]

theorem Stmt.avoids_function {r : Routine} :
    (Stmt.function r).Avoids z k ↔ r.name.lexeme ≠ z ∧ r.Avoids z k := by
  simp only [Stmt.Avoids, Routine.Avoids, Stmt.references, Stmt.declarations, List.forall_mem_cons]
  tauto

/-- A class avoids a name if its superclass and its methods do. -/
theorem Stmt.avoids_classDecl (name : Token) (superclass : Option Reference)
    (methods : List Routine) :
    ∃ k', (Stmt.classDecl name superclass methods).Avoids z k ↔
      name.lexeme ≠ z ∧ (∀ ref, superclass = some ref → ref.name.lexeme ≠ z) ∧
        MethodsAvoid z k' methods := by
  cases superclass with
  | none =>
    refine ⟨k + 1, ?_⟩
    simp only [Stmt.Avoids, MethodsAvoid, Stmt.references, Stmt.declarations, Option.toList_none,
      List.nil_append, List.forall_mem_cons, reduceCtorEq, false_implies, implies_true, true_and]
    tauto
  | some ref =>
    refine ⟨k + 2, ?_⟩
    simp only [Stmt.Avoids, MethodsAvoid, Stmt.references, Stmt.declarations, Option.toList_some,
      List.cons_append, List.nil_append, List.forall_mem_cons, Option.some.injEq, forall_eq']
    tauto

/-- What a statement declares is not the name that it avoids. -/
theorem Stmt.Avoids.introduces : ∀ s : Stmt, s.Avoids z k → ∀ x ∈ s.introduces, x ≠ z
  | .expression _, _ | .print _, _ | .block _, _ | .ret .., _ => nofun
  | .var .., h | .function _, h | .classDecl _ none _, h | .classDecl _ (some _) _, h => by
    simp only [Stmt.introduces, List.forall_mem_singleton]
    exact h.2 _ List.mem_cons_self
  | .cond _ t none, h => Stmt.Avoids.introduces t (Stmt.avoids_cond.1 h).2
  | .cond _ t (some e), h => by
    obtain ⟨-, ht, he⟩ := Stmt.avoids_condElse.1 h
    exact List.forall_mem_append.2
      ⟨Stmt.Avoids.introduces t ht, Stmt.Avoids.introduces e he⟩
  | .loop _ body, h => Stmt.Avoids.introduces body (Stmt.avoids_loop.1 h).2

end

namespace Context

/-- A name that the tree does not use is not used at the place. -/
theorem avoids_of_fill {z : String} {s : Stmt} (K : Context) (k : Nat)
    (h : (K.fill s).Avoids z k) : ∃ k', s.Avoids z k' := by
  induction K generalizing k with
  | here => exact ⟨k, h⟩
  | block before inner after ih =>
    have hbody : BodyAvoids z (k + 1) (before ++ inner.fill s :: after) := h
    exact ih (k + 1) (bodyAvoids_cons.1 (bodyAvoids_append.1 hbody).2).1
  | thenBranch c inner e ih =>
    cases e with
    | none => exact ih k (Stmt.avoids_cond.1 h).2
    | some e => exact ih k (Stmt.avoids_condElse.1 h).2.1
  | elseBranch c t inner ih => exact ih k (Stmt.avoids_condElse.1 h).2.2
  | loop c inner ih => exact ih k (Stmt.avoids_loop.1 h).2
  | function name params before inner after ih =>
    have hbody := (Routine.avoids_mk.1 (Stmt.avoids_function.1 h).2).2
    exact ih (k + 1) (bodyAvoids_cons.1 (bodyAvoids_append.1 hbody).2).1
  | method name superclass earlier own params before inner after later ih =>
    obtain ⟨k', hclass⟩ := Stmt.avoids_classDecl name superclass
      (earlier ++ .mk own params (before ++ inner.fill s :: after) :: later)
    have hown := (methodsAvoid_cons.1 (methodsAvoid_append.1 (hclass.1 h).2.2).2).1
    exact ih (k' + 1) (bodyAvoids_cons.1 (bodyAvoids_append.1 (Routine.avoids_mk.1 hown).2).2).1

end Context

/-! ### Variants -/

section

variable {L : Ledger} {braces : Prop} {s s' : Stmt}

/-- One of several statements gives way to a variant. -/
theorem bodyVariant_swap {inBody isLocal : Bool} {Γ : Scopes} (hd : s'.declared? = s.declared?)
    (hs : ∀ Γ, s.Scoped L inBody Γ → Stmt.Variant braces isLocal .same s s')
    (before after : List Stmt) (h : bodyScoped L inBody Γ (before ++ s :: after)) :
    BodyVariant braces isLocal .same (before ++ s :: after) (before ++ s' :: after) := by
  induction before generalizing Γ with
  | nil =>
    have hafter : Pairing.same.after isLocal s s' = .same := by
      rw [Pairing.after, hd]
      exact Pairing.after_same isLocal s
    refine .cons (hs Γ h.1) ?_
    rw [hafter]
    exact bodyScoped.variant after h.2
  | cons t before ih =>
    refine .cons (.congruent (Stmt.Scoped.congruent t h.1)) ?_
    rw [Pairing.after_same]
    exact ih h.2

theorem methodsVariant_swap {Γ : Scopes} {m m' : Routine}
    (hm : m.Scoped L Γ → Routine.Variant braces .same m m') (earlier later : List Routine)
    (h : methodsScoped L Γ (earlier ++ m :: later)) :
    MethodsVariant braces .same (earlier ++ m :: later) (earlier ++ m' :: later) := by
  induction earlier with
  | nil => exact .cons (hm h.1) (methodsScoped.variant later h.2)
  | cons r earlier ih => exact .cons (Routine.Scoped.variant r h.1) (ih h.2)

/-- **A variant at a place** makes a variant of the whole. -/
theorem Context.fill_variant (hd : s'.declared? = s.declared?)
    (hs : ∀ (inBody isLocal : Bool) (Γ : Scopes), s.Scoped L inBody Γ →
      Stmt.Variant braces isLocal .same s s')
    (K : Context) {inBody isLocal : Bool} {Γ : Scopes} (h : (K.fill s).Scoped L inBody Γ) :
    Stmt.Variant braces isLocal .same (K.fill s) (K.fill s') := by
  induction K generalizing inBody isLocal Γ with
  | here => exact hs inBody isLocal Γ h
  | block before inner after ih =>
    refine .congruent (.block ?_)
    exact bodyVariant_swap (inner.fill_declared? hd) (fun _ => ih) before after h
  | thenBranch c inner e ih =>
    cases e with
    | none =>
      obtain ⟨hc, hdt, ht⟩ := h
      exact .congruent (.cond (Expr.Scoped.variant c hc) (ih ht) hdt)
    | some e =>
      obtain ⟨hc, ⟨hdt, ht⟩, hde, he⟩ := h
      exact .congruent (.condElse (Expr.Scoped.variant c hc) (ih ht) hdt
        (.congruent (Stmt.Scoped.congruent e he)) hde)
  | elseBranch c t inner ih =>
    obtain ⟨hc, ⟨hdt, ht⟩, hde, he⟩ := h
    exact .congruent (.condElse (Expr.Scoped.variant c hc)
      (.congruent (Stmt.Scoped.congruent t ht)) hdt (ih he) hde)
  | loop c inner ih =>
    obtain ⟨hc, hdb, hb⟩ := h
    exact .congruent (.loop (Expr.Scoped.variant c hc) (ih hb) hdb)
  | function name params before inner after ih =>
    obtain ⟨-, -, -, hbody⟩ := h
    refine .congruent (.function ?_)
    rw [Pairing.declare_same]
    refine .mk name (respells_refl params) ?_
    rw [Pairing.bindAll_same]
    exact bodyVariant_swap (inner.fill_declared? hd) (fun _ => ih) before after hbody
  | method name superclass earlier own params before inner after later ih =>
    have hown : ∀ {Γ : Scopes},
        (Routine.mk own params (before ++ inner.fill s :: after)).Scoped L Γ →
        Routine.Variant braces .same (.mk own params (before ++ inner.fill s :: after))
          (.mk own params (before ++ inner.fill s' :: after)) := by
      rintro Γ ⟨-, -, hbody⟩
      refine .mk own (respells_refl params) ?_
      rw [Pairing.bindAll_same]
      exact bodyVariant_swap (inner.fill_declared? hd) (fun _ => ih) before after hbody
    cases superclass with
    | none =>
      obtain ⟨-, hms⟩ := h
      refine .congruent (.base name ?_)
      rw [Pairing.declare_same, Pairing.bind_same]
      exact methodsVariant_swap hown earlier later hms
    | some ref =>
      obtain ⟨-, -, hms⟩ := h
      refine .congruent (.derived name ?_ ?_)
      · rw [Pairing.declare_same]
        exact .refl ref
      · rw [Pairing.declare_same, Pairing.bind_same, Pairing.bind_same]
        exact methodsVariant_swap hown earlier later hms

end

end Lox
