/-
**Rules inside a block of one's own.**

A statement that declares nothing breaks no rule more or less when it is put into a block of its
own.  What the rules ask of the scopes around a place is little: which class and which function it
lies in, and, where something is declared, what the innermost scope holds already.  A block in
between changes nothing of the first, and the second matters only inside scopes that the statement
opens itself.

Main definitions:

* `Lox.Path.Like` — **paths that are alike** for the rules and for certain declarations.

Main results:

* `Lox.Stmt.lawfulAt_of_like` — a statement breaks no rule at the end of one path if it breaks none
  at the end of the other;
* `Lox.Stmt.lawfulAt_block` — **braces break no rule**.
-/

import Lox.Proofs.Tree.Context

set_option relaxedAutoImplicit false
set_option autoImplicit false

namespace Lox

/-! ### Paths that are alike -/

/-- Paths that are **alike** for the rules, as long as nothing but certain names is declared.  What
the innermost scope holds matters for these only. -/
structure Path.Like (mayDeclare : String → Prop) (path path' : Path) : Prop where
  class?_eq : path'.class? = path.class?
  routine?_eq : path'.routine? = path.routine?
  innermost_of : ∀ x, mayDeclare x → x ∈ path'.innermost → x ∈ path.innermost
  top : ∀ x, mayDeclare x → path = [] → path' = []

namespace Path.Like

variable {mayDeclare : String → Prop} {path path' : Path}

theorem refl (path : Path) : Like mayDeclare path path :=
  ⟨rfl, rfl, fun _ _ hx => hx, fun _ _ htop => htop⟩

theorem mono {mayDeclare' : String → Prop} (h : Like mayDeclare path path')
    (hmay : ∀ x, mayDeclare' x → mayDeclare x) : Like mayDeclare' path path' :=
  { h with
    innermost_of := fun x hx => h.innermost_of x (hmay x hx)
    top := fun x hx => h.top x (hmay x hx) }

/-- Outside of initializers. -/
theorem outside (h : Like mayDeclare path path') : Like (none = some ·) path path' :=
  h.mono fun _ hx => by cases hx

/-- The same scope inside both. -/
theorem push {mayDeclare' : String → Prop} (h : Like mayDeclare path path') (frame : Frame) :
    Like mayDeclare' (frame :: path) (frame :: path') where
  class?_eq := by
    have hclass := h.class?_eq
    simp only [Path.class?, List.map_cons, List.findSome?_cons] at hclass ⊢
    rw [hclass]
  routine?_eq := by
    have hroutine := h.routine?_eq
    simp only [Path.routine?, List.map_cons, List.find?_cons] at hroutine ⊢
    rw [hroutine]
  innermost_of := fun _ _ hx => hx
  top := fun _ _ hpath => absurd hpath (List.cons_ne_nil _ _)

/-- A name is declared at the end of both, which is the same or must not be declared again. -/
theorem declarePair (h : Like mayDeclare path path') (x x' : String) (hx : mayDeclare x' → x' = x) :
    Like mayDeclare (path.declare x) (path'.declare x') where
  class?_eq := by simp only [Path.class?_declare, h.class?_eq]
  routine?_eq := by simp only [Path.routine?_declare, h.routine?_eq]
  innermost_of := fun y hy hmem => by
    have hinnermost := h.innermost_of y hy
    have htop := h.top y hy
    cases path with
    | nil =>
      rw [htop rfl] at hmem
      cases hmem
    | cons frame outer =>
      cases path' with
      | nil => cases hmem
      | cons frame' outer' =>
        rcases List.mem_cons.1 hmem with rfl | hmem
        · rw [hx hy]
          exact List.mem_cons_self
        · exact List.mem_cons_of_mem _ (hinnermost hmem)
  top := fun y hy hpath => by
    have htop := h.top y hy
    cases path with
    | nil => rw [htop rfl, Path.declare_nil]
    | cons frame outer => cases hpath

/-- The same name is declared at the end of both. -/
theorem declare (h : Like mayDeclare path path') (x : String) :
    Like mayDeclare (path.declare x) (path'.declare x) :=
  h.declarePair x x fun _ => rfl

theorem declareAll (h : Like mayDeclare path path') (xs : List String) :
    Like mayDeclare (path.declareAll xs) (path'.declareAll xs) := by
  induction xs generalizing path path' with
  | nil => exact h
  | cons x xs ih => exact ih (h.declare x)

/-- Another block around a place where nothing is declared. -/
theorem block (path : Path) : Like (fun _ => False) path (⟨.block, []⟩ :: path) where
  class?_eq := rfl
  routine?_eq := rfl
  innermost_of := nofun
  top := nofun

/-- A declaration breaks no rule. -/
theorem declaration (h : Like mayDeclare path path') {name : Token} (hname : mayDeclare name.lexeme)
    (hsite : (Site.mk path none (.declares name)).violation? = none) :
    (Site.mk path' none (.declares name)).violation? = none := by
  have hnot : name.lexeme ∉ path.innermost := by simpa [Site.violation?] using hsite
  have hnot' : name.lexeme ∉ path'.innermost := mt (h.innermost_of _ hname) hnot
  simpa [Site.violation?] using hnot'

end Path.Like

/-! ### Expressions -/

section

variable {path path' : Path} {i : Option String}

mutual

/-- An expression breaks no rule, in an initializer or not. -/
theorem Expr.lawfulAt_of_like (hlike : Path.Like (i = some ·) path path') : ∀ e : Expr,
    (∀ site ∈ e.sites path i, site.violation? = none) →
    ∀ site ∈ e.sites path' i, site.violation? = none
  | .literal _, h | .hole _, h => h
  | .grouping e, h | .unary _ e, h | .get e _, h => Expr.lawfulAt_of_like hlike e h
  | .binary l _ r, h | .logical l _ r, h => by
    simp only [Expr.sites, List.forall_mem_append] at h ⊢
    exact ⟨Expr.lawfulAt_of_like hlike l h.1, Expr.lawfulAt_of_like hlike r h.2⟩
  | .variable ref, h => by
    simp only [Expr.sites, List.forall_mem_singleton, Site.violation?, ite_eq_right_iff,
      reduceCtorEq, imp_false] at h ⊢
    rintro ⟨hpath', hi⟩
    exact h ⟨mt (hlike.top _ hi) hpath', hi⟩
  | .assign ref e, h => by
    simp only [Expr.sites, List.forall_mem_append, List.forall_mem_singleton] at h ⊢
    exact ⟨Expr.lawfulAt_of_like hlike e h.1, rfl⟩
  | .call f _ es, h => by
    simp only [Expr.sites, List.forall_mem_append] at h ⊢
    exact ⟨Expr.lawfulAt_of_like hlike f h.1, argumentSites_of_like hlike es h.2⟩
  | .set o _ e, h => by
    simp only [Expr.sites, List.forall_mem_append] at h ⊢
    exact ⟨Expr.lawfulAt_of_like hlike e h.1, Expr.lawfulAt_of_like hlike o h.2⟩
  | .this ref, h => by
    simpa only [Expr.sites, List.forall_mem_singleton, Site.violation?, hlike.class?_eq] using h
  | .super ref _, h => by
    simpa only [Expr.sites, List.forall_mem_singleton, Site.violation?, hlike.class?_eq] using h

theorem argumentSites_of_like (hlike : Path.Like (i = some ·) path path') : ∀ es : List Expr,
    (∀ site ∈ argumentSites path i es, site.violation? = none) →
    ∀ site ∈ argumentSites path' i es, site.violation? = none
  | [], h => h
  | e :: es, h => by
    simp only [argumentSites, List.forall_mem_append] at h ⊢
    exact ⟨Expr.lawfulAt_of_like hlike e h.1, argumentSites_of_like hlike es h.2⟩

end

theorem optionalSites_of_like (hlike : Path.Like (i = some ·) path path') (e? : Option Expr)
    (h : ∀ site ∈ optionalSites path i e?, site.violation? = none) :
    ∀ site ∈ optionalSites path' i e?, site.violation? = none := by
  cases e? with
  | none => exact h
  | some e => exact Expr.lawfulAt_of_like hlike e h

theorem parameterSites_of_like {mayDeclare : String → Prop}
    (hlike : Path.Like mayDeclare path path') (ps : List Token)
    (hps : ∀ p ∈ ps, mayDeclare p.lexeme)
    (h : ∀ site ∈ parameterSites path ps, site.violation? = none) :
    ∀ site ∈ parameterSites path' ps, site.violation? = none := by
  induction ps generalizing path path' with
  | nil => exact h
  | cons p ps ih =>
    simp only [parameterSites, List.forall_mem_cons] at h hps ⊢
    exact ⟨hlike.declaration hps.1 h.1, ih (hlike.declare p.lexeme) hps.2 h.2⟩

end

/-! ### Statements -/

mutual

/-- A statement **breaks no rule** at the end of a path that is like another one for what it
declares itself. -/
theorem Stmt.lawfulAt_of_like {path path' : Path} : ∀ s : Stmt,
    Path.Like (· ∈ s.introduces) path path' → s.LawfulAt path → s.LawfulAt path'
  | .expression e, hlike, h | .print e, hlike, h => Expr.lawfulAt_of_like hlike.outside e h
  | .var name e?, hlike, h => by
    simp only [Stmt.LawfulAt, Stmt.sites, List.forall_mem_cons] at h ⊢
    refine ⟨hlike.declaration List.mem_cons_self h.1, ?_⟩
    have hown : ∀ x, some name.lexeme = some x → x ∈ (Stmt.var name e?).introduces := by
      rintro x ⟨⟩
      exact List.mem_cons_self
    exact optionalSites_of_like ((hlike.declare name.lexeme).mono hown) e? h.2
  | .block body, hlike, h => bodyLawfulAt_of_like body (hlike.push ⟨.block, []⟩) h
  | .cond c t none, hlike, h => by
    simp only [Stmt.LawfulAt, Stmt.sites, List.forall_mem_append] at h ⊢
    exact ⟨Expr.lawfulAt_of_like hlike.outside c h.1, Stmt.lawfulAt_of_like t hlike h.2⟩
  | .cond c t (some e), hlike, h => by
    simp only [Stmt.LawfulAt, Stmt.sites, List.forall_mem_append] at h ⊢
    refine ⟨Expr.lawfulAt_of_like hlike.outside c h.1,
      Stmt.lawfulAt_of_like t (hlike.mono fun x => List.mem_append_left _) h.2.1, ?_⟩
    exact Stmt.lawfulAt_of_like e ((hlike.declareAll _).mono fun x => List.mem_append_right _) h.2.2
  | .loop c body, hlike, h => by
    simp only [Stmt.LawfulAt, Stmt.sites, List.forall_mem_append] at h ⊢
    exact ⟨Expr.lawfulAt_of_like hlike.outside c h.1, Stmt.lawfulAt_of_like body hlike h.2⟩
  | .function r, hlike, h => by
    rw [Stmt.lawfulAt_function] at h ⊢
    exact ⟨hlike.declaration List.mem_cons_self h.1,
      Routine.lawfulAt_of_like r (hlike.declare r.name.lexeme) h.2⟩
  | .ret keyword e?, hlike, h => by
    simp only [Stmt.LawfulAt, Stmt.sites, List.forall_mem_cons] at h ⊢
    refine ⟨?_, optionalSites_of_like hlike.outside e? h.2⟩
    simpa only [Site.violation?, hlike.routine?_eq] using h.1
  | .classDecl name none methods, hlike, h => by
    simp only [Stmt.LawfulAt, Stmt.sites, List.forall_mem_cons] at h ⊢
    exact ⟨hlike.declaration List.mem_cons_self h.1,
      methodsLawfulAt_of_like methods ((hlike.declare name.lexeme).push _) h.2⟩
  | .classDecl name (some ref) methods, hlike, h => by
    simp only [Stmt.LawfulAt, Stmt.sites, List.cons_append, List.nil_append,
      List.forall_mem_cons] at h ⊢
    refine ⟨hlike.declaration List.mem_cons_self h.1, h.2.1, by simp [Site.violation?], ?_⟩
    have hclass : Path.Like (fun _ => True) _ _ :=
      (hlike.declare name.lexeme).push ⟨.superclass, [superName]⟩
    exact methodsLawfulAt_of_like methods (hclass.push _) h.2.2.2

theorem Routine.lawfulAt_of_like {mayDeclare : String → Prop} {opener : Enclosure}
    {path path' : Path} : ∀ r : Routine, Path.Like mayDeclare path path' →
    r.LawfulAt opener path → r.LawfulAt opener path'
  | .mk name params body, hlike, h => by
    rw [Routine.lawfulAt_mk] at h ⊢
    have hinside : Path.Like (fun _ => True) _ _ := hlike.push ⟨opener, []⟩
    exact ⟨parameterSites_of_like hinside params (fun _ _ => trivial) h.1,
      bodyLawfulAt_of_like body (hinside.declareAll _) h.2⟩

theorem bodyLawfulAt_of_like {path path' : Path} : ∀ ss : List Stmt,
    Path.Like (fun _ => True) path path' → BodyLawfulAt path ss → BodyLawfulAt path' ss
  | [], _, h => h
  | s :: ss, hlike, h => by
    rw [bodyLawfulAt_cons] at h ⊢
    exact ⟨Stmt.lawfulAt_of_like s (hlike.mono fun _ _ => trivial) h.1,
      bodyLawfulAt_of_like ss (hlike.declareAll s.introduces) h.2⟩

theorem methodsLawfulAt_of_like {path path' : Path} : ∀ ms : List Routine,
    Path.Like (fun _ => True) path path' → MethodsLawfulAt path ms → MethodsLawfulAt path' ms
  | [], _, h => h
  | m :: ms, hlike, h => by
    rw [methodsLawfulAt_cons] at h ⊢
    exact ⟨Routine.lawfulAt_of_like m hlike h.1, methodsLawfulAt_of_like ms hlike h.2⟩

end

/-- **Braces break no rule** around a statement that declares nothing. -/
theorem Stmt.lawfulAt_block {s : Stmt} (hnames : s.introduces = []) (path : Path)
    (h : s.LawfulAt path) : (Stmt.block [s]).LawfulAt path := by
  have hlike : Path.Like (· ∈ s.introduces) path (⟨.block, []⟩ :: path) :=
    (Path.Like.block path).mono fun x hx => by simp [hnames] at hx
  have hinside := s.lawfulAt_of_like hlike h
  simpa only [Stmt.LawfulAt, Stmt.sites, bodySites, List.append_nil] using hinside

end Lox
