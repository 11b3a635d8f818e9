/-
**Renaming a local variable.**

A declaration of a local variable or of a parameter is given another name, and with it the
references that are bound to it: those that have its name and whose recorded distance leads to its
scope.  Going into a tree from the scope of the declaration, the distance grows by one with every
scope that is opened on the way.

Main definitions:

* `Lox.Renaming` — the recorded distances, the old name and the new one;
* `Lox.Reference.IsBound`, `Lox.Reference.rename` — a reference that is bound to the declaration,
  and its new name;
* `Lox.Expr.rename`, `Lox.Stmt.rename`, `Lox.renameBody` — **a tree with new names** `k` scopes
  inside the scope of the declaration;
* `Lox.BodyRenames`, `Lox.RoutineRenames`, `Lox.Stmt.Renames` — **one declaration** of a block, a
  function or a class **renamed**, with everything that is bound to it.

Main results:

* `Lox.Stmt.Renames.declared?_eq`, `Lox.Stmt.Renames.numbers_eq`, `Lox.Stmt.Renames.proper` — what
  stays the same.
-/

import Lox.Proofs.Tree.Context

set_option relaxedAutoImplicit false
set_option autoImplicit false

namespace Lox

/-- A **renaming**: what is recorded of references, the old name and the new one. -/
structure Renaming where
  distances : Distances
  old : String
  new : String

/-- A name is nothing that methods bind by themselves. -/
theorem IsName.plain {z : String} (h : IsName z) : IsPlain z := by
  constructor <;> rintro rfl <;> exact absurd h.2.2 (by decide)

/-! ### Trees with new names -/

namespace Reference

/-- The reference is **bound** to the declaration, whose scope is `k` scopes up. -/
def IsBound (σ : Renaming) (k : Nat) (ref : Reference) : Prop :=
  σ.distances[ref.id]? = some k ∧ ref.name.lexeme = σ.old

instance (σ : Renaming) (k : Nat) (ref : Reference) : Decidable (ref.IsBound σ k) :=
  inferInstanceAs (Decidable (_ ∧ _))

/-- A reference that is bound to the declaration has the new name. -/
def rename (σ : Renaming) (k : Nat) (ref : Reference) : Reference :=
  if ref.IsBound σ k then { ref with name := ref.name.respell σ.new } else ref

@[simp] theorem id_rename (σ : Renaming) (k : Nat) (ref : Reference) :
    (ref.rename σ k).id = ref.id := by
  unfold rename
  split <;> rfl

end Reference

mutual

/-- The expression with new names, `k` scopes inside the scope of the declaration. -/
def Expr.rename (σ : Renaming) (k : Nat) : Expr → Expr
  | .literal value => .literal value
  | .grouping e => .grouping (e.rename σ k)
  | .unary operator e => .unary operator (e.rename σ k)
  | .binary l operator r => .binary (l.rename σ k) operator (r.rename σ k)
  | .logical l operator r => .logical (l.rename σ k) operator (r.rename σ k)
  | .variable ref => .variable (ref.rename σ k)
  | .assign ref e => .assign (ref.rename σ k) (e.rename σ k)
  | .call f paren arguments => .call (f.rename σ k) paren (renameArguments σ k arguments)
  | .get object name => .get (object.rename σ k) name
  | .set object name e => .set (object.rename σ k) name (e.rename σ k)
  | .this ref => .this ref
  | .super ref method => .super ref method
  | .hole h => .hole h

/-- Arguments with new names. -/
def renameArguments (σ : Renaming) (k : Nat) : List Expr → List Expr
  | [] => []
  | e :: es => e.rename σ k :: renameArguments σ k es

end

mutual

/-- The statement with new names.  Every scope that is opened is one more to go up. -/
def Stmt.rename (σ : Renaming) (k : Nat) : Stmt → Stmt
  | .expression e => .expression (e.rename σ k)
  | .print e => .print (e.rename σ k)
  | .var name e? => .var name (e?.map (Expr.rename σ k))
  | .block body => .block (renameBody σ (k + 1) body)
  | .cond c t none => .cond (c.rename σ k) (t.rename σ k) none
  | .cond c t (some e) => .cond (c.rename σ k) (t.rename σ k) (some (e.rename σ k))
  | .loop c body => .loop (c.rename σ k) (body.rename σ k)
  | .function routine => .function (routine.rename σ k)
  | .ret keyword e? => .ret keyword (e?.map (Expr.rename σ k))
  | .classDecl name none methods => .classDecl name none (renameMethods σ (k + 1) methods)
  | .classDecl name (some ref) methods =>
    .classDecl name (some (ref.rename σ k)) (renameMethods σ (k + 2) methods)

/-- The declared body with new names. -/
def Routine.rename (σ : Renaming) (k : Nat) : Routine → Routine
  | .mk name params body => .mk name params (renameBody σ (k + 1) body)

/-- Statements with new names. -/
def renameBody (σ : Renaming) (k : Nat) : List Stmt → List Stmt
  | [] => []
  | s :: ss => s.rename σ k :: renameBody σ k ss

/-- Methods with new names. -/
def renameMethods (σ : Renaming) (k : Nat) : List Routine → List Routine
  | [] => []
  | m :: ms => m.rename σ k :: renameMethods σ k ms

end

/-! ### One declaration renamed -/

/-- A **variable** that one of the statements declares is renamed: in its own initializer, which may
assign it, and in everything behind. -/
inductive BodyRenames (σ : Renaming) : List Stmt → List Stmt → Prop
  | var (before : List Stmt) {name : Token} (hname : name.lexeme = σ.old) (e? : Option Expr)
      (after : List Stmt) :
      BodyRenames σ (before ++ .var name e? :: after)
        (before ++ .var (name.respell σ.new) (e?.map (Expr.rename σ 0)) :: renameBody σ 0 after)

/-- A **parameter** or a variable of a function or a method is renamed. -/
inductive RoutineRenames (σ : Renaming) : Routine → Routine → Prop
  | parameter (name : Token) (ps : List Token) {p : Token} (hp : p.lexeme = σ.old) (qs : List Token)
      (body : List Stmt) :
      RoutineRenames σ (.mk name (ps ++ p :: qs) body)
        (.mk name (ps ++ p.respell σ.new :: qs) (renameBody σ 0 body))
  | body (name : Token) (params : List Token) {body body' : List Stmt}
      (h : BodyRenames σ body body') :
      RoutineRenames σ (.mk name params body) (.mk name params body')

/-- **One declaration** of a statement's own scope, and everything that is bound to it, is
renamed. -/
inductive Stmt.Renames (σ : Renaming) : Stmt → Stmt → Prop
  | block {body body' : List Stmt} (h : BodyRenames σ body body') :
      Stmt.Renames σ (.block body) (.block body')
  | function {r r' : Routine} (h : RoutineRenames σ r r') :
      Stmt.Renames σ (.function r) (.function r')
  | method (name : Token) (superclass : Option Reference) (earlier : List Routine) {r r' : Routine}
      (h : RoutineRenames σ r r') (later : List Routine) :
      Stmt.Renames σ (.classDecl name superclass (earlier ++ r :: later))
        (.classDecl name superclass (earlier ++ r' :: later))

/-! ### What stays the same -/

section

variable {σ : Renaming}

theorem Stmt.declared?_rename (k : Nat) (s : Stmt) : (s.rename σ k).declared? = s.declared? := by
  cases s with
  | cond c t e => cases e <;> rfl
  | function r => cases r; rfl
  | classDecl name superclass methods => cases superclass <;> rfl
  | _ => rfl

theorem Stmt.introduces_rename (k : Nat) : ∀ s : Stmt, (s.rename σ k).introduces = s.introduces
  | .expression _ | .print _ | .var .. | .block _ | .ret .. | .classDecl _ none _
  | .classDecl _ (some _) _ => rfl
  | .function (.mk ..) => rfl
  | .cond _ t none => t.introduces_rename k
  | .cond _ t (some e) => by
    simp only [Stmt.rename, Stmt.introduces, t.introduces_rename k, e.introduces_rename k]
  | .loop _ body => body.introduces_rename k

theorem Routine.name_rename (k : Nat) (r : Routine) : (r.rename σ k).name = r.name := by
  cases r
  rfl

mutual

theorem Expr.numbers_rename (k : Nat) : ∀ e : Expr,
    (e.rename σ k).references.map (·.id) = e.references.map (·.id)
  | .literal _ | .this _ | .super .. | .hole _ => rfl
  | .grouping e | .unary _ e | .get e _ => e.numbers_rename k
  | .binary l _ r | .logical l _ r => by
    simp only [Expr.rename, Expr.references, List.map_append, l.numbers_rename k,
      r.numbers_rename k]
  | .variable ref => by
    simp only [Expr.rename, Expr.references, List.map_cons, List.map_nil, Reference.id_rename]
  | .assign ref e => by
    simp only [Expr.rename, Expr.references, List.map_cons, Reference.id_rename,
      e.numbers_rename k]
  | .call f _ es => by
    simp only [Expr.rename, Expr.references, List.map_append, f.numbers_rename k,
      numbersOfArguments_rename k es]
  | .set o _ e => by
    simp only [Expr.rename, Expr.references, List.map_append, o.numbers_rename k,
      e.numbers_rename k]

theorem numbersOfArguments_rename (k : Nat) : ∀ es : List Expr,
    (referencesOfArguments (renameArguments σ k es)).map (·.id) =
      (referencesOfArguments es).map (·.id)
  | [] => rfl
  | e :: es => by
    simp only [renameArguments, referencesOfArguments, List.map_append, e.numbers_rename k,
      numbersOfArguments_rename k es]

end

theorem numbersOfOptional_rename (k : Nat) (e? : Option Expr) :
    ((e?.map (Expr.rename σ k)).elim [] Expr.references).map (·.id) =
      (e?.elim [] Expr.references).map (·.id) := by
  cases e? with
  | none => rfl
  | some e => exact e.numbers_rename k

mutual

/-- References keep their numbers. -/
theorem Stmt.numbers_rename (k : Nat) : ∀ s : Stmt,
    (s.rename σ k).references.map (·.id) = s.references.map (·.id)
  | .expression e | .print e => e.numbers_rename k
  | .var _ e? | .ret _ e? => numbersOfOptional_rename k e?
  | .block body => numbersOfBody_rename (k + 1) body
  | .cond c t none => by
    simp only [Stmt.rename, Stmt.references, List.map_append, c.numbers_rename k,
      t.numbers_rename k]
  | .cond c t (some e) => by
    simp only [Stmt.rename, Stmt.references, List.map_append, c.numbers_rename k,
      t.numbers_rename k, e.numbers_rename k]
  | .loop c body => by
    simp only [Stmt.rename, Stmt.references, List.map_append, c.numbers_rename k,
      body.numbers_rename k]
  | .function (.mk _ _ body) => numbersOfBody_rename (k + 1) body
  | .classDecl _ none methods => numbersOfMethods_rename (k + 1) methods
  | .classDecl _ (some ref) methods => by
    simp only [Stmt.rename, Stmt.references, Option.toList_some, List.cons_append, List.nil_append,
      List.map_cons, Reference.id_rename, numbersOfMethods_rename (k + 2) methods]

theorem numbersOfBody_rename (k : Nat) : ∀ ss : List Stmt,
    (referencesOfBody (renameBody σ k ss)).map (·.id) = (referencesOfBody ss).map (·.id)
  | [] => rfl
  | s :: ss => by
    simp only [renameBody, referencesOfBody, List.map_append, s.numbers_rename k,
      numbersOfBody_rename k ss]

theorem numbersOfMethods_rename (k : Nat) : ∀ ms : List Routine,
    (referencesOfMethods (renameMethods σ k ms)).map (·.id) = (referencesOfMethods ms).map (·.id)
  | [] => rfl
  | .mk _ _ body :: ms => by
    simp only [renameMethods, referencesOfMethods, Routine.rename, Routine.references,
      List.map_append, numbersOfBody_rename (k + 1) body, numbersOfMethods_rename k ms]

end

/-! ### Proper trees -/

theorem Reference.plain_rename (hz : IsPlain σ.new) (k : Nat) {ref : Reference}
    (h : IsPlain ref.name.lexeme) : IsPlain (ref.rename σ k).name.lexeme := by
  unfold Reference.rename
  split
  · exact hz
  · exact h

mutual

theorem Expr.proper_rename (hz : IsPlain σ.new) (k : Nat) : ∀ e : Expr, e.Proper →
    (e.rename σ k).Proper
  | .literal _, h | .this _, h | .super .., h => h
  | .grouping e, h | .get e _, h => Expr.proper_rename hz k e h
  | .unary _ e, ⟨ho, he⟩ => ⟨ho, Expr.proper_rename hz k e he⟩
  | .binary l _ r, ⟨ho, hl, hr⟩ => ⟨ho, Expr.proper_rename hz k l hl, Expr.proper_rename hz k r hr⟩
  | .logical l _ r, ⟨hl, hr⟩ => ⟨Expr.proper_rename hz k l hl, Expr.proper_rename hz k r hr⟩
  | .variable _, h => Reference.plain_rename hz k h
  | .assign _ e, ⟨h, he⟩ => ⟨Reference.plain_rename hz k h, Expr.proper_rename hz k e he⟩
  | .call f _ es, ⟨hf, hes⟩ => ⟨Expr.proper_rename hz k f hf, argumentsProper_rename hz k es hes⟩
  | .set o _ e, ⟨ho, he⟩ => ⟨Expr.proper_rename hz k o ho, Expr.proper_rename hz k e he⟩

theorem argumentsProper_rename (hz : IsPlain σ.new) (k : Nat) : ∀ es : List Expr,
    argumentsProper es → argumentsProper (renameArguments σ k es)
  | [], _ => trivial
  | e :: es, ⟨he, hes⟩ => ⟨Expr.proper_rename hz k e he, argumentsProper_rename hz k es hes⟩

end

theorem optionalProper_rename (hz : IsPlain σ.new) (k : Nat) {e? : Option Expr}
    (h : optionalProper e?) : optionalProper (e?.map (Expr.rename σ k)) := by
  intro e' he'
  obtain ⟨e, rfl, rfl⟩ := Option.map_eq_some_iff.1 he'
  exact Expr.proper_rename hz k e (h e rfl)

mutual

/-- A proper statement stays proper. -/
theorem Stmt.proper_rename (hz : IsPlain σ.new) (k : Nat) : ∀ s : Stmt, s.Proper →
    (s.rename σ k).Proper
  | .expression e, h | .print e, h => Expr.proper_rename hz k e h
  | .var _ _, ⟨hname, he⟩ => ⟨hname, optionalProper_rename hz k he⟩
  | .ret _ _, h => optionalProper_rename hz k h
  | .block body, h => bodyProper_rename hz (k + 1) body h
  | .cond c t none, ⟨hc, hd, ht⟩ =>
    ⟨Expr.proper_rename hz k c hc, (t.declared?_rename k).trans hd, Stmt.proper_rename hz k t ht⟩
  | .cond c t (some e), ⟨hc, ⟨hd, ht⟩, hd', he⟩ =>
    ⟨Expr.proper_rename hz k c hc, ⟨(t.declared?_rename k).trans hd, Stmt.proper_rename hz k t ht⟩,
      (e.declared?_rename k).trans hd', Stmt.proper_rename hz k e he⟩
  | .loop c body, ⟨hc, hd, hb⟩ =>
    ⟨Expr.proper_rename hz k c hc, (body.declared?_rename k).trans hd,
      Stmt.proper_rename hz k body hb⟩
  | .function r, h => Routine.proper_rename hz k r h
  | .classDecl _ none ms, ⟨hname, _, hms⟩ => ⟨hname, nofun, methodsProper_rename hz (k + 1) ms hms⟩
  | .classDecl _ (some ref) ms, ⟨hname, href, hms⟩ => by
    refine ⟨hname, fun ref' href' => ?_, methodsProper_rename hz (k + 2) ms hms⟩
    obtain rfl := Option.some.inj href'
    exact Reference.plain_rename hz k (href ref rfl)

theorem Routine.proper_rename (hz : IsPlain σ.new) (k : Nat) : ∀ r : Routine, r.Proper →
    (r.rename σ k).Proper
  | .mk _ _ body, ⟨hname, hparams, hb⟩ => ⟨hname, hparams, bodyProper_rename hz (k + 1) body hb⟩

theorem bodyProper_rename (hz : IsPlain σ.new) (k : Nat) : ∀ ss : List Stmt, bodyProper ss →
    bodyProper (renameBody σ k ss)
  | [], _ => trivial
  | s :: ss, ⟨hs, hss⟩ => ⟨Stmt.proper_rename hz k s hs, bodyProper_rename hz k ss hss⟩

theorem methodsProper_rename (hz : IsPlain σ.new) (k : Nat) : ∀ ms : List Routine,
    methodsProper ms → methodsProper (renameMethods σ k ms)
  | [], _ => trivial
  | m :: ms, ⟨hm, hms⟩ => ⟨Routine.proper_rename hz k m hm, methodsProper_rename hz k ms hms⟩

end

/-! ### One declaration renamed -/

theorem BodyRenames.numbers_eq {body body' : List Stmt} (h : BodyRenames σ body body') :
    numbersOfBody body' = numbersOfBody body := by
  obtain ⟨before, -, e?, after⟩ := h
  simp only [numbersOfBody, referencesOfBody_append, referencesOfBody, Stmt.references,
    List.map_append, numbersOfOptional_rename, numbersOfBody_rename]

theorem BodyRenames.proper (hz : IsPlain σ.new) {body body' : List Stmt}
    (h : BodyRenames σ body body') (hbody : bodyProper body) : bodyProper body' := by
  obtain ⟨before, -, e?, after⟩ := h
  simp only [bodyProper_iff, List.forall_mem_append, List.forall_mem_cons] at hbody ⊢
  obtain ⟨hbefore, ⟨-, he⟩, hafter⟩ := hbody
  refine ⟨hbefore, ⟨hz, optionalProper_rename hz 0 he⟩, ?_⟩
  rw [← bodyProper_iff] at hafter ⊢
  exact bodyProper_rename hz 0 after hafter

theorem RoutineRenames.name_eq {r r' : Routine} (h : RoutineRenames σ r r') : r'.name = r.name := by
  cases h <;> rfl

theorem RoutineRenames.numbers_eq {r r' : Routine} (h : RoutineRenames σ r r') :
    r'.references.map (·.id) = r.references.map (·.id) := by
  cases h with
  | parameter name ps hp qs body => exact numbersOfBody_rename 0 body
  | body name params h => exact h.numbers_eq

theorem RoutineRenames.proper (hz : IsPlain σ.new) {r r' : Routine} (h : RoutineRenames σ r r')
    (hr : r.Proper) : r'.Proper := by
  cases h with
  | parameter name ps hp qs body =>
    obtain ⟨hname, hparams, hbody⟩ := hr
    simp only [List.forall_mem_append, List.forall_mem_cons] at hparams
    refine ⟨hname, ?_, bodyProper_rename hz 0 body hbody⟩
    simp only [List.forall_mem_append, List.forall_mem_cons]
    exact ⟨hparams.1, hz, hparams.2.2⟩
  | body name params h =>
    obtain ⟨hname, hparams, hbody⟩ := hr
    exact ⟨hname, hparams, h.proper hz hbody⟩

namespace Stmt.Renames

variable {s s' : Stmt}

/-- What is declared around the scope stays the same. -/
theorem declared?_eq (h : Stmt.Renames σ s s') : s'.declared? = s.declared? := by
  cases h with
  | function h => exact congrArg some h.name_eq
  | _ => rfl

theorem introduces_eq (h : Stmt.Renames σ s s') : s'.introduces = s.introduces := by
  cases h with
  | function h => exact congrArg (fun name : Token => [name.lexeme]) h.name_eq
  | _ => rfl

/-- References keep their numbers. -/
theorem numbers_eq (h : Stmt.Renames σ s s') : s'.numbers = s.numbers := by
  cases h with
  | block h => exact h.numbers_eq
  | function h => exact h.numbers_eq
  | method name superclass earlier h later =>
    simp only [Stmt.numbers, Stmt.references, referencesOfMethods_append, referencesOfMethods,
      List.map_append, h.numbers_eq]

/-- The tree stays proper. -/
theorem proper (h : Stmt.Renames σ s s') (hz : IsPlain σ.new) (hs : s.Proper) : s'.Proper := by
  cases h with
  | block h => exact h.proper hz hs
  | function h => exact h.proper hz hs
  | method name superclass earlier h later =>
    obtain ⟨hname, hsuper, hms⟩ := hs
    refine ⟨hname, hsuper, ?_⟩
    simp only [methodsProper_iff, List.forall_mem_append, List.forall_mem_cons] at hms ⊢
    exact ⟨hms.1, h.proper hz hms.2.1, hms.2.2⟩

end Stmt.Renames

end

end Lox
