/-
**Where `this` and `super` stand.**

A reference to the object or to the superclass belongs to the method it stands in, at any depth of
blocks and functions, and by that to one class declaration, the innermost one around it.

Main definitions:

* `Lox.Routine.selves` — the references of a body to the object and to the superclass;
* `Lox.ClassDeclaration` — class declarations;
* `Lox.Stmt.owners` — the references in the classes of a statement, **each with the class
  declaration that it stands in**.

Main results:

* `Lox.count_owners_le` — no reference is counted twice;
* `Lox.owner_unique` — **no reference stands in two class declarations**.
-/

import Lox.Proofs.Grammar.Outcome
import Lox.Proofs.Scope.Scoped
import Mathlib.Data.List.Nodup

set_option relaxedAutoImplicit false
set_option autoImplicit false

namespace Lox

/-! ### References to the object and to the superclass -/

mutual

/-- The references of an expression to the object or to the superclass. -/
def Expr.selves : Expr → List Reference
  | .literal _ => []
  | .grouping e => e.selves
  | .unary _ e => e.selves
  | .binary l _ r => l.selves ++ r.selves
  | .logical l _ r => l.selves ++ r.selves
  | .variable _ => []
  | .assign _ e => e.selves
  | .call f _ arguments => f.selves ++ selvesOfArguments arguments
  | .get object _ => object.selves
  | .set object _ e => object.selves ++ e.selves
  | .this ref => [ref]
  | .super ref _ => [ref]
  | .hole _ => []

/-- The same for arguments. -/
def selvesOfArguments : List Expr → List Reference
  | [] => []
  | e :: es => e.selves ++ selvesOfArguments es

end

mutual

/-- The references of a statement to the object or to the superclass.  A class declaration has none
of its own: its methods refer to other objects. -/
def Stmt.selves : Stmt → List Reference
  | .expression e => e.selves
  | .print e => e.selves
  | .var _ initializer => initializer.elim [] Expr.selves
  | .block body => selvesOfBody body
  | .cond c t none => c.selves ++ t.selves
  | .cond c t (some e) => c.selves ++ t.selves ++ e.selves
  | .loop c body => c.selves ++ body.selves
  | .function routine => routine.selves
  | .ret _ value => value.elim [] Expr.selves
  | .classDecl _ _ _ => []

/-- The references of a body to the object or to the superclass, at any depth of blocks and
functions, but not those of the classes that are declared in it. -/
def Routine.selves : Routine → List Reference
  | .mk _ _ body => selvesOfBody body

/-- The same for statements. -/
def selvesOfBody : List Stmt → List Reference
  | [] => []
  | s :: ss => s.selves ++ selvesOfBody ss

end

theorem Routine.selves_eq (r : Routine) : r.selves = selvesOfBody r.body := by
  cases r
  rfl

/-! ### Class declarations -/

/-- A class declaration. -/
structure ClassDeclaration where
  name : Token
  superclass : Option Reference
  methods : List Routine

namespace ClassDeclaration

/-- The declaration as a statement. -/
def stmt (C : ClassDeclaration) : Stmt := .classDecl C.name C.superclass C.methods

/-- The scopes around the methods, if the given ones are around the declaration. -/
def around (C : ClassDeclaration) (Γ : Scopes) : Scopes :=
  thisScope :: C.superclass.elim Γ fun _ => superScope :: Γ

/-- What a scoped declaration says of its name and of its methods. -/
theorem scoped_stmt {C : ClassDeclaration} {L : Ledger} {inBody : Bool} {Γ : Scopes}
    (h : C.stmt.Scoped L inBody Γ) :
    IsPlain C.name.lexeme ∧
      methodsScoped L (C.around (Γ.mark C.name.lexeme .defined)) C.methods := by
  obtain ⟨name, superclass, methods⟩ := C
  cases superclass with
  | none => exact ⟨h.1.1, h.2⟩
  | some ref => exact ⟨h.1.1, h.2.2⟩

end ClassDeclaration

/-! ### Owners -/

/-- The same for methods. -/
def selvesOfMethods : List Routine → List Reference
  | [] => []
  | r :: rs => r.selves ++ selvesOfMethods rs

mutual

/-- The references to objects and superclasses in the classes of a statement, each with the class
declaration that it stands in. -/
def Stmt.owners : Stmt → List (Reference × ClassDeclaration)
  | .block body => ownersOfBody body
  | .cond _ t none => t.owners
  | .cond _ t (some e) => t.owners ++ e.owners
  | .loop _ body => body.owners
  | .function routine => routine.owners
  | .classDecl name superclass methods =>
    (selvesOfMethods methods).map (fun ref => (ref, ⟨name, superclass, methods⟩)) ++
      ownersOfMethods methods
  | _ => []

/-- The same for a declared body. -/
def Routine.owners : Routine → List (Reference × ClassDeclaration)
  | .mk _ _ body => ownersOfBody body

/-- The same for statements. -/
def ownersOfBody : List Stmt → List (Reference × ClassDeclaration)
  | [] => []
  | s :: ss => s.owners ++ ownersOfBody ss

/-- The same for methods. -/
def ownersOfMethods : List Routine → List (Reference × ClassDeclaration)
  | [] => []
  | r :: rs => r.owners ++ ownersOfMethods rs

end

theorem Routine.owners_eq (r : Routine) : r.owners = ownersOfBody r.body := by
  cases r
  rfl

theorem mem_selvesOfMethods {methods : List Routine} {r : Routine} {ref : Reference}
    (hr : r ∈ methods) (href : ref ∈ r.selves) : ref ∈ selvesOfMethods methods := by
  induction hr with
  | head _ => exact List.mem_append_left _ href
  | tail _ _ ih => exact List.mem_append_right _ ih

theorem owners_subset_of_mem {methods : List Routine} {r : Routine} (hr : r ∈ methods) :
    r.owners ⊆ ownersOfMethods methods := by
  induction hr with
  | head _ => exact List.subset_append_left ..
  | tail _ _ ih => exact fun _ h => List.mem_append_right _ (ih h)

namespace ClassDeclaration

variable {C : ClassDeclaration} {r : Routine}

/-- A class declaration owns the references that stand in its methods. -/
theorem mem_owners (hr : r ∈ C.methods) {ref : Reference} (href : ref ∈ r.selves) :
    (ref, C) ∈ C.stmt.owners :=
  List.mem_append_left _ (List.mem_map_of_mem (mem_selvesOfMethods hr href))

theorem owners_subset (hr : r ∈ C.methods) : r.owners ⊆ C.stmt.owners :=
  fun _ h => List.mem_append_right _ (owners_subset_of_mem hr h)

end ClassDeclaration

theorem ownersOfBody_append (ss ts : List Stmt) :
    ownersOfBody (ss ++ ts) = ownersOfBody ss ++ ownersOfBody ts := by
  induction ss with
  | nil => rfl
  | cons s ss ih => rw [List.cons_append, ownersOfBody, ih, ownersOfBody, List.append_assoc]

theorem map_fst_pair {α β : Type} (l : List α) (b : β) :
    (l.map fun a => (a, b)).map Prod.fst = l := by
  rw [List.map_map]
  exact List.map_id l

section

variable (ref : Reference)

mutual

theorem Expr.count_selves_le : ∀ e : Expr, e.selves.count ref ≤ e.references.count ref
  | .literal _ => Nat.le_refl _
  | .grouping e => Expr.count_selves_le e
  | .unary _ e => Expr.count_selves_le e
  | .binary l _ r => by
    simp only [Expr.selves, Expr.references, List.count_append]
    exact Nat.add_le_add (Expr.count_selves_le l) (Expr.count_selves_le r)
  | .logical l _ r => by
    simp only [Expr.selves, Expr.references, List.count_append]
    exact Nat.add_le_add (Expr.count_selves_le l) (Expr.count_selves_le r)
  | .variable _ => Nat.zero_le _
  | .assign r e => Nat.le_trans (Expr.count_selves_le e) List.count_le_count_cons
  | .call f _ arguments => by
    simp only [Expr.selves, Expr.references, List.count_append]
    exact Nat.add_le_add (Expr.count_selves_le f) (count_selvesOfArguments_le arguments)
  | .get object _ => Expr.count_selves_le object
  | .set object _ e => by
    simp only [Expr.selves, Expr.references, List.count_append]
    exact Nat.add_le_add (Expr.count_selves_le object) (Expr.count_selves_le e)
  | .this _ => Nat.le_refl _
  | .super _ _ => Nat.le_refl _
  | .hole _ => Nat.le_refl _

theorem count_selvesOfArguments_le : ∀ es : List Expr,
    (selvesOfArguments es).count ref ≤ (referencesOfArguments es).count ref
  | [] => Nat.le_refl _
  | e :: es => by
    simp only [selvesOfArguments, referencesOfArguments, List.count_append]
    exact Nat.add_le_add (Expr.count_selves_le e) (count_selvesOfArguments_le es)

end

mutual

/-- A reference counts once, for the statement itself or for one of its classes. -/
theorem Stmt.count_owners_le : ∀ s : Stmt,
    s.selves.count ref + (s.owners.map Prod.fst).count ref ≤ s.references.count ref
  | .expression e => Expr.count_selves_le ref e
  | .print e => Expr.count_selves_le ref e
  | .var _ none => Nat.zero_le _
  | .var _ (some e) => Expr.count_selves_le ref e
  | .block body => count_owners_le body
  | .cond c t none => by
    have hc := Expr.count_selves_le ref c
    have ht := Stmt.count_owners_le t
    simp only [Stmt.selves, Stmt.owners, Stmt.references, List.count_append]
    omega
  | .cond c t (some e) => by
    have hc := Expr.count_selves_le ref c
    have ht := Stmt.count_owners_le t
    have he := Stmt.count_owners_le e
    simp only [Stmt.selves, Stmt.owners, Stmt.references, List.map_append, List.count_append]
    omega
  | .loop c body => by
    have hc := Expr.count_selves_le ref c
    have hb := Stmt.count_owners_le body
    simp only [Stmt.selves, Stmt.owners, Stmt.references, List.count_append]
    omega
  | .function routine => Routine.count_owners_le routine
  | .ret _ none => Nat.zero_le _
  | .ret _ (some e) => Expr.count_selves_le ref e
  | .classDecl name superclass methods => by
    have hm := count_ownersOfMethods_le methods
    simp only [Stmt.selves, Stmt.owners, Stmt.references, List.map_append, map_fst_pair,
      List.count_append, List.count_nil]
    omega

theorem Routine.count_owners_le : ∀ r : Routine,
    r.selves.count ref + (r.owners.map Prod.fst).count ref ≤ r.references.count ref
  | .mk _ _ body => count_owners_le body

theorem count_owners_le : ∀ ss : List Stmt,
    (selvesOfBody ss).count ref + ((ownersOfBody ss).map Prod.fst).count ref ≤
      (referencesOfBody ss).count ref
  | [] => Nat.le_refl _
  | s :: ss => by
    have hs := Stmt.count_owners_le s
    have hss := count_owners_le ss
    simp only [selvesOfBody, ownersOfBody, referencesOfBody, List.map_append, List.count_append]
    omega

theorem count_ownersOfMethods_le : ∀ rs : List Routine,
    (selvesOfMethods rs).count ref + ((ownersOfMethods rs).map Prod.fst).count ref ≤
      (referencesOfMethods rs).count ref
  | [] => Nat.le_refl _
  | r :: rs => by
    have hr := Routine.count_owners_le r
    have hrs := count_ownersOfMethods_le rs
    simp only [selvesOfMethods, ownersOfMethods, referencesOfMethods, List.map_append,
      List.count_append]
    omega

end

end

/-- **No reference stands in two class declarations.** -/
theorem owner_unique {lo hi : Nat} {ss : List Stmt} (h : Numbered lo hi (referencesOfBody ss))
    {ref : Reference} {C C' : ClassDeclaration} (hC : (ref, C) ∈ ownersOfBody ss)
    (hC' : (ref, C') ∈ ownersOfBody ss) : C = C' := by
  have hrefs : (referencesOfBody ss).Nodup := .of_map _ h.nodup
  have howners : ((ownersOfBody ss).map Prod.fst).Nodup := by
    refine List.nodup_iff_count.2 fun ref => ?_
    have hle := count_owners_le ref ss
    have hone := List.nodup_iff_count.1 hrefs ref
    omega
  exact (Prod.mk.inj (List.inj_on_of_nodup_map howners hC hC' rfl)).2

end Lox
