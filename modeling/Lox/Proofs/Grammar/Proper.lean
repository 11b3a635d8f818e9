/-
**Trees of texts.**

What the tokens of a text say about the trees that the grammar makes of them.  A word that is read
as a name is no reserved word, and a reserved word is spelled as it should be; so no variable is
called `this` or `super`, and what is written as `this` or `super` is called so.  The trees have no
holes, operators stand where they belong, and no branch or loop body is a declaration.

Main definitions:

* `Lox.Token.Spelled` — a token whose text goes with its kind;
* `Lox.Expr.Proper`, `Lox.Stmt.Proper` — **trees that a text can give**.

Main results:

* `Lox.scan_spelled` — the tokens of a text are spelled as they should be;
* `Lox.Grammar.Derives.proper`, `Lox.Grammar.Parses.proper` — **the grammar gives proper trees**.
-/

import Lox.Proofs.Grammar.Soundness.Program
import Lox.Proofs.Scope.Scoped
import Lox.Token.Lexer

set_option relaxedAutoImplicit false
set_option autoImplicit false

namespace Lox

open Grammar

/-! ### Tokens -/

/-- The text of a token goes with its kind: a name is no reserved word, and a reserved word is
spelled as such. -/
structure Token.Spelled (t : Token) : Prop where
  plain : t.kind = .identifier → IsPlain t.lexeme
  word : ∀ k, t.kind = .keyword k → t.lexeme = k.word

/-- A word is of the kind that its spelling says. -/
theorem Token.spelled_of_word (w : String) (line : Int) :
    Token.Spelled ⟨.ofWord w, w, line, .none⟩ := by
  unfold Token.Kind.ofWord
  cases hw : Keyword.ofWord? w with
  | none =>
    refine ⟨fun _ => ⟨?_, ?_⟩, nofun⟩
    · rintro rfl
      exact absurd hw (by decide)
    · rintro rfl
      exact absurd hw (by decide)
  | some k =>
    refine ⟨nofun, fun k' hk => ?_⟩
    obtain rfl := Token.Kind.keyword.inj hk
    exact (Keyword.word_of_ofWord? hw).symm

theorem Piece.token?_spelled {p : Piece} {line : Nat} {t : Token} (h : p.token? line = some t) :
    t.Spelled := by
  unfold Piece.token? at h
  cases hp : p.cls with
  | word =>
    simp only [hp] at h
    obtain rfl := Option.some.inj h
    exact Token.spelled_of_word _ _
  | string | number | symbol s =>
    simp only [hp] at h
    obtain rfl := Option.some.inj h
    exact ⟨nofun, nofun⟩
  | _ => simp [hp] at h

theorem scanPieces_spelled (ps : List Piece) :
    ∀ line, ∀ t ∈ (scanPieces line ps).tokens, t.Spelled := by
  induction ps with
  | nil =>
    intro line t ht
    cases ht
  | cons p ps ih =>
    intro line t ht
    rcases List.mem_append.1 ht with ht | ht
    · exact Piece.token?_spelled (Option.mem_toList.1 ht)
    · exact ih _ t ht

/-- The tokens of a text are spelled as they should be. -/
theorem scan_spelled (cs : List Char) : ∀ t ∈ (scan cs).tokens, t.Spelled :=
  scanPieces_spelled (pieces cs) 1

/-! ### Proper trees -/

mutual

/-- An expression that a text can give. -/
def Expr.Proper : Expr → Prop
  | .literal _ => True
  | .grouping e => e.Proper
  | .unary operator e => operator.kind ∈ unaryOperators ∧ e.Proper
  | .binary l operator r => operator.kind ∈ binaryOperators ∧ l.Proper ∧ r.Proper
  | .logical l _ r => l.Proper ∧ r.Proper
  | .variable ref => IsPlain ref.name.lexeme
  | .assign ref e => IsPlain ref.name.lexeme ∧ e.Proper
  | .call f _ arguments => f.Proper ∧ argumentsProper arguments
  | .get object _ => object.Proper
  | .set object _ e => object.Proper ∧ e.Proper
  | .this ref => ref.name.lexeme = thisName
  | .super ref _ => ref.name.lexeme = superName
  | .hole _ => False

/-- Arguments that a text can give. -/
def argumentsProper : List Expr → Prop
  | [] => True
  | e :: es => e.Proper ∧ argumentsProper es

end

/-- An expression that a text can give, or none. -/
def optionalProper (e? : Option Expr) : Prop := ∀ e, e? = some e → e.Proper

mutual

/-- A statement that a text can give. -/
def Stmt.Proper : Stmt → Prop
  | .expression e => e.Proper
  | .print e => e.Proper
  | .var name initializer => IsPlain name.lexeme ∧ optionalProper initializer
  | .block body => bodyProper body
  | .cond c t none => c.Proper ∧ t.declared? = none ∧ t.Proper
  | .cond c t (some e) =>
    c.Proper ∧ (t.declared? = none ∧ t.Proper) ∧ e.declared? = none ∧ e.Proper
  | .loop c body => c.Proper ∧ body.declared? = none ∧ body.Proper
  | .function routine => routine.Proper
  | .ret _ value => optionalProper value
  | .classDecl name superclass methods =>
    IsPlain name.lexeme ∧ (∀ ref, superclass = some ref → IsPlain ref.name.lexeme) ∧
      methodsProper methods

/-- A declared body that a text can give. -/
def Routine.Proper : Routine → Prop
  | .mk name params body =>
    IsPlain name.lexeme ∧ (∀ p ∈ params, IsPlain p.lexeme) ∧ bodyProper body

/-- Statements that a text can give. -/
def bodyProper : List Stmt → Prop
  | [] => True
  | s :: ss => s.Proper ∧ bodyProper ss

/-- Methods that a text can give. -/
def methodsProper : List Routine → Prop
  | [] => True
  | m :: ms => m.Proper ∧ methodsProper ms

end

theorem argumentsProper_iff (es : List Expr) : argumentsProper es ↔ ∀ e ∈ es, e.Proper := by
  induction es with
  | nil => simp [argumentsProper]
  | cons e es ih => simp [argumentsProper, ih]

theorem bodyProper_iff (ss : List Stmt) : bodyProper ss ↔ ∀ s ∈ ss, s.Proper := by
  induction ss with
  | nil => simp [bodyProper]
  | cons s ss ih => simp [bodyProper, ih]

theorem methodsProper_iff (ms : List Routine) : methodsProper ms ↔ ∀ m ∈ ms, m.Proper := by
  induction ms with
  | nil => simp [methodsProper]
  | cons m ms ih => simp [methodsProper, ih]

/-! ### The trees of the grammar -/

/-- The tokens of one of several stretches with commas between them are among all of them. -/
theorem Grammar.Separated.mem {parts : List (List Token)} {ts part : List Token} {t : Token}
    (h : Separated parts ts) (hpart : part ∈ parts) (ht : t ∈ part) : t ∈ ts := by
  induction h with
  | none => cases hpart
  | one ts =>
    obtain rfl := List.mem_singleton.1 hpart
    exact ht
  | more _ _ ih =>
    rcases List.mem_cons.1 hpart with rfl | hpart
    · exact List.mem_append_left _ ht
    · exact List.mem_append_right _ (List.mem_cons_of_mem _ (ih hpart))

/-- An operator of a rank of binary operators is one of two operands. -/
theorem Grammar.Rank.join_proper {r : Rank} {l e : Expr} {t : Token} (ht : t.kind ∈ r.operators)
    (hl : l.Proper) (he : e.Proper) : (r.join l t e).Proper := by
  cases r with
  | disjunction | conjunction => exact ⟨hl, he⟩
  | equality | comparison | term | factor =>
    refine ⟨?_, hl, he⟩
    revert ht
    generalize t.kind = k
    revert k
    decide
  | _ => cases ht

/-- **The grammar gives proper expressions.** -/
theorem Grammar.Derives.proper {r : Rank} {ts : List Token} {e : Expr} (h : Derives r ts e) :
    (∀ t ∈ ts, t.Spelled) → e.Proper := by
  induction h with
  | tighter _ _ ih => exact ih
  | assign hname _ _ ih =>
    intro hts
    exact ⟨(hts _ (by simp)).plain hname, ih fun t ht => hts t (by simp [ht])⟩
  | set _ _ _ _ _ ih ih' =>
    intro hts
    exact ⟨ih fun t ht => hts t (by simp [ht]), ih' fun t ht => hts t (by simp [ht])⟩
  | operator _ _ ht _ ih ih' =>
    intro hts
    exact Rank.join_proper ht (ih fun t ht => hts t (by simp [ht]))
      (ih' fun t ht => hts t (by simp [ht]))
  | unary ht _ ih =>
    intro hts
    exact ⟨by simpa [unaryOperators] using ht, ih fun t ht => hts t (by simp [ht])⟩
  | call _ _ hcommas _ _ _ ih ih' =>
    intro hts
    refine ⟨ih fun t ht => hts t (by simp [ht]), (argumentsProper_iff _).2 fun e he => ?_⟩
    obtain ⟨a, ha, rfl⟩ := List.mem_map.1 he
    refine ih' a ha fun t ht => hts t ?_
    simp [hcommas.mem (List.mem_map_of_mem ha) ht]
  | get _ _ _ ih =>
    intro hts
    exact ih fun t ht => hts t (by simp [ht])
  | false_ | true_ | nil | literal => exact fun _ => trivial
  | name ht => exact fun hts => (hts _ (by simp)).plain ht
  | this ht => exact fun hts => (hts _ (by simp)).word _ ht
  | super ht => exact fun hts => (hts _ (by simp)).word _ ht
  | grouping _ _ _ ih =>
    intro hts
    exact ih fun t ht => hts t (by simp [ht])

section

variable {ts : List Token} {s : Stmt} (hts : ∀ t ∈ ts, t.Spelled)

include hts

theorem Grammar.Optional.proper {e? : Option Expr} (h : Optional (Derives .assignment) ts e?) :
    optionalProper e? := by
  cases h with
  | none => exact nofun
  | some he =>
    rintro _ ⟨⟩
    exact he.proper hts

theorem Grammar.Variable.proper (h : Variable ts s) : s.Proper := by
  obtain ⟨-, hname, hinitializer, -⟩ := h
  refine ⟨(hts _ (by simp)).plain hname, ?_⟩
  cases hinitializer with
  | none => exact nofun
  | some hs =>
    obtain ⟨-, he⟩ := hs
    rintro _ ⟨⟩
    exact he.proper fun t ht => hts t (by simp [ht])

theorem Grammar.ExpressionStatement.proper (h : ExpressionStatement ts s) : s.Proper := by
  obtain ⟨he, -⟩ := h
  exact he.proper fun t ht => hts t (by simp [ht])

theorem Grammar.Condition.proper {e : Expr} (h : Condition ts e) : e.Proper := by
  obtain ⟨-, he, -⟩ := h
  exact he.proper fun t ht => hts t (by simp [ht])

theorem Grammar.ForInitializer.proper {s? : Option Stmt} (h : ForInitializer ts s?) :
    ∀ s, s? = some s → s.Proper := by
  cases h with
  | none => exact nofun
  | var hs =>
    rintro _ ⟨⟩
    exact hs.proper hts
  | expression hs =>
    rintro _ ⟨⟩
    exact hs.proper hts

end

theorem Stmt.forLoop_declared? (initializer : Option Stmt) (condition increment : Option Expr)
    (body : Stmt) : (Stmt.forLoop initializer condition increment body).declared? = none := by
  cases initializer <;> rfl

/-- A statement that is no declaration declares nothing. -/
theorem Grammar.Parses.declared?_eq_none {closed : Bool} {ts : List Token} {s : Stmt}
    (h : Parses (.statement closed) ts s) : s.declared? = none := by
  cases h with
  | expression hs =>
    obtain ⟨-, -⟩ := hs
    rfl
  | forLoop => exact Stmt.forLoop_declared? ..
  | _ => rfl

/-- A `for` loop with proper parts is proper. -/
theorem Stmt.forLoop_proper {initializer : Option Stmt} {condition increment : Option Expr}
    {body : Stmt} (hi : ∀ s, initializer = some s → s.Proper) (hc : optionalProper condition)
    (hu : optionalProper increment) (hb : body.declared? = none ∧ body.Proper) :
    (Stmt.forLoop initializer condition increment body).Proper := by
  have hcondition : (condition.getD (.literal (.bool true))).Proper := by
    cases condition with
    | none => trivial
    | some c => exact hc c rfl
  cases increment with
  | none =>
    cases initializer with
    | none => exact ⟨hcondition, hb⟩
    | some s => exact ⟨hi s rfl, ⟨hcondition, hb⟩, trivial⟩
  | some e =>
    -- The body is followed by the increment, in a block.
    have hblock : (Stmt.block [body, .expression e]).declared? = none ∧
        (Stmt.block [body, .expression e]).Proper := ⟨rfl, hb.2, hu e rfl, trivial⟩
    cases initializer with
    | none => exact ⟨hcondition, hblock⟩
    | some s => exact ⟨hi s rfl, ⟨hcondition, hblock⟩, trivial⟩

/-- **The grammar gives proper statements.** -/
theorem Grammar.Parses.proper {part : Part} {ts : List Token} {s : Stmt} (h : Parses part ts s) :
    (∀ t ∈ ts, t.Spelled) → s.Proper := by
  induction h with
  | routine hname _ hcommas hparams _ _ _ _ _ ih =>
    intro hts
    refine ⟨(hts _ (by simp)).plain hname, ?_, (bodyProper_iff _).2 fun s hs => ?_⟩
    · intro p hp
      have hmem := hcommas.mem (List.mem_map_of_mem hp) (List.mem_singleton_self p)
      exact (hts p (by simp [hmem])).plain (hparams p hp)
    · obtain ⟨d, hd, rfl⟩ := List.mem_map.1 hs
      refine ih d hd fun t ht => hts t ?_
      have hmem := List.mem_flatten_of_mem (List.mem_map_of_mem hd) ht
      simp [hmem]
  | classDecl _ hname hsuperclass _ _ _ ih =>
    intro hts
    refine ⟨(hts _ (by simp)).plain hname, ?_, (methodsProper_iff _).2 fun r hr => ?_⟩
    · cases hsuperclass with
      | none => exact nofun
      | some hs =>
        obtain ⟨-, href⟩ := hs
        rintro _ ⟨⟩
        exact (hts _ (by simp)).plain href
    · obtain ⟨m, hm, rfl⟩ := List.mem_map.1 hr
      refine ih m hm fun t ht => hts t ?_
      have hmem := List.mem_flatten_of_mem (List.mem_map_of_mem hm) ht
      simp [hmem]
  | function _ _ ih => exact fun hts => ih fun t ht => hts t (by simp [ht])
  | var hs => exact fun hts => hs.proper hts
  | statement _ ih => exact ih
  | expression hs => exact fun hts => hs.proper hts
  | print _ he => exact fun hts => he.proper fun t ht => hts t (by simp [ht])
  | ret _ hvalue => exact fun hts => hvalue.proper fun t ht => hts t (by simp [ht])
  | block _ _ _ ih =>
    intro hts
    refine (bodyProper_iff _).2 fun s hs => ?_
    obtain ⟨d, hd, rfl⟩ := List.mem_map.1 hs
    refine ih d hd fun t ht => hts t ?_
    have hmem := List.mem_flatten_of_mem (List.mem_map_of_mem hd) ht
    simp [hmem]
  | ifThen _ hcondition hs ih =>
    intro hts
    exact ⟨hcondition.proper fun t ht => hts t (by simp [ht]), hs.declared?_eq_none,
      ih fun t ht => hts t (by simp [ht])⟩
  | ifThenElse _ hcondition hs _ hs' ih ih' =>
    intro hts
    exact ⟨hcondition.proper fun t ht => hts t (by simp [ht]),
      ⟨hs.declared?_eq_none, ih fun t ht => hts t (by simp [ht])⟩, hs'.declared?_eq_none,
      ih' fun t ht => hts t (by simp [ht])⟩
  | whileLoop _ hcondition hs ih =>
    intro hts
    exact ⟨hcondition.proper fun t ht => hts t (by simp [ht]), hs.declared?_eq_none,
      ih fun t ht => hts t (by simp [ht])⟩
  | forLoop _ _ hinitializer hcondition _ hincrement _ hs ih =>
    intro hts
    exact Stmt.forLoop_proper (hinitializer.proper fun t ht => hts t (by simp [ht]))
      (hcondition.proper fun t ht => hts t (by simp [ht]))
      (hincrement.proper fun t ht => hts t (by simp [ht]))
      ⟨hs.declared?_eq_none, ih fun t ht => hts t (by simp [ht])⟩

/-- A program of the grammar has a proper tree. -/
theorem Grammar.Program.proper {tokens : List Token} {program : List Stmt}
    (h : Program tokens program) (hts : ∀ t ∈ tokens, t.Spelled) : bodyProper program := by
  obtain ⟨parts, hparts, rfl, rfl⟩ := h
  refine (bodyProper_iff _).2 fun s hs => ?_
  obtain ⟨d, hd, rfl⟩ := List.mem_map.1 hs
  exact (hparts d hd).proper fun t ht => hts t (List.mem_flatten_of_mem (List.mem_map_of_mem hd) ht)

end Lox
