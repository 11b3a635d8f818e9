/-
**Trees on other lines.**

The same tree with its tokens on other lines and with other numbers for its references.  Nothing
but messages depends on the lines, and nothing but the table of distances on the numbers: the
grammar derives the relabelled tree from the relabelled tokens, and the relabelled tree breaks the
same rules at the same sites.

Main definitions:

* `Lox.Relabeling` — other lines, and other numbers;
* `Lox.Expr.relabel`, `Lox.Stmt.relabel`, `Lox.relabelBody` — **the relabelled tree**;
* `Lox.Relabeling.plain`, `Lox.Relabeling.unnumbering` — nothing is changed, or the numbers are
  left out.

Main results:

* `Lox.Expr.relabel_plain`, `Lox.Stmt.relabel_plain` — a tree that is not changed;
* `Lox.unnumberedBody_eq_relabelBody` — a tree without its numbers is a relabelled tree;
* `Lox.Grammar.Program.relabel` — **the grammar does not depend on lines and numbers**;
* `Lox.bodySites_relabel` — and neither do the sites of a tree.
-/

import Lox.Proofs.Grammar.Basic
import Lox.Proofs.Scope.Sites

set_option relaxedAutoImplicit false
set_option autoImplicit false

namespace Lox

/-! ### Relabellings -/

/-- Other lines for tokens, and other numbers for references. -/
structure Relabeling where
  line : Token → Int
  number : NodeId → NodeId

namespace Relabeling

/-- A token on its other line. -/
def token (σ : Relabeling) (t : Token) : Token := { t with line := σ.line t }

@[simp] theorem kind_token (σ : Relabeling) (t : Token) : (σ.token t).kind = t.kind := rfl

@[simp] theorem lexeme_token (σ : Relabeling) (t : Token) : (σ.token t).lexeme = t.lexeme := rfl

/-- Nothing is changed. -/
def plain : Relabeling := ⟨Token.line, fun id => id⟩

/-- The numbers are left out. -/
def unnumbering : Relabeling := ⟨Token.line, fun _ => 0⟩

end Relabeling

/-- A reference by its other number and on its other line. -/
def Reference.relabel (σ : Relabeling) (ref : Reference) : Reference :=
  ⟨σ.number ref.id, σ.token ref.name⟩

mutual

/-- The relabelled expression. -/
def Expr.relabel (σ : Relabeling) : Expr → Expr
  | .literal value => .literal value
  | .grouping e => .grouping (e.relabel σ)
  | .unary operator e => .unary (σ.token operator) (e.relabel σ)
  | .binary l operator r => .binary (l.relabel σ) (σ.token operator) (r.relabel σ)
  | .logical l operator r => .logical (l.relabel σ) (σ.token operator) (r.relabel σ)
  | .variable ref => .variable (ref.relabel σ)
  | .assign ref e => .assign (ref.relabel σ) (e.relabel σ)
  | .call f paren arguments => .call (f.relabel σ) (σ.token paren) (relabelArguments σ arguments)
  | .get object name => .get (object.relabel σ) (σ.token name)
  | .set object name e => .set (object.relabel σ) (σ.token name) (e.relabel σ)
  | .this ref => .this (ref.relabel σ)
  | .super ref method => .super (ref.relabel σ) (σ.token method)
  | .hole h => .hole h

/-- Relabelled arguments. -/
def relabelArguments (σ : Relabeling) : List Expr → List Expr
  | [] => []
  | e :: es => e.relabel σ :: relabelArguments σ es

end

mutual

/-- The relabelled statement. -/
def Stmt.relabel (σ : Relabeling) : Stmt → Stmt
  | .expression e => .expression (e.relabel σ)
  | .print e => .print (e.relabel σ)
  | .var name initializer => .var (σ.token name) (initializer.map (Expr.relabel σ))
  | .block body => .block (relabelBody σ body)
  | .cond c t none => .cond (c.relabel σ) (t.relabel σ) none
  | .cond c t (some e) => .cond (c.relabel σ) (t.relabel σ) (some (e.relabel σ))
  | .loop c body => .loop (c.relabel σ) (body.relabel σ)
  | .function routine => .function (routine.relabel σ)
  | .ret keyword value => .ret (σ.token keyword) (value.map (Expr.relabel σ))
  | .classDecl name superclass methods =>
    .classDecl (σ.token name) (superclass.map (Reference.relabel σ)) (relabelMethods σ methods)

/-- The relabelled body. -/
def Routine.relabel (σ : Relabeling) : Routine → Routine
  | .mk name params body => .mk (σ.token name) (params.map σ.token) (relabelBody σ body)

/-- Relabelled statements. -/
def relabelBody (σ : Relabeling) : List Stmt → List Stmt
  | [] => []
  | s :: ss => s.relabel σ :: relabelBody σ ss

/-- Relabelled methods. -/
def relabelMethods (σ : Relabeling) : List Routine → List Routine
  | [] => []
  | r :: rs => r.relabel σ :: relabelMethods σ rs

end

section

variable (σ : Relabeling)

theorem relabelArguments_eq_map (es : List Expr) :
    relabelArguments σ es = es.map (Expr.relabel σ) := by
  induction es with
  | nil => rfl
  | cons e es ih => rw [relabelArguments, ih, List.map_cons]

theorem relabelBody_eq_map (ss : List Stmt) : relabelBody σ ss = ss.map (Stmt.relabel σ) := by
  induction ss with
  | nil => rfl
  | cons s ss ih => rw [relabelBody, ih, List.map_cons]

theorem relabelMethods_eq_map (rs : List Routine) :
    relabelMethods σ rs = rs.map (Routine.relabel σ) := by
  induction rs with
  | nil => rfl
  | cons r rs ih => rw [relabelMethods, ih, List.map_cons]

@[simp] theorem Routine.name_relabel (r : Routine) : (r.relabel σ).name = σ.token r.name := by
  cases r
  rfl

@[simp] theorem Routine.params_relabel (r : Routine) :
    (r.relabel σ).params = r.params.map σ.token := by
  cases r
  rfl

@[simp] theorem Routine.body_relabel (r : Routine) :
    (r.relabel σ).body = relabelBody σ r.body := by
  cases r
  rfl

@[simp] theorem Routine.isInitializer_relabel (r : Routine) :
    (r.relabel σ).isInitializer = r.isInitializer := by
  cases r
  rfl

end

/-! ### Nothing is changed -/

mutual

theorem Expr.relabel_plain : ∀ e : Expr, e.relabel .plain = e
  | .literal _ | .variable _ | .this _ | .super .. | .hole _ => rfl
  | .grouping e => by rw [Expr.relabel, Expr.relabel_plain e]
  | .unary _ e | .get e _ | .assign _ e => by
    rw [Expr.relabel, Expr.relabel_plain e]
    rfl
  | .binary l _ r | .logical l _ r | .set l _ r => by
    simp only [Expr.relabel, Expr.relabel_plain l, Expr.relabel_plain r]
    rfl
  | .call f _ es => by
    simp only [Expr.relabel, Expr.relabel_plain f, relabelArguments_plain es]
    rfl

theorem relabelArguments_plain : ∀ es : List Expr, relabelArguments .plain es = es
  | [] => rfl
  | e :: es => by simp only [relabelArguments, Expr.relabel_plain e, relabelArguments_plain es]

end

mutual

theorem Stmt.relabel_plain : ∀ s : Stmt, s.relabel .plain = s
  | .expression e | .print e => by simp only [Stmt.relabel, Expr.relabel_plain]
  | .var _ none | .ret _ none => rfl
  | .var _ (some e) | .ret _ (some e) => by
    simp only [Stmt.relabel, Option.map_some, Expr.relabel_plain]
    rfl
  | .block body => by simp only [Stmt.relabel, relabelBody_plain body]
  | .cond c t none => by simp only [Stmt.relabel, Expr.relabel_plain, Stmt.relabel_plain t]
  | .cond c t (some e) => by
    simp only [Stmt.relabel, Expr.relabel_plain, Stmt.relabel_plain t, Stmt.relabel_plain e]
  | .loop c body => by simp only [Stmt.relabel, Expr.relabel_plain, Stmt.relabel_plain body]
  | .function routine => by simp only [Stmt.relabel, Routine.relabel_plain routine]
  | .classDecl _ superclass methods => by
    simp only [Stmt.relabel, relabelMethods_plain methods]
    cases superclass <;> rfl

theorem Routine.relabel_plain : ∀ r : Routine, r.relabel .plain = r
  | .mk name params body => by
    have hparams : params.map Relabeling.plain.token = params := List.map_id params
    simp only [Routine.relabel, relabelBody_plain body, hparams]
    rfl

theorem relabelBody_plain : ∀ ss : List Stmt, relabelBody .plain ss = ss
  | [] => rfl
  | s :: ss => by simp only [relabelBody, Stmt.relabel_plain s, relabelBody_plain ss]

theorem relabelMethods_plain : ∀ rs : List Routine, relabelMethods .plain rs = rs
  | [] => rfl
  | r :: rs => by simp only [relabelMethods, Routine.relabel_plain r, relabelMethods_plain rs]

end

/-! ### Numbers are left out -/

mutual

theorem Expr.unnumbered_eq_relabel : ∀ e : Expr, e.unnumbered = e.relabel .unnumbering
  | .literal _ | .variable _ | .this _ | .super .. | .hole _ => rfl
  | .grouping e => by rw [Expr.unnumbered, Expr.relabel, Expr.unnumbered_eq_relabel e]
  | .unary _ e | .get e _ | .assign _ e => by
    rw [Expr.unnumbered, Expr.relabel, Expr.unnumbered_eq_relabel e]
    rfl
  | .binary l _ r | .logical l _ r | .set l _ r => by
    simp only [Expr.unnumbered, Expr.relabel, Expr.unnumbered_eq_relabel l,
      Expr.unnumbered_eq_relabel r]
    rfl
  | .call f _ es => by
    simp only [Expr.unnumbered, Expr.relabel, Expr.unnumbered_eq_relabel f,
      unnumberedArguments_eq_relabel es]
    rfl

theorem unnumberedArguments_eq_relabel : ∀ es : List Expr,
    unnumberedArguments es = relabelArguments .unnumbering es
  | [] => rfl
  | e :: es => by
    simp only [unnumberedArguments, relabelArguments, Expr.unnumbered_eq_relabel e,
      unnumberedArguments_eq_relabel es]

end

mutual

theorem Stmt.unnumbered_eq_relabel : ∀ s : Stmt, s.unnumbered = s.relabel .unnumbering
  | .expression e | .print e => by
    simp only [Stmt.unnumbered, Stmt.relabel, Expr.unnumbered_eq_relabel]
  | .var _ none | .ret _ none => rfl
  | .var _ (some e) | .ret _ (some e) => by
    simp only [Stmt.unnumbered, Stmt.relabel, Option.map_some, Expr.unnumbered_eq_relabel]
    rfl
  | .block body => by simp only [Stmt.unnumbered, Stmt.relabel, unnumberedBody_eq_relabelBody body]
  | .cond c t none => by
    simp only [Stmt.unnumbered, Stmt.relabel, Expr.unnumbered_eq_relabel,
      Stmt.unnumbered_eq_relabel t]
  | .cond c t (some e) => by
    simp only [Stmt.unnumbered, Stmt.relabel, Expr.unnumbered_eq_relabel,
      Stmt.unnumbered_eq_relabel t, Stmt.unnumbered_eq_relabel e]
  | .loop c body => by
    simp only [Stmt.unnumbered, Stmt.relabel, Expr.unnumbered_eq_relabel,
      Stmt.unnumbered_eq_relabel body]
  | .function routine => by
    simp only [Stmt.unnumbered, Stmt.relabel, Routine.unnumbered_eq_relabel routine]
  | .classDecl _ superclass methods => by
    simp only [Stmt.unnumbered, Stmt.relabel, unnumberedMethods_eq_relabelMethods methods]
    cases superclass <;> rfl

theorem Routine.unnumbered_eq_relabel : ∀ r : Routine, r.unnumbered = r.relabel .unnumbering
  | .mk _ params body => by
    have hparams : params.map Relabeling.unnumbering.token = params := List.map_id params
    simp only [Routine.unnumbered, Routine.relabel, unnumberedBody_eq_relabelBody body, hparams]
    rfl

/-- A tree without its numbers is a relabelled tree. -/
theorem unnumberedBody_eq_relabelBody : ∀ ss : List Stmt,
    unnumberedBody ss = relabelBody .unnumbering ss
  | [] => rfl
  | s :: ss => by
    simp only [unnumberedBody, relabelBody, Stmt.unnumbered_eq_relabel s,
      unnumberedBody_eq_relabelBody ss]

theorem unnumberedMethods_eq_relabelMethods : ∀ rs : List Routine,
    unnumberedMethods rs = relabelMethods .unnumbering rs
  | [] => rfl
  | r :: rs => by
    simp only [unnumberedMethods, relabelMethods, Routine.unnumbered_eq_relabel r,
      unnumberedMethods_eq_relabelMethods rs]

end

/-! ### The grammar -/

namespace Grammar

section

variable {ts : List Token}

theorem Separated.relabel (σ : Relabeling) {parts : List (List Token)} (h : Separated parts ts) :
    Separated (parts.map (List.map σ.token)) (ts.map σ.token) := by
  induction h with
  | none => exact .none
  | one ts => exact .one _
  | more hcomma _ ih =>
    rw [List.map_append]
    exact .more hcomma ih

theorem Rank.join_relabel (σ : Relabeling) (r : Rank) (left : Expr) (t : Token) (right : Expr) :
    (r.join left t right).relabel σ = r.join (left.relabel σ) (σ.token t) (right.relabel σ) := by
  cases r <;> rfl

/-- The grammar of expressions does not depend on lines and numbers. -/
theorem Derives.relabel (σ : Relabeling) {r : Rank} {e : Expr} (h : Derives r ts e) :
    Derives r (ts.map σ.token) (e.relabel σ) := by
  induction h with
  | tighter hr _ ih => exact .tighter hr ih
  | @assign ref _ _ _ hname hequals _ ih =>
    exact @Derives.assign (ref.relabel σ) _ _ _ hname hequals ih
  | set _ hdot hname hequals _ ihobject ihvalue =>
    rw [List.map_append]
    exact .set ihobject hdot hname hequals ihvalue
  | operator hr _ ht _ ihleft ihright =>
    rw [List.map_append, Rank.join_relabel]
    exact .operator hr ihleft ht ihright
  | unary ht _ ih => exact .unary ht ih
  | @call fs as callee arguments opening closing _ hopening hcommas _ hlength hclosing ihcallee
      iharguments =>
    let relabelled := arguments.map fun a => (a.1.map σ.token, a.2.relabel σ)
    have hcommas' : Separated (relabelled.map Prod.fst) (as.map σ.token) := by
      have h := hcommas.relabel σ
      rw [List.map_map] at h
      rw [List.map_map]
      exact h
    have harguments : ∀ a ∈ relabelled, Derives .assignment a.1 a.2 := by
      intro a ha
      obtain ⟨b, hb, rfl⟩ := List.mem_map.1 ha
      exact iharguments b hb
    have htree : (Expr.call callee closing (arguments.map Prod.snd)).relabel σ =
        .call (callee.relabel σ) (σ.token closing) (relabelled.map Prod.snd) := by
      simp only [Expr.relabel, relabelArguments_eq_map, relabelled, List.map_map]
      rfl
    rw [htree, List.map_append, List.map_append]
    exact .call ihcallee hopening hcommas' harguments (by simpa [relabelled] using hlength) hclosing
  | get _ hdot hname ih =>
    rw [List.map_append]
    exact .get ih hdot hname
  | false_ ht => exact .false_ ht
  | true_ ht => exact .true_ ht
  | nil ht => exact .nil ht
  | @literal t ht => exact Derives.literal (t := σ.token t) ht
  | @name ref ht => exact @Derives.name (ref.relabel σ) ht
  | @this ref ht => exact @Derives.this (ref.relabel σ) ht
  | @super ref _ _ ht hdot hmethod => exact @Derives.super (ref.relabel σ) _ _ ht hdot hmethod
  | grouping hopening _ hclosing ih =>
    rw [List.map_append]
    exact .grouping hopening ih hclosing

theorem Optional.relabel (σ : Relabeling) {α : Type} {P : List Token → α → Prop} {g : α → α}
    (hP : ∀ {ts a}, P ts a → P (ts.map σ.token) (g a)) {a? : Option α} (h : Optional P ts a?) :
    Optional P (ts.map σ.token) (a?.map g) := by
  cases h with
  | none => exact .none
  | some ha => exact .some (hP ha)

theorem Initializer.relabel (σ : Relabeling) {e : Expr} (h : Initializer ts e) :
    Initializer (ts.map σ.token) (e.relabel σ) := by
  cases h with
  | mk hequals he => exact .mk hequals (he.relabel σ)

theorem Variable.relabel (σ : Relabeling) {s : Stmt} (h : Variable ts s) :
    Variable (ts.map σ.token) (s.relabel σ) := by
  cases h with
  | mk hvar hname hinitializer hsemicolon =>
    rw [List.map_append]
    exact .mk hvar hname (hinitializer.relabel σ fun h => h.relabel σ) hsemicolon

theorem ExpressionStatement.relabel (σ : Relabeling) {s : Stmt} (h : ExpressionStatement ts s) :
    ExpressionStatement (ts.map σ.token) (s.relabel σ) := by
  cases h with
  | mk he hsemicolon =>
    rw [List.map_append]
    exact .mk (he.relabel σ) hsemicolon

theorem ForInitializer.relabel (σ : Relabeling) {s? : Option Stmt} (h : ForInitializer ts s?) :
    ForInitializer (ts.map σ.token) (s?.map (Stmt.relabel σ)) := by
  cases h with
  | none hsemicolon => exact .none hsemicolon
  | var hs => exact .var (hs.relabel σ)
  | expression hs => exact .expression (hs.relabel σ)

theorem Superclass.relabel (σ : Relabeling) {ref : Reference} (h : Superclass ts ref) :
    Superclass (ts.map σ.token) (ref.relabel σ) := by
  cases h with
  | mk hless hname => exact @Superclass.mk _ (ref.relabel σ) hless hname

theorem Condition.relabel (σ : Relabeling) {e : Expr} (h : Condition ts e) :
    Condition (ts.map σ.token) (e.relabel σ) := by
  cases h with
  | mk hopening he hclosing =>
    rw [List.map_append]
    exact .mk hopening (he.relabel σ) hclosing

end

end Grammar

theorem Stmt.forLoop_relabel (σ : Relabeling) (initializer : Option Stmt)
    (condition increment : Option Expr) (body : Stmt) :
    (Stmt.forLoop initializer condition increment body).relabel σ =
      Stmt.forLoop (initializer.map (Stmt.relabel σ)) (condition.map (Expr.relabel σ))
        (increment.map (Expr.relabel σ)) (body.relabel σ) := by
  cases initializer <;> cases condition <;> cases increment <;> rfl

namespace Grammar

/-- The tokens and trees of a list of parts, relabelled. -/
theorem map_parts {α : Type} (σ : Relabeling) (g : α → α) (parts : List (List Token × α)) :
    ((parts.map Prod.fst).flatten.map σ.token =
      ((parts.map fun d => (d.1.map σ.token, g d.2)).map Prod.fst).flatten) ∧
    (parts.map Prod.snd).map g = (parts.map fun d => (d.1.map σ.token, g d.2)).map Prod.snd := by
  constructor
  · simp only [List.map_flatten, List.map_map]
    rfl
  · simp only [List.map_map]
    rfl

/-- The grammar of statements does not depend on lines and numbers. -/
theorem Parses.relabel (σ : Relabeling) {part : Part} {ts : List Token} {s : Stmt}
    (h : Parses part ts s) : Parses part (ts.map σ.token) (s.relabel σ) := by
  induction h with
  | @routine name opening closing brace brace' params ps body hname hopening hcommas hparams hlength
      hclosing hbrace _ hbrace' ih =>
    obtain ⟨htokens, htrees⟩ := map_parts σ (Stmt.relabel σ) body
    have hcommas' : Separated ((params.map σ.token).map fun p => [p]) (ps.map σ.token) := by
      have h := hcommas.relabel σ
      rw [List.map_map] at h
      rw [List.map_map]
      exact h
    simp only [List.map_append, List.map_cons, List.map_nil, List.cons_append, Stmt.relabel,
      Routine.relabel, relabelBody_eq_map, htokens, htrees]
    have hnames : ∀ p ∈ params.map σ.token, p.kind = .identifier := by
      intro p hp
      obtain ⟨q, hq, rfl⟩ := List.mem_map.1 hp
      exact hparams q hq
    refine Parses.routine hname hopening hcommas' hnames (by simpa using hlength) hclosing hbrace ?_
      hbrace'
    intro d hd
    obtain ⟨b, hb, rfl⟩ := List.mem_map.1 hd
    exact ih b hb
  | @classDecl word name brace brace' ss superclass methods hword hname hsuperclass hbrace _ hbrace'
      ih =>
    obtain ⟨htokens, htrees⟩ := map_parts σ (Routine.relabel σ) methods
    simp only [List.map_append, List.map_cons, List.map_nil, List.cons_append, Stmt.relabel,
      relabelMethods_eq_map, htokens, htrees]
    refine Parses.classDecl hword hname (hsuperclass.relabel σ fun h => h.relabel σ) hbrace ?_
      hbrace'
    intro m hm
    obtain ⟨b, hb, rfl⟩ := List.mem_map.1 hm
    exact ih b hb
  | function hword _ ih => exact .function hword ih
  | var hs => exact .var (hs.relabel σ)
  | statement _ ih => exact .statement ih
  | expression hs => exact .expression (hs.relabel σ)
  | print hword he hsemicolon =>
    rw [List.map_append]
    exact .print hword (he.relabel σ) hsemicolon
  | ret hword hvalue hsemicolon =>
    rw [List.map_append]
    exact .ret hword (hvalue.relabel σ fun h => h.relabel σ) hsemicolon
  | @block brace brace' body hbrace _ hbrace' ih =>
    obtain ⟨htokens, htrees⟩ := map_parts σ (Stmt.relabel σ) body
    simp only [List.map_append, List.map_cons, List.map_nil, List.cons_append, Stmt.relabel,
      relabelBody_eq_map, htokens, htrees]
    refine Parses.block hbrace ?_ hbrace'
    intro d hd
    obtain ⟨b, hb, rfl⟩ := List.mem_map.1 hd
    exact ih b hb
  | ifThen hword hcondition _ ih =>
    rw [List.map_append]
    exact .ifThen hword (hcondition.relabel σ) ih
  | ifThenElse hword hcondition _ hword' _ ih ih' =>
    rw [List.map_append, List.map_append]
    exact .ifThenElse hword (hcondition.relabel σ) ih hword' ih'
  | whileLoop hword hcondition _ ih =>
    rw [List.map_append]
    exact .whileLoop hword (hcondition.relabel σ) ih
  | forLoop hword hopening hinitializer hcondition hsemicolon hincrement hclosing _ ih =>
    rw [Stmt.forLoop_relabel]
    simp only [List.map_append, List.map_cons, List.cons_append]
    exact .forLoop hword hopening (hinitializer.relabel σ)
      (hcondition.relabel σ fun h => h.relabel σ) hsemicolon
      (hincrement.relabel σ fun h => h.relabel σ) hclosing ih

/-- **The grammar does not depend on lines and numbers.** -/
theorem Program.relabel (σ : Relabeling) {ts : List Token} {program : List Stmt}
    (h : Program ts program) : Program (ts.map σ.token) (relabelBody σ program) := by
  obtain ⟨parts, hparts, rfl, rfl⟩ := h
  obtain ⟨htokens, htrees⟩ := map_parts σ (Stmt.relabel σ) parts
  refine ⟨_, ?_, htokens, (relabelBody_eq_map σ _).trans htrees⟩
  intro d hd
  obtain ⟨b, hb, rfl⟩ := List.mem_map.1 hd
  exact (hparts b hb).relabel σ

/-- Programs one after the other are a program. -/
theorem Program.append {ts ts' : List Token} {program program' : List Stmt}
    (h : Program ts program) (h' : Program ts' program') :
    Program (ts ++ ts') (program ++ program') := by
  obtain ⟨parts, hparts, rfl, rfl⟩ := h
  obtain ⟨parts', hparts', rfl, rfl⟩ := h'
  refine ⟨parts ++ parts', ?_, by simp, by simp⟩
  intro d hd
  rcases List.mem_append.1 hd with hd | hd
  · exact hparts d hd
  · exact hparts' d hd

end Grammar

/-! ### Sites -/

/-- The relabelled mention. -/
def Mention.relabel (σ : Relabeling) : Mention → Mention
  | .declares name => .declares (σ.token name)
  | .reads ref => .reads (ref.relabel σ)
  | .assigns ref => .assigns (ref.relabel σ)
  | .this ref => .this (ref.relabel σ)
  | .super ref => .super (ref.relabel σ)
  | .returns keyword withValue => .returns (σ.token keyword) withValue
  | .inherits name superclass => .inherits (σ.token name) (σ.token superclass)

/-- The relabelled site.  Its path holds names, which stay as they are. -/
def Site.relabel (σ : Relabeling) (s : Site) : Site := { s with mention := s.mention.relabel σ }

/-- The same rule is broken at a relabelled site. -/
theorem Site.violation?_relabel (σ : Relabeling) (s : Site) :
    (s.relabel σ).violation? = s.violation? := by
  obtain ⟨path, initializing, mention⟩ := s
  cases mention <;> rfl

section

variable (σ : Relabeling)

mutual

theorem Expr.sites_relabel (path : Path) (initializing : Option String) : ∀ e : Expr,
    (e.relabel σ).sites path initializing = (e.sites path initializing).map (Site.relabel σ)
  | .literal _ | .variable _ | .this _ | .super .. | .hole _ => rfl
  | .grouping e | .unary _ e | .get e _ => Expr.sites_relabel path initializing e
  | .binary l _ r | .logical l _ r | .set r _ l => by
    simp only [Expr.relabel, Expr.sites, List.map_append, Expr.sites_relabel path initializing l,
      Expr.sites_relabel path initializing r]
  | .assign _ e => by
    simp only [Expr.relabel, Expr.sites, List.map_append, Expr.sites_relabel path initializing e]
    rfl
  | .call f _ es => by
    simp only [Expr.relabel, Expr.sites, List.map_append, Expr.sites_relabel path initializing f,
      argumentSites_relabel path initializing es]

theorem argumentSites_relabel (path : Path) (initializing : Option String) : ∀ es : List Expr,
    argumentSites path initializing (relabelArguments σ es) =
      (argumentSites path initializing es).map (Site.relabel σ)
  | [] => rfl
  | e :: es => by
    simp only [relabelArguments, argumentSites, List.map_append,
      Expr.sites_relabel path initializing e, argumentSites_relabel path initializing es]

end

theorem optionalSites_relabel (path : Path) (initializing : Option String) (e? : Option Expr) :
    optionalSites path initializing (e?.map (Expr.relabel σ)) =
      (optionalSites path initializing e?).map (Site.relabel σ) := by
  cases e? with
  | none => rfl
  | some e => exact Expr.sites_relabel σ path initializing e

theorem parameterSites_relabel (path : Path) (ps : List Token) :
    parameterSites path (ps.map σ.token) = (parameterSites path ps).map (Site.relabel σ) := by
  induction ps generalizing path with
  | nil => rfl
  | cons p ps ih => exact congrArg (_ :: ·) (ih (path.declare p.lexeme))

theorem Stmt.introduces_relabel : ∀ s : Stmt, (s.relabel σ).introduces = s.introduces
  | .expression _ | .print _ | .block _ | .ret .. | .var .. | .classDecl .. => rfl
  | .function routine => by simp [Stmt.relabel, Stmt.introduces]
  | .cond _ t none => Stmt.introduces_relabel t
  | .cond _ t (some e) => by
    simp only [Stmt.relabel, Stmt.introduces, Stmt.introduces_relabel t, Stmt.introduces_relabel e]
  | .loop _ body => Stmt.introduces_relabel body

mutual

theorem Stmt.sites_relabel : ∀ (s : Stmt) (path : Path),
    (s.relabel σ).sites path = (s.sites path).map (Site.relabel σ)
  | .expression e, path | .print e, path => Expr.sites_relabel σ path none e
  | .var name initializer, path =>
    congrArg (_ :: ·) (optionalSites_relabel σ (path.declare name.lexeme) _ initializer)
  | .block body, path => bodySites_relabel body _
  | .cond c t none, path => by
    simp only [Stmt.relabel, Stmt.sites, List.map_append, Expr.sites_relabel,
      Stmt.sites_relabel t path]
  | .cond c t (some e), path => by
    simp only [Stmt.relabel, Stmt.sites, List.map_append, Expr.sites_relabel,
      Stmt.introduces_relabel, Stmt.sites_relabel t path, Stmt.sites_relabel e _]
  | .loop c body, path => by
    simp only [Stmt.relabel, Stmt.sites, List.map_append, Expr.sites_relabel,
      Stmt.sites_relabel body path]
  | .function routine, path => by
    simp only [Stmt.relabel, Stmt.sites, Routine.name_relabel, Relabeling.lexeme_token,
      List.map_cons, Routine.sites_relabel routine _ _]
    rfl
  | .ret _ value, path => by
    simp only [Stmt.relabel, Stmt.sites, Option.isSome_map, List.map_cons, optionalSites_relabel]
    rfl
  | .classDecl name none methods, path =>
    congrArg (_ :: ·) (methodSites_relabel methods _)
  | .classDecl name (some superclass) methods, path =>
    congrArg (_ :: _ :: _ :: ·) (methodSites_relabel methods _)

theorem Routine.sites_relabel : ∀ (r : Routine) (opener : Enclosure) (path : Path),
    (r.relabel σ).sites opener path = (r.sites opener path).map (Site.relabel σ)
  | .mk _ params body, opener, path => by
    have hnames : (params.map σ.token).map Token.lexeme = params.map Token.lexeme := by
      rw [List.map_map]
      rfl
    simp only [Routine.relabel, Routine.sites, List.map_append, parameterSites_relabel, hnames,
      bodySites_relabel body _]

/-- **The sites of a tree do not depend on lines and numbers.** -/
theorem bodySites_relabel : ∀ (ss : List Stmt) (path : Path),
    bodySites path (relabelBody σ ss) = (bodySites path ss).map (Site.relabel σ)
  | [], _ => rfl
  | s :: ss, path => by
    simp only [relabelBody, bodySites, List.map_append, Stmt.introduces_relabel,
      Stmt.sites_relabel s path, bodySites_relabel ss _]

theorem methodSites_relabel : ∀ (ms : List Routine) (path : Path),
    methodSites path (relabelMethods σ ms) = (methodSites path ms).map (Site.relabel σ)
  | [], _ => rfl
  | m :: ms, path => by
    simp only [relabelMethods, methodSites, List.map_append, Routine.isInitializer_relabel,
      Routine.sites_relabel m _ path, methodSites_relabel ms path]

end

end

end Lox
