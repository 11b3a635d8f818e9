/-
**The printed form of an expression shows what it is.**

What is printed for an expression is the text of a form, and the form shows what the expression is:
a head that is an operator has one part or two, and before an equals sign stands a name or a
property.

An expression is *readable* if its tokens are genuine and where the grammar puts them, and if none
of its literals can be mistaken: a string is printed without its quotes, and infinity like a name.

Main definitions:

* `Lox.Expr.form` — the form that is printed for an expression;
* `Lox.Form.toExpr` — **the expression that a form shows**;
* `Lox.Expr.Readable` — **readable** expressions.

Main results:

* `Lox.Expr.Readable.render_eq` — what is printed is the text of the form;
* `Lox.Expr.Readable.toExpr_form` — **the form shows the expression**, without lines and numbers;
* `Lox.Expr.Readable.eq_of_render` — readable expressions with the same printed form are the same.
-/

import Mathlib.Data.Set.Function
import Lox.Proofs.Grammar.Lines
import Lox.Proofs.Number.Numeral
import Lox.Proofs.Token.Rescanning
import Lox.Proofs.Tree.Form

set_option relaxedAutoImplicit false
set_option autoImplicit false

namespace Lox

/-! ### The form of an expression -/

mutual

/-- The **form** that is printed for an expression. -/
def Expr.form : Expr → Form
  | .literal v => .word v.text
  | .grouping e => .row "group" [e.form]
  | .unary op e => .row op.lexeme [e.form]
  | .binary l op r => .row op.lexeme [l.form, r.form]
  | .logical l op r => .row op.lexeme [l.form, r.form]
  | .variable r => .word r.name.lexeme
  | .assign r e => .row "=" [.word r.name.lexeme, e.form]
  | .call f _ as => .row "call" (f.form :: formsOfArguments as)
  | .get o name => .row "." [o.form, .word name.lexeme]
  | .set o name v => .row "=" [.row "." [o.form, .word name.lexeme], v.form]
  | .this _ => .word "this"
  | .super _ method => .row "super" [.word method.lexeme]
  | .hole _ => .word ""

/-- The forms of a list of arguments. -/
def formsOfArguments : List Expr → List Form
  | [] => []
  | e :: es => e.form :: formsOfArguments es

end

theorem formsOfArguments_eq_map (es : List Expr) : formsOfArguments es = es.map Expr.form := by
  induction es with
  | nil => rfl
  | cons e es ih => rw [formsOfArguments, ih, List.map_cons]

/-! ### The expression that a form shows -/

/-- The token with a spelling, if it is a symbol or a word. -/
def Token.ofSpelling (z : String) : Token where
  kind := (Symbol.ofChars? z.toList).elim (Kind.ofWord z) .symbol
  lexeme := z
  line := 0

/-- The number that is printed so. -/
noncomputable def numberOf (z : String) : Number :=
  Function.invFunOn Number.brief {x | x.isNaN = false} z

/-- What a word shows. -/
noncomputable def wordExpr (z : String) : Expr :=
  if z = "nil" then .literal .nil
  else if z = "true" then .literal (.bool true)
  else if z = "false" then .literal (.bool false)
  else if z = "this" then .this ⟨0, .ofSpelling z⟩
  else if IsName z then .variable ⟨0, .ofSpelling z⟩
  else .literal (.number (numberOf z))

/-- What an operator and its operands show. -/
def operatorExpr (op : Token) : List Expr → Expr
  | [e] => .unary op e
  | [l, r] => if op.kind = .keyword .and ∨ op.kind = .keyword .or then .logical l op r
    else .binary l op r
  | _ => .hole .expr

/-- What a head shows, with what its parts show.  Before an equals sign stands what is changed, and
the name of a property looks like a variable. -/
def rowExpr (head : String) (parts : List Expr) : Expr :=
  match head, parts with
  | "group", [e] => .grouping e
  | "call", f :: as => .call f (.ofSpelling ")") as
  | "=", [.variable r, v] => .assign r v
  | "=", [.get o name, v] => .set o name v
  | ".", [o, .variable r] => .get o r.name
  | "super", [.variable r] => .super ⟨0, .ofSpelling head⟩ r.name
  | _, _ => operatorExpr (.ofSpelling head) parts

mutual

/-- **The expression that a form shows**, without lines and numbers. -/
noncomputable def Form.toExpr : Form → Expr
  | .word z => wordExpr z
  | .row head parts => rowExpr head (exprsOfForms parts)

/-- The expressions that forms show. -/
noncomputable def exprsOfForms : List Form → List Expr
  | [] => []
  | f :: fs => f.toExpr :: exprsOfForms fs

end

/-! ### Readable expressions -/

/-- A token of the kind that the grammar asks for at its place. -/
structure Token.GenuineOf (k : Token.Kind) (t : Token) : Prop where
  genuine : t.Genuine
  kind : t.kind = k

open Grammar in
/-- **Readable** expressions: their tokens are genuine and where the grammar puts them, and their
literals are not mistaken for anything else. -/
inductive Expr.Readable : Expr → Prop
  | nil : Readable (.literal .nil)
  | bool (b : Bool) : Readable (.literal (.bool b))
  | number {x : Number} (hx : x.isFinite = true) (hsign : x.isNegative = false) :
      Readable (.literal (.number x))
  | grouping {e : Expr} (he : Readable e) : Readable (.grouping e)
  | unary {t : Token} {e : Expr} (ht : t.Genuine)
      (hkind : t.kind = .symbol .bang ∨ t.kind = .symbol .minus) (he : Readable e) :
      Readable (.unary t e)
  | operator {r : Rank} {t : Token} {left right : Expr} (ht : t.Genuine)
      (hkind : t.kind ∈ r.operators) (hleft : Readable left) (hright : Readable right) :
      Readable (r.join left t right)
  | name {ref : Reference} (hname : ref.name.GenuineOf .identifier) : Readable (.variable ref)
  | assign {ref : Reference} {value : Expr} (hname : ref.name.GenuineOf .identifier)
      (hvalue : Readable value) : Readable (.assign ref value)
  | call {callee : Expr} {paren : Token} {arguments : List Expr} (hcallee : Readable callee)
      (hparen : paren.GenuineOf (.symbol .rightParen)) (harguments : ∀ a ∈ arguments, Readable a) :
      Readable (.call callee paren arguments)
  | get {object : Expr} {name : Token} (hobject : Readable object)
      (hname : name.GenuineOf .identifier) : Readable (.get object name)
  | set {object value : Expr} {name : Token} (hobject : Readable object)
      (hname : name.GenuineOf .identifier) (hvalue : Readable value) :
      Readable (.set object name value)
  | this {ref : Reference} (hname : ref.name.GenuineOf (.keyword .this)) : Readable (.this ref)
  | super {ref : Reference} {method : Token} (hname : ref.name.GenuineOf (.keyword .super))
      (hmethod : method.GenuineOf .identifier) : Readable (.super ref method)

/-! ### Words -/

theorem isAtomChar_of_wordChar {c : Char} (h : isWordChar c = true) : isAtomChar c = true := by
  have hne : ∀ d : Char, isWordChar d = false → c ≠ d := by
    rintro d hd rfl
    rw [hd] at h
    cases h
  simp [isAtomChar, hne ' ' (by decide), hne '(' (by decide), hne ')' (by decide)]

theorem isAtomChar_of_digit {c : Char} (h : c.isDigit = true) : isAtomChar c = true :=
  isAtomChar_of_wordChar (by simp [isWordChar, h])

theorem IsName.isAtom {z : String} (h : IsName z) : IsAtom z := by
  refine ⟨?_, List.all_eq_true.2 fun c hc =>
    isAtomChar_of_wordChar (List.all_eq_true.1 h.2.1 c hc)⟩
  intro hnil
  have := h.1
  rw [hnil] at this
  cases this

/-- No symbol is spelled like a word. -/
theorem Symbol.ofChars?_word {cs : List Char} (h : cs.head?.any isWordStart = true) :
    Symbol.ofChars? cs = none := by
  refine Option.eq_none_iff_forall_ne_some.2 fun s hs => ?_
  rw [← Symbol.chars_of_ofChars? hs] at h
  cases s <;> exact absurd h (by decide)

/-- A number without a sign is printed as a numeral. -/
theorem Number.brief_numeral {x : Number} (hx : x.isFinite = true) (hsign : x.isNegative = false) :
    ∃ q, Numeral x.brief.toList q := by
  have hending : IsEnding [] := .inl rfl
  obtain ⟨q, hq, -⟩ := unsignedText_numeral hending hx
  refine ⟨q, ?_⟩
  rwa [brief, String.toList_ofList, render_eq (isFinite_iff.1 hx).1, hsign]

theorem Numeral.isAtom {z : String} {q : ℚ} (h : Numeral z.toList q) : IsAtom z := by
  refine ⟨?_, List.all_eq_true.2 fun c hc => ?_⟩
  · obtain ⟨c, ds, hcs, -⟩ := h.head
    rw [hcs]
    nofun
  · have hothers : ['.', 'e', '+', '-'].all isAtomChar = true := by decide
    exact (h.mem c hc).elim isAtomChar_of_digit (List.all_eq_true.1 hothers c)

/-! ### Tokens from their spellings -/

namespace Token

namespace Kind.Spells

variable {z : String}

theorem symbol_eq {s : Symbol} (h : Spells (.symbol s) z) : z = String.ofList s.chars := by
  cases h
  rfl

theorem keyword_eq {k : Keyword} (h : Spells (.keyword k) z) : z = k.word := by
  cases h
  rfl

theorem isName (h : Spells .identifier z) : IsName z := by
  cases h
  assumption

end Kind.Spells

namespace Genuine

variable {t : Token}

theorem lexeme_symbol (h : t.Genuine) {s : Symbol} (hkind : t.kind = .symbol s) :
    t.lexeme = String.ofList s.chars :=
  (hkind ▸ h.spells).symbol_eq

theorem lexeme_keyword (h : t.Genuine) {k : Keyword} (hkind : t.kind = .keyword k) :
    t.lexeme = k.word :=
  (hkind ▸ h.spells).keyword_eq

theorem isName_lexeme (h : t.Genuine) (hkind : t.kind = .identifier) : IsName t.lexeme :=
  (hkind ▸ h.spells).isName

/-- A symbol or a word is told by its spelling, but for its line. -/
theorem bare_eq (h : t.Genuine) (hkind : t.kind ≠ .number ∧ t.kind ≠ .string) :
    Relabeling.bare.token t = ofSpelling t.lexeme := by
  obtain ⟨kind, z, line, value⟩ := t
  obtain ⟨hspells, hvalue⟩ := h
  dsimp only at hspells hvalue hkind
  subst hvalue
  cases hspells with
  | symbol s => simp [Relabeling.token, Relabeling.bare, ofSpelling, Kind.valueOf]
  | keyword k =>
    have hsymbol : Symbol.ofChars? k.word.toList = none := by cases k <;> decide
    simp [Relabeling.token, Relabeling.bare, ofSpelling, Kind.valueOf, hsymbol, Kind.ofWord]
  | identifier hz =>
    have hsymbol := Symbol.ofChars?_word hz.1
    simp [Relabeling.token, Relabeling.bare, ofSpelling, Kind.valueOf, hsymbol, Kind.ofWord, hz.2.2]
  | whole | decimal => exact absurd rfl hkind.1
  | string => exact absurd rfl hkind.2

end Genuine

end Token

/-! ### Rows -/

open Grammar

section

variable (r : Rank) (left : Expr) (t : Token) (right : Expr)

theorem form_join : (r.join left t right).form = .row t.lexeme [left.form, right.form] := by
  cases r <;> rfl

theorem render_join :
    (r.join left t right).render =
      return parenthesize t.lexeme [← left.render, ← right.render] := by
  cases r <;> rfl

end

/-- The operators between two operands show where they end. -/
theorem isAtom_operator {r : Rank} {t : Token} (ht : t.Genuine) (hkind : t.kind ∈ r.operators) :
    IsAtom t.lexeme := by
  have hsymbol : ∀ s : Symbol, s ≠ .leftParen → s ≠ .rightParen →
      IsAtom (String.ofList s.chars) := by
    intro s hopen hclose
    cases s <;> first | decide | contradiction
  have hkeyword : ∀ k : Keyword, IsAtom k.word := by
    intro k
    cases k <;> decide
  cases hk : t.kind with
  | symbol s =>
    rw [hk] at hkind
    rw [ht.lexeme_symbol hk]
    refine hsymbol s ?_ ?_ <;>
      · rintro rfl
        cases r <;> exact absurd hkind (by decide)
  | keyword k =>
    rw [ht.lexeme_keyword hk]
    exact hkeyword k
  | identifier | string | number | eof =>
    rw [hk] at hkind
    cases r <;> exact absurd hkind (by decide)

/-! ### What is printed is the text of the form -/

/-- A row is printed from what is printed for its parts. -/
theorem render_row {e : Expr} {head : String} {parts : List Form} (hform : e.form = .row head parts)
    (hhead : IsAtom head) (hparts : ∀ f ∈ parts, f.Proper)
    (hrender : e.render = .ok (parenthesize head (parts.map fun f => String.ofList f.text))) :
    e.form.Proper ∧ e.render = .ok (String.ofList e.form.text) := by
  rw [hform]
  exact ⟨.row hhead hparts, by rw [hrender, parenthesize_eq head hparts]⟩

/-- What is printed for a list of arguments. -/
theorem renderArguments_eq {es : List Expr}
    (h : ∀ e ∈ es, e.form.Proper ∧ e.render = .ok (String.ofList e.form.text)) :
    (∀ f ∈ formsOfArguments es, f.Proper) ∧
      renderArguments es = .ok ((formsOfArguments es).map fun f => String.ofList f.text) := by
  induction es with
  | nil => exact ⟨nofun, rfl⟩
  | cons e es ih =>
    obtain ⟨⟨he, hrender⟩, hes⟩ := List.forall_mem_cons.1 h
    obtain ⟨hforms, hrenders⟩ := ih hes
    exact ⟨List.forall_mem_cons.2 ⟨he, hforms⟩, by rw [renderArguments, hrender, hrenders]; rfl⟩

theorem Token.GenuineOf.proper_word {t : Token} (h : t.GenuineOf .identifier) :
    (Form.word t.lexeme).Proper :=
  .word (h.genuine.isName_lexeme h.kind).isAtom

/-- **What is printed for a readable expression** is the text of its form, and the form shows where
its parts end. -/
theorem Expr.Readable.render_eq {e : Expr} (h : e.Readable) :
    e.form.Proper ∧ e.render = .ok (String.ofList e.form.text) := by
  induction h with
  | nil => exact ⟨.word (by decide), rfl⟩
  | bool b => cases b <;> exact ⟨.word (by decide), rfl⟩
  | number hx hsign =>
    obtain ⟨q, hq⟩ := Number.brief_numeral hx hsign
    exact ⟨.word hq.isAtom, by rw [Expr.form, Form.ofList_text_word, Expr.render]⟩
  | name hname => exact ⟨hname.proper_word, by rw [Expr.form, Form.ofList_text_word, Expr.render]⟩
  | this hname => exact ⟨.word (by decide), rfl⟩
  | grouping he ih =>
    refine render_row rfl (by decide) (by simpa using ih.1) ?_
    simp [Expr.render, ih.2]
  | unary ht hkind he ih =>
    refine render_row rfl ?_ (by simpa using ih.1) (by simp [Expr.render, ih.2])
    rcases hkind with hkind | hkind <;>
      · rw [ht.lexeme_symbol hkind]
        decide
  | @operator r t left right ht hkind hleft hright ihleft ihright =>
    refine render_row (form_join ..) (isAtom_operator ht hkind) (by simp [ihleft.1, ihright.1]) ?_
    rw [render_join, ihleft.2, ihright.2]
    rfl
  | assign hname hvalue ih =>
    refine render_row rfl (by decide) (by simp [hname.proper_word, ih.1]) ?_
    simp [Expr.render, ih.2]
  | call hcallee hparen harguments ihcallee iharguments =>
    obtain ⟨hforms, hrenders⟩ := renderArguments_eq iharguments
    refine render_row rfl (by decide) (List.forall_mem_cons.2 ⟨ihcallee.1, hforms⟩) ?_
    rw [Expr.render, ihcallee.2, hrenders]
    rfl
  | get hobject hname ih =>
    refine render_row rfl (by decide) (by simp [hname.proper_word, ih.1]) ?_
    simp [Expr.render, ih.2]
  | @set object value name hobject hname hvalue ihobject ihvalue =>
    have hparts : ∀ f ∈ [object.form, .word name.lexeme], f.Proper := by
      simp [ihobject.1, hname.proper_word]
    have hproperty : (Form.row "." [object.form, .word name.lexeme]).Proper :=
      .row (by decide) hparts
    refine render_row rfl (by decide) (by simp [hproperty, ihvalue.1]) ?_
    have hprinted : parenthesize "." [String.ofList object.form.text, name.lexeme] =
        String.ofList (Form.row "." [object.form, .word name.lexeme]).text := by
      simpa using parenthesize_eq "." hparts
    rw [Expr.render, ihobject.2, ihvalue.2, List.map_cons, List.map_singleton, ← hprinted]
    rfl
  | super hname hmethod =>
    refine render_row rfl (by decide) (by simpa using hmethod.proper_word) ?_
    simp [Expr.render]

/-! ### The form shows the expression -/

theorem numberOf_brief {x : Number} (hx : x.isNaN = false) : numberOf x.brief = x := by
  have hinjective : Set.InjOn Number.brief {x | x.isNaN = false} := fun x hx y hy h =>
    Number.render_injective (.inl rfl) hx hy (String.ofList_injective h)
  exact hinjective.leftInvOn_invFunOn hx

theorem wordExpr_name {z : String} (hz : IsName z) :
    wordExpr z = .variable ⟨0, .ofSpelling z⟩ := by
  have hne : ∀ w : String, ¬IsName w → z ≠ w := by
    rintro w hw rfl
    exact hw hz
  rw [wordExpr, if_neg (hne "nil" (by decide)), if_neg (hne "true" (by decide)),
    if_neg (hne "false" (by decide)), if_neg (hne "this" (by decide)), if_pos hz]

theorem wordExpr_brief {x : Number} (hx : x.isFinite = true) (hsign : x.isNegative = false) :
    wordExpr x.brief = .literal (.number x) := by
  obtain ⟨q, hq⟩ := Number.brief_numeral hx hsign
  obtain ⟨c, cs, hcs, hc⟩ := hq.head
  have hne : ∀ w : String, w.toList.head?.any Char.isDigit = false → x.brief ≠ w := by
    intro w hw h
    rw [← h, hcs] at hw
    simp [hc] at hw
  have hname : ¬IsName x.brief := by
    intro h
    have hstart := h.1
    rw [hcs] at hstart
    exact absurd hc (Bool.eq_false_iff.1 (isDigit_of_wordStart hstart))
  rw [wordExpr, if_neg (hne "nil" (by decide)), if_neg (hne "true" (by decide)),
    if_neg (hne "false" (by decide)), if_neg (hne "this" (by decide)), if_neg hname,
    numberOf_brief (Number.isFinite_iff.1 hx).1]

theorem exprsOfForms_eq_map (fs : List Form) : exprsOfForms fs = fs.map Form.toExpr := by
  induction fs with
  | nil => rfl
  | cons f fs ih => rw [exprsOfForms, ih, List.map_cons]

namespace Token.GenuineOf

variable {t : Token}

theorem toExpr_word (h : t.GenuineOf .identifier) :
    (Form.word t.lexeme).toExpr = .variable ⟨0, Relabeling.bare.token t⟩ := by
  rw [Form.toExpr, wordExpr_name (h.genuine.isName_lexeme h.kind),
    h.genuine.bare_eq (by simp [h.kind])]

theorem bare_symbol {s : Symbol} (h : t.GenuineOf (.symbol s)) :
    Relabeling.bare.token t = ofSpelling (String.ofList s.chars) := by
  rw [h.genuine.bare_eq (by simp [h.kind]), h.genuine.lexeme_symbol h.kind]

theorem bare_keyword {k : Keyword} (h : t.GenuineOf (.keyword k)) :
    Relabeling.bare.token t = ofSpelling k.word := by
  rw [h.genuine.bare_eq (by simp [h.kind]), h.genuine.lexeme_keyword h.kind]

end Token.GenuineOf

/-- An operator before its operand is told by its spelling. -/
theorem rowExpr_unary {t : Token} (ht : t.Genuine)
    (hkind : t.kind = .symbol .bang ∨ t.kind = .symbol .minus) (e : Expr) :
    rowExpr t.lexeme [e] = .unary (Relabeling.bare.token t) e := by
  rcases hkind with hkind | hkind <;>
    · rw [(⟨ht, hkind⟩ : t.GenuineOf _).bare_symbol, ht.lexeme_symbol hkind]
      rfl

/-- An operator between two operands is told by its spelling. -/
theorem rowExpr_operator {r : Rank} {t : Token} (ht : t.Genuine) (hkind : t.kind ∈ r.operators)
    (left right : Expr) :
    rowExpr t.lexeme [left, right] = r.join left (Relabeling.bare.token t) right := by
  cases r <;> simp only [Rank.operators, List.mem_cons, List.not_mem_nil, or_false] at hkind
  case disjunction | conjunction =>
    rw [(⟨ht, hkind⟩ : t.GenuineOf _).bare_keyword, ht.lexeme_keyword hkind]
    rfl
  case equality | term | factor =>
    rcases hkind with hkind | hkind <;>
      · rw [(⟨ht, hkind⟩ : t.GenuineOf _).bare_symbol, ht.lexeme_symbol hkind]
        rfl
  case comparison =>
    rcases hkind with hkind | hkind | hkind | hkind <;>
      · rw [(⟨ht, hkind⟩ : t.GenuineOf _).bare_symbol, ht.lexeme_symbol hkind]
        rfl

/-- **The form of a readable expression shows the expression**, without lines and numbers. -/
theorem Expr.Readable.toExpr_form {e : Expr} (h : e.Readable) :
    e.form.toExpr = e.relabel .bare := by
  induction h with
  | nil => rfl
  | bool b => cases b <;> rfl
  | number hx hsign => exact wordExpr_brief hx hsign
  | name hname => exact hname.toExpr_word
  | this hname =>
    rw [Expr.relabel, Reference.relabel, hname.bare_keyword]
    rfl
  | grouping he ih =>
    rw [Expr.form, Form.toExpr, exprsOfForms, exprsOfForms, ih]
    rfl
  | unary ht hkind he ih =>
    rw [Expr.form, Form.toExpr, exprsOfForms, exprsOfForms, ih, rowExpr_unary ht hkind]
    rfl
  | operator ht hkind hleft hright ihleft ihright =>
    rw [form_join, Form.toExpr, exprsOfForms, exprsOfForms, exprsOfForms, ihleft, ihright,
      rowExpr_operator ht hkind, Rank.join_relabel]
  | assign hname hvalue ih =>
    rw [Expr.form, Form.toExpr, exprsOfForms, exprsOfForms, exprsOfForms, hname.toExpr_word, ih]
    rfl
  | @call callee paren arguments hcallee hparen harguments ihcallee iharguments =>
    have hshown : exprsOfForms (formsOfArguments arguments) = relabelArguments .bare arguments := by
      rw [exprsOfForms_eq_map, formsOfArguments_eq_map, List.map_map, relabelArguments_eq_map]
      exact List.map_congr_left iharguments
    rw [Expr.form, Form.toExpr, exprsOfForms, ihcallee, hshown, Expr.relabel, hparen.bare_symbol]
    rfl
  | get hobject hname ih =>
    rw [Expr.form, Form.toExpr, exprsOfForms, exprsOfForms, exprsOfForms, hname.toExpr_word, ih]
    rfl
  | set hobject hname hvalue ihobject ihvalue =>
    rw [Expr.form, Form.toExpr, exprsOfForms, exprsOfForms, exprsOfForms, Form.toExpr, exprsOfForms,
      exprsOfForms, exprsOfForms, hname.toExpr_word, ihobject, ihvalue]
    rfl
  | super hname hmethod =>
    rw [Expr.form, Form.toExpr, exprsOfForms, exprsOfForms, hmethod.toExpr_word, Expr.relabel,
      Reference.relabel, hname.bare_keyword]
    rfl

/-- Readable expressions **with the same printed form** are the same, but for lines and numbers. -/
theorem Expr.Readable.eq_of_render {e e' : Expr} (h : e.Readable) (h' : e'.Readable)
    (hrender : e.render = e'.render) : e.relabel .bare = e'.relabel .bare := by
  obtain ⟨hproper, htext⟩ := h.render_eq
  obtain ⟨hproper', htext'⟩ := h'.render_eq
  rw [htext, htext'] at hrender
  have hform := Form.text_injective hproper hproper'
    (String.ofList_injective (Except.ok.inj hrender))
  rw [← h.toExpr_form, hform, h'.toExpr_form]

end Lox
