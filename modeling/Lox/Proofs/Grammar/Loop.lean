/-
**Loops in a text.**

Every word `for` in the tokens of a program begins a loop, whose parts follow it.  The same loop can
be written by hand, as a block with a `while` loop: the initializer stands before the loop, the
increment behind the body, and a condition that is absent is written as `true`.  The grammar makes
the same tree of both; so one can be written for the other wherever the loop stands, at any depth of
the program, and the tree of the whole is the same.

Main definitions:

* `Lox.ForLoop`, `Lox.ForLoop.tree` — **the parts of a loop**, and the tree that is made of them;
* `Lox.ForTokens`, `Lox.ForLoop.DerivedFrom` — its tokens, part by part;
* `Lox.ForLoop.byHand` — the tokens of the loop **written by hand**;
* `Lox.Grammar.LoopAt`, `Lox.Grammar.BeginsLoop` — a loop at its place in a part of a program;
* `Lox.Grammar.BeginLoops` — **every** word `for` of some tokens of the part begins one.

Main results:

* `Lox.ForLoop.DerivedFrom.byHand` — the loop that is written by hand has the same tree;
* `Lox.Grammar.BeginLoops.append`, `Lox.Grammar.BeginLoops.frame`,
  `Lox.Grammar.BeginLoops.frame_statement`, `Lox.Grammar.BeginLoops.among` — tokens in a row, and
  the tokens of a part, of a statement and of several parts inside a part;
* `Lox.Grammar.Parses.beginLoops` — every word `for` of a part begins a loop;
* `Lox.Grammar.Program.beginsLoop` — **a loop may be written by hand**, wherever it stands.
-/

import Lox.Proofs.Grammar.Proper
import Lox.Proofs.Tree.Context

set_option relaxedAutoImplicit false
set_option autoImplicit false

namespace Lox

open Grammar

/-! ### The parts of a loop -/

/-- The parts of a `for` loop. -/
structure ForLoop where
  initializer : Option Stmt
  condition : Option Expr
  increment : Option Expr
  body : Stmt

/-- The tokens of a `for` loop behind its first word, part by part.  Those of the initializer end
with its semicolon. -/
structure ForTokens where
  opening : Token
  initializer : List Token
  condition : List Token
  semicolon : Token
  increment : List Token
  closing : Token
  body : List Token

/-- All tokens behind the first word. -/
def ForTokens.all (t : ForTokens) : List Token :=
  t.opening :: t.initializer ++ t.condition ++ t.semicolon :: t.increment ++ t.closing :: t.body

/-- A symbol on a line. -/
def Symbol.token (line : Int) (s : Symbol) : Token :=
  ⟨.symbol s, String.ofList s.chars, line, .none⟩

/-- A reserved word on a line. -/
def Keyword.token (line : Int) (k : Keyword) : Token := ⟨.keyword k, k.word, line, .none⟩

/-- Tokens in braces. -/
def braced (line : Int) (ts : List Token) : List Token :=
  Symbol.leftBrace.token line :: ts ++ [Symbol.rightBrace.token line]

namespace ForLoop

/-- The tree that is made of the parts. -/
def tree (l : ForLoop) : Stmt := .forLoop l.initializer l.condition l.increment l.body

section

variable (l : ForLoop)

/-- What is done in a round: the body, and the increment if there is one. -/
def round : Stmt :=
  match l.increment with
  | none => l.body
  | some e => .block [l.body, .expression e]

/-- The rounds, as a `while` loop. -/
def loop : Stmt := .loop (l.condition.getD (.literal (.bool true))) l.round

theorem declared?_tree : l.tree.declared? = none := Stmt.forLoop_declared? ..

theorem tree_eq : l.tree = l.initializer.elim l.loop fun s => .block [s, l.loop] := by
  obtain ⟨initializer, condition, increment, body⟩ := l
  cases initializer <;> cases increment <;> rfl

end

/-- The grammar derives the parts of a loop from its tokens; `closed` is said of the body. -/
structure DerivedFrom (l : ForLoop) (closed : Bool) (t : ForTokens) : Prop where
  opening : t.opening.kind = .symbol .leftParen
  initializer : ForInitializer t.initializer l.initializer
  condition : Optional (Derives .assignment) t.condition l.condition
  semicolon : t.semicolon.kind = .symbol .semicolon
  increment : Optional (Derives .assignment) t.increment l.increment
  closing : t.closing.kind = .symbol .rightParen
  body : Parses (.statement closed) t.body l.body

section

variable (l : ForLoop) (line : Int) (t : ForTokens)

/-- The body, followed by the increment if there is one. -/
def roundByHand : List Token :=
  match l.increment with
  | none => t.body
  | some _ => braced line (t.body ++ (t.increment ++ [Symbol.semicolon.token line]))

/-- The condition; one that is absent holds. -/
def conditionByHand : List Token :=
  match l.condition with
  | none => [Keyword.true_.token line]
  | some _ => t.condition

/-- The `while` loop. -/
def loopByHand : List Token :=
  Keyword.while_.token line :: (Symbol.leftParen.token line :: l.conditionByHand line t ++
    [Symbol.rightParen.token line]) ++ l.roundByHand line t

/-- A loop **written by hand**, with the new tokens on the given line: a `while` loop, behind the
initializer and in a block with it if there is one. -/
def byHand : List Token :=
  match l.initializer with
  | none => l.loopByHand line t
  | some _ => braced line (t.initializer ++ l.loopByHand line t)

end

variable {l : ForLoop} {closed : Bool} {t : ForTokens}

/-- Two declarations in braces are a block. -/
theorem parses_braced {ts us : List Token} {s s' : Stmt} (line : Int)
    (hs : Parses .declaration ts s) (hs' : Parses .declaration us s') :
    Parses (.statement true) (braced line (ts ++ us)) (.block [s, s']) := by
  have hblock : Parses (.statement true)
      (Symbol.leftBrace.token line :: ([(ts, s), (us, s')].map Prod.fst).flatten ++
        [Symbol.rightBrace.token line])
      (.block ([(ts, s), (us, s')].map Prod.snd)) := .block rfl (by simp [hs, hs']) rfl
  simpa [braced] using hblock

/-- A single word is an expression. -/
theorem derives_of_primary {ts : List Token} {e : Expr} (h : Derives .primary ts e) :
    Derives .assignment ts e :=
  .tighter rfl <| .tighter rfl <| .tighter rfl <| .tighter rfl <| .tighter rfl <| .tighter rfl <|
    .tighter rfl <| .tighter rfl <| .tighter rfl h

theorem optional_some {α : Type} {P : List Token → α → Prop} {ts : List Token} {a : α}
    (h : Optional P ts (some a)) : P ts a := by
  cases h with
  | some ha => exact ha

theorem declaration_of_initializer {ts : List Token} {s : Stmt}
    (h : ForInitializer ts (some s)) : Parses .declaration ts s := by
  cases h with
  | var hs => exact .var hs
  | expression hs => exact .statement (.expression hs)

namespace DerivedFrom

variable (h : l.DerivedFrom closed t) (line : Int)

include h

theorem round : ∃ closed', (closed = true → closed' = true) ∧
    Parses (.statement closed') (l.roundByHand line t) l.round := by
  have hincrement := h.increment
  unfold roundByHand ForLoop.round
  cases hi : l.increment with
  | none => exact ⟨closed, id, h.body⟩
  | some e =>
    have he := optional_some (hi ▸ hincrement)
    exact ⟨true, fun _ => rfl,
      parses_braced line (.statement h.body) (.statement (.expression (.mk he rfl)))⟩

theorem condition_byHand :
    Derives .assignment (l.conditionByHand line t)
      (l.condition.getD (.literal (.bool true))) := by
  unfold conditionByHand
  cases hc : l.condition with
  | none => exact derives_of_primary (.true_ rfl)
  | some c =>
    have hcondition := h.condition
    rw [hc] at hcondition
    exact optional_some hcondition

theorem loop : ∃ closed', (closed = true → closed' = true) ∧
    Parses (.statement closed') (l.loopByHand line t) l.loop := by
  obtain ⟨closed', hclosed, hround⟩ := h.round line
  exact ⟨closed', hclosed, .whileLoop rfl (.mk rfl (h.condition_byHand line) rfl) hround⟩

/-- The loop that is **written by hand** has the same tree.  If the other is closed, so is this. -/
theorem byHand : ∃ closed', (closed = true → closed' = true) ∧
    Parses (.statement closed') (l.byHand line t) l.tree := by
  obtain ⟨closed', hclosed, hloop⟩ := h.loop line
  have hinitializer := h.initializer
  rw [tree_eq]
  unfold ForLoop.byHand
  cases hi : l.initializer with
  | none => exact ⟨closed', hclosed, hloop⟩
  | some s =>
    rw [hi] at hinitializer
    exact ⟨true, fun _ => rfl,
      parses_braced line (declaration_of_initializer hinitializer) (.statement hloop)⟩

end DerivedFrom

end ForLoop

namespace Grammar

/-! ### Tokens without loops -/

/-- No token is the word `for`. -/
def LoopFree (ts : List Token) : Prop := ∀ t ∈ ts, t.kind ≠ .keyword .for_

theorem loopFree_nil : LoopFree [] := by simp [LoopFree]

@[simp] theorem loopFree_cons {t : Token} {ts : List Token} :
    LoopFree (t :: ts) ↔ t.kind ≠ .keyword .for_ ∧ LoopFree ts := List.forall_mem_cons

@[simp] theorem loopFree_append {ts us : List Token} :
    LoopFree (ts ++ us) ↔ LoopFree ts ∧ LoopFree us := List.forall_mem_append

section

variable {ts : List Token}

theorem Separated.loopFree {parts : List (List Token)} (h : Separated parts ts)
    (hparts : ∀ part ∈ parts, LoopFree part) : LoopFree ts := by
  induction h with
  | none => exact loopFree_nil
  | one ts => exact hparts ts (by simp)
  | more hcomma _ ih =>
    obtain ⟨hfirst, hrest⟩ := List.forall_mem_cons.1 hparts
    simp [hcomma, hfirst, ih hrest]

/-- There are no loops in expressions. -/
theorem Derives.loopFree {r : Rank} {e : Expr} (h : Derives r ts e) : LoopFree ts := by
  induction h with
  | tighter _ _ ih => exact ih
  | assign hname hequals _ ih => simp [hname, hequals, ih]
  | set _ hdot hname hequals _ iho ihv => simp [hdot, hname, hequals, iho, ihv]
  | @operator r _ _ _ _ _ t _ _ ht _ ihl ihr =>
    have hkind : t.kind ≠ .keyword .for_ := by
      intro hfor
      rw [hfor] at ht
      cases r <;> simp [Rank.operators] at ht
    simp [hkind, ihl, ihr]
  | unary ht _ ih => rcases ht with ht | ht <;> simp [ht, ih]
  | call _ hopening hcommas _ _ hclosing ihf ihas =>
    have harguments := hcommas.loopFree (by simpa using fun a b hab => ihas (a, b) hab)
    simp [hopening, hclosing, ihf, harguments, loopFree_nil]
  | get _ hdot hname ih => simp [hdot, hname, ih, loopFree_nil]
  | false_ ht | true_ ht | nil ht | name ht | this ht => simp [ht, loopFree_nil]
  | literal ht => rcases ht with ht | ht <;> simp [ht, loopFree_nil]
  | super ht hdot hmethod => simp [ht, hdot, hmethod, loopFree_nil]
  | grouping hopening _ hclosing ih => simp [hopening, hclosing, ih, loopFree_nil]

theorem Optional.loopFree {α : Type} {P : List Token → α → Prop} {a? : Option α}
    (h : Optional P ts a?) (hP : ∀ ts a, P ts a → LoopFree ts) : LoopFree ts := by
  cases h with
  | none => exact loopFree_nil
  | some ha => exact hP _ _ ha

theorem Variable.loopFree {s : Stmt} (h : Variable ts s) : LoopFree ts := by
  cases h with
  | mk hvar hname hinitializer hsemicolon =>
    have hfree := hinitializer.loopFree fun ts e h => by
      cases h with
      | mk hequals he => simp [hequals, he.loopFree]
    simp [hvar, hname, hfree, hsemicolon, loopFree_nil]

theorem ExpressionStatement.loopFree {s : Stmt} (h : ExpressionStatement ts s) : LoopFree ts := by
  cases h with
  | mk he hsemicolon => simp [he.loopFree, hsemicolon, loopFree_nil]

theorem ForInitializer.loopFree {s? : Option Stmt} (h : ForInitializer ts s?) : LoopFree ts := by
  cases h with
  | none hsemicolon => simp [hsemicolon, loopFree_nil]
  | var hs => exact hs.loopFree
  | expression hs => exact hs.loopFree

theorem Superclass.loopFree {ref : Reference} (h : Superclass ts ref) : LoopFree ts := by
  cases h with
  | mk hless hname => simp [hless, hname, loopFree_nil]

theorem Condition.loopFree {e : Expr} (h : Condition ts e) : LoopFree ts := by
  cases h with
  | mk hopening he hclosing => simp [hopening, he.loopFree, hclosing, loopFree_nil]

end

/-! ### Places in a list of tokens -/

section

variable (us vs : List Token) {before rest : List Token} {word : Token}

/-- A token of two stretches is in the first or in the second one. -/
theorem split_append (h : us ++ vs = before ++ word :: rest) :
    (∃ rs, us = before ++ word :: rs ∧ rest = rs ++ vs) ∨
      ∃ bs, vs = bs ++ word :: rest ∧ before = us ++ bs := by
  rcases List.append_eq_append_iff.1 h with ⟨bs, hbefore, hvs⟩ | ⟨cs, hus, hrest⟩
  · exact .inr ⟨bs, hvs, hbefore⟩
  · rcases List.cons_eq_append_iff.1 hrest with ⟨rfl, hvs⟩ | ⟨rs, rfl, hrest⟩
    · exact .inr ⟨[], hvs, by simp [hus]⟩
    · exact .inl ⟨rs, hus, (List.cons.inj hrest).2⟩

theorem not_loopFree (hword : word.kind = .keyword .for_) : ¬ LoopFree (before ++ word :: rest) :=
  fun h => h word (by simp) hword

/-- A token of several stretches is in one of them. -/
theorem exists_part {α : Type} {parts : List (List Token × α)}
    (h : (parts.map Prod.fst).flatten = before ++ word :: rest) :
    ∃ ds d es bs rs, parts = ds ++ d :: es ∧ d.1 = bs ++ word :: rs ∧
      before = (ds.map Prod.fst).flatten ++ bs ∧ rest = rs ++ (es.map Prod.fst).flatten := by
  induction parts generalizing before with
  | nil => simp at h
  | cons d parts ih =>
    rw [List.map_cons, List.flatten_cons] at h
    rcases split_append d.1 _ h with ⟨rs, hd, rfl⟩ | ⟨bs, hparts, rfl⟩
    · exact ⟨[], d, parts, before, rs, rfl, hd, rfl, rfl⟩
    · obtain ⟨ds, d', es, bs', rs, rfl, hd', rfl, rfl⟩ := ih hparts
      exact ⟨d :: ds, d', es, bs', rs, rfl, hd', by simp, rfl⟩

end

/-! ### Loops at their places -/

/-- A part that may stand wherever another may: it is closed if that is. -/
inductive Part.Serves : Part → Part → Prop
  | same (part : Part) : Serves part part
  | statement {closed closed' : Bool} (h : closed = true → closed' = true) :
      Serves (.statement closed') (.statement closed)

/-- A loop **at its place** in a part of a program, between the tokens `before` and `after`: its
tree stands at a place of the tree of the part, and other tokens for this tree may stand there,
without any change of the whole. -/
structure LoopAt (part : Part) (s : Stmt) (before after : List Token) (l : ForLoop)
    (closed : Bool) : Prop where
  place : ∃ K : Context, s = K.fill l.tree
  replaced : ∀ part' ts, part'.Serves (.statement closed) → Parses part' ts l.tree →
    ∃ part'', part''.Serves part ∧ Parses part'' (before ++ ts ++ after) s

/-- A loop **begins** with a word `for`, behind the tokens `before` and with the tokens `rest`
behind it. -/
def BeginsLoop (part : Part) (s : Stmt) (before rest : List Token) : Prop :=
  ∃ l closed t after, rest = t.all ++ after ∧ l.DerivedFrom closed t ∧
    LoopAt part s before after l closed

section

variable {part part' : Part} {s s' : Stmt} {before rest : List Token} {closed : Bool}
  {word : Token}

theorem Part.Serves.of_statement (h : part.Serves (.statement closed)) :
    ∃ closed', part = .statement closed' ∧ (closed = true → closed' = true) := by
  cases h with
  | same => exact ⟨closed, rfl, id⟩
  | statement hc => exact ⟨_, rfl, hc⟩

/-- What serves for anything but a statement is the same. -/
theorem Part.Serves.eq (h : part'.Serves part) (hpart : ∀ closed, part ≠ .statement closed) :
    part' = part := by
  cases h with
  | same => rfl
  | statement => exact absurd rfl (hpart _)

/-- A loop in a part of a part. -/
theorem BeginsLoop.frame (us ws : List Token) (h : BeginsLoop part' s' before rest)
    (hfills : ∀ {K : Context} {st}, st.declared? = none → s' = K.fill st →
      ∃ K' : Context, s = K'.fill st)
    (hparses : ∀ {part₁ ts}, part₁.Serves part' → Parses part₁ ts s' →
      ∃ part₂, part₂.Serves part ∧ Parses part₂ (us ++ ts ++ ws) s) :
    BeginsLoop part s (us ++ before) (rest ++ ws) := by
  obtain ⟨l, closed, t, after, rfl, hderived, ⟨K, hK⟩, hreplaced⟩ := h
  refine ⟨l, closed, t, after ++ ws, by simp, hderived, hfills l.declared?_tree hK,
    fun part₁ ts hserves hts => ?_⟩
  obtain ⟨part₂, hserves₂, hts₂⟩ := hreplaced part₁ ts hserves hts
  obtain ⟨part₃, hserves₃, hts₃⟩ := hparses hserves₂ hts₂
  exact ⟨part₃, hserves₃, by simpa using hts₃⟩

/-- **Every** word `for` of the tokens `ts`, which stand between `us` and `ws` in a part of a
program, begins a loop. -/
def BeginLoops (part : Part) (s : Stmt) (us ts ws : List Token) : Prop :=
  ∀ before rest word, ts = before ++ word :: rest → word.kind = .keyword .for_ →
    BeginsLoop part s (us ++ before) (rest ++ ws)

end

namespace BeginLoops

variable {part part' : Part} {s s' : Stmt} {us ts vs ws : List Token} {closed closed' : Bool}

theorem of_loopFree (h : LoopFree ts) : BeginLoops part s us ts ws :=
  fun _ _ _ hts hword => absurd (hts ▸ h) (not_loopFree hword)

/-- Tokens in a row. -/
theorem append (h : BeginLoops part s us ts (vs ++ ws)) (h' : BeginLoops part s (us ++ ts) vs ws) :
    BeginLoops part s us (ts ++ vs) ws := by
  intro before rest word hboth hword
  rcases split_append ts vs hboth with ⟨rs, hts, rfl⟩ | ⟨bs, hvs, rfl⟩
  · simpa using h _ _ _ hts hword
  · simpa using h' _ _ _ hvs hword

/-- Tokens between others, among which there is no word `for`. -/
theorem between (h : BeginLoops part s us ts ws) (hus : LoopFree us) (hws : LoopFree ws) :
    BeginLoops part s [] (us ++ ts ++ ws) [] := by
  refine append (append (of_loopFree hus) ?_) (of_loopFree hws)
  simpa using h

/-- The tokens of a part inside the part. -/
theorem frame (h : BeginLoops part' s' [] ts [])
    (hfills : ∀ {K : Context} {st}, st.declared? = none → s' = K.fill st →
      ∃ K' : Context, s = K'.fill st)
    (hparses : ∀ {part₁ ts}, part₁.Serves part' → Parses part₁ ts s' →
      ∃ part₂, part₂.Serves part ∧ Parses part₂ (us ++ ts ++ ws) s) :
    BeginLoops part s us ts ws := by
  intro before rest word hts hword
  have hloop := h before rest word hts hword
  rw [List.nil_append, List.append_nil] at hloop
  exact hloop.frame us ws hfills hparses

/-- The tokens of a statement inside a statement, which is closed if that is. -/
theorem frame_statement (h : BeginLoops (.statement closed) s' [] ts [])
    (hfills : ∀ K : Context, ∃ K' : Context, ∀ st, s' = K.fill st → s = K'.fill st)
    (hparses : ∀ {closed₁ ts}, (closed = true → closed₁ = true) →
      Parses (.statement closed₁) ts s' →
      ∃ closed₂, (closed' = true → closed₂ = true) ∧
        Parses (.statement closed₂) (us ++ ts ++ ws) s) :
    BeginLoops (.statement closed') s us ts ws := by
  refine h.frame (fun {K st} _ hK => ?_) fun hserves hts => ?_
  · obtain ⟨K', hK'⟩ := hfills K
    exact ⟨K', hK' st hK⟩
  · obtain ⟨closed₁, rfl, hclosed₁⟩ := hserves.of_statement
    obtain ⟨closed₂, hclosed₂, hwhole⟩ := hparses hclosed₁ hts
    exact ⟨_, .statement hclosed₂, hwhole⟩

/-- The tokens of several parts inside a part. -/
theorem among {α : Type} (tree : α → Stmt) {parts : List (List Token × α)}
    (hpart : ∀ closed, part' ≠ .statement closed)
    (hparts : ∀ d ∈ parts, Parses part' d.1 (tree d.2))
    (ih : ∀ d ∈ parts, BeginLoops part' (tree d.2) [] d.1 [])
    (hfills : ∀ {ds d es} {K : Context} {st}, parts = ds ++ d :: es → st.declared? = none →
      tree d.2 = K.fill st → ∃ K' : Context, s = K'.fill st)
    (hparses : ∀ {parts' : List (List Token × α)}, (∀ d ∈ parts', Parses part' d.1 (tree d.2)) →
      parts'.map Prod.snd = parts.map Prod.snd →
      Parses part (us ++ (parts'.map Prod.fst).flatten ++ ws) s) :
    BeginLoops part s us (parts.map Prod.fst).flatten ws := by
  intro before rest word hall hword
  obtain ⟨ds, d, es, bs, rs, rfl, hd, rfl, rfl⟩ := exists_part hall
  have hframe : BeginLoops part s (us ++ (ds.map Prod.fst).flatten) d.1
      ((es.map Prod.fst).flatten ++ ws) := by
    refine (ih d (by simp)).frame (hfills rfl) fun {part₁ ts} hserves hts => ?_
    obtain rfl := hserves.eq hpart
    simp only [List.forall_mem_append, List.forall_mem_cons] at hparts
    have hparts' : ∀ d' ∈ ds ++ (ts, d.2) :: es, Parses part₁ d'.1 (tree d'.2) := by
      simp only [List.forall_mem_append, List.forall_mem_cons]
      exact ⟨hparts.1, hts, hparts.2.2⟩
    have hwhole := hparses hparts' (by simp)
    exact ⟨part, .same part, by simpa using hwhole⟩
  simpa using hframe _ _ _ hd hword

end BeginLoops

end Grammar

namespace Context

/-- A place in the body of a `for` loop. -/
def forLoop (initializer : Option Stmt) (condition increment : Option Expr) (inner : Context) :
    Context :=
  let inner := match increment with
    | none => inner
    | some e => .block [] inner [.expression e]
  let inner := .loop (condition.getD (.literal (.bool true))) inner
  match initializer with
  | none => inner
  | some s => .block [s] inner []

theorem fill_forLoop (initializer : Option Stmt) (condition increment : Option Expr)
    (inner : Context) (s : Stmt) :
    (forLoop initializer condition increment inner).fill s =
      Stmt.forLoop initializer condition increment (inner.fill s) := by
  cases initializer <;> cases increment <;> rfl

end Context

namespace Grammar

/-! ### The forms of the grammar -/

namespace BeginLoops

variable {ps cs ts us is : List Token} {s s' : Stmt} {e : Expr} {closed : Bool}
  {word word' name opening closing brace brace' semicolon : Token}

theorem routine {params : List Token} {body : List (List Token × Stmt)}
    (hname : name.kind = .identifier) (hopening : opening.kind = .symbol .leftParen)
    (hcommas : Separated (params.map fun p => [p]) ps)
    (hparams : ∀ p ∈ params, p.kind = .identifier) (hlength : params.length ≤ 255)
    (hclosing : closing.kind = .symbol .rightParen) (hbrace : brace.kind = .symbol .leftBrace)
    (hbody : ∀ d ∈ body, Parses .declaration d.1 d.2) (hbrace' : brace'.kind = .symbol .rightBrace)
    (ih : ∀ d ∈ body, BeginLoops .declaration d.2 [] d.1 []) :
    BeginLoops .routine (.function (.mk name params (body.map Prod.snd))) []
      (name :: opening :: ps ++ closing :: brace :: (body.map Prod.fst).flatten ++ [brace'])
      [] := by
  have hps : LoopFree ps := hcommas.loopFree fun part hpart => by
    obtain ⟨p, hp, rfl⟩ := List.mem_map.1 hpart
    simp [hparams p hp, loopFree_nil]
  have hinside : BeginLoops .routine (.function (.mk name params (body.map Prod.snd)))
      (name :: opening :: ps ++ [closing, brace]) (body.map Prod.fst).flatten [brace'] := by
    refine among id (by simp) hbody ih ?_ ?_
    · rintro ds d es K st rfl - hd
      exact ⟨.function name params (ds.map Prod.snd) K (es.map Prod.snd), by
        simp [Context.fill, ← hd]⟩
    · intro parts' hparts' heq
      have hwhole := Parses.routine hname hopening hcommas hparams hlength hclosing hbrace hparts'
        hbrace'
      simpa [heq] using hwhole
  have hwhole := hinside.between
    (by simp [hname, hopening, hclosing, hbrace, hps, loopFree_nil])
    (by simp [hbrace', loopFree_nil])
  simpa using hwhole

theorem classDecl {superclass : Option Reference} {methods : List (List Token × Routine)}
    (hclass : word.kind = .keyword .class_) (hname : name.kind = .identifier)
    (hsuperclass : Optional Superclass ps superclass) (hbrace : brace.kind = .symbol .leftBrace)
    (hmethods : ∀ m ∈ methods, Parses .routine m.1 (.function m.2))
    (hbrace' : brace'.kind = .symbol .rightBrace)
    (ih : ∀ m ∈ methods, BeginLoops .routine (.function m.2) [] m.1 []) :
    BeginLoops .declaration (.classDecl name superclass (methods.map Prod.snd)) []
      (word :: name :: ps ++ brace :: (methods.map Prod.fst).flatten ++ [brace']) [] := by
  have hps : LoopFree ps := hsuperclass.loopFree fun _ _ h => h.loopFree
  have hinside : BeginLoops .declaration (.classDecl name superclass (methods.map Prod.snd))
      (word :: name :: ps ++ [brace]) (methods.map Prod.fst).flatten [brace'] := by
    refine among Stmt.function (by simp) hmethods ih ?_ ?_
    · rintro ds ⟨ts, r⟩ es K st rfl hst hd
      -- The place is in the body of the method, since the method itself is no statement.
      cases K with
      | function own params before inner after =>
        obtain rfl := Stmt.function.inj hd
        exact ⟨.method name superclass (ds.map Prod.snd) own params before inner after
          (es.map Prod.snd), by simp [Context.fill]⟩
      | here =>
        obtain rfl : Stmt.function r = st := hd
        cases hst
      | _ => cases hd
    · intro parts' hparts' heq
      have hwhole := Parses.classDecl hclass hname hsuperclass hbrace hparts' hbrace'
      simpa [heq] using hwhole
  have hwhole := hinside.between (by simp [hclass, hname, hps, hbrace, loopFree_nil])
    (by simp [hbrace', loopFree_nil])
  simpa using hwhole

theorem function (hfun : word.kind = .keyword .fun_) (ih : BeginLoops .routine s [] ts []) :
    BeginLoops .declaration s [] (word :: ts) [] := by
  have hinside : BeginLoops .declaration s [word] ts [] := by
    refine ih.frame (fun _ hK => ⟨_, hK⟩) fun hserves hts => ?_
    obtain rfl := hserves.eq (by simp)
    exact ⟨_, .same _, by simpa using Parses.function hfun hts⟩
  have hwhole := hinside.between (by simp [hfun, loopFree_nil]) loopFree_nil
  simpa using hwhole

theorem statement (ih : BeginLoops (.statement closed) s [] ts []) :
    BeginLoops .declaration s [] ts [] := by
  refine ih.frame (fun _ hK => ⟨_, hK⟩) fun hserves hts => ?_
  obtain ⟨closed', rfl, -⟩ := hserves.of_statement
  exact ⟨_, .same _, by simpa using Parses.statement hts⟩

theorem print (hprint : word.kind = .keyword .print) (he : Derives .assignment ts e)
    (hsemicolon : semicolon.kind = .symbol .semicolon) :
    BeginLoops (.statement true) (.print e) [] (word :: ts ++ [semicolon]) [] :=
  of_loopFree (by simp [hprint, he.loopFree, hsemicolon, loopFree_nil])

theorem ret {value : Option Expr} (hret : word.kind = .keyword .return_)
    (hvalue : Optional (Derives .assignment) ts value)
    (hsemicolon : semicolon.kind = .symbol .semicolon) :
    BeginLoops (.statement true) (.ret word value) [] (word :: ts ++ [semicolon]) [] :=
  of_loopFree
    (by simp [hret, hvalue.loopFree fun _ _ h => h.loopFree, hsemicolon, loopFree_nil])

theorem block {body : List (List Token × Stmt)} (hbrace : brace.kind = .symbol .leftBrace)
    (hbody : ∀ d ∈ body, Parses .declaration d.1 d.2) (hbrace' : brace'.kind = .symbol .rightBrace)
    (ih : ∀ d ∈ body, BeginLoops .declaration d.2 [] d.1 []) :
    BeginLoops (.statement true) (.block (body.map Prod.snd)) []
      (brace :: (body.map Prod.fst).flatten ++ [brace']) [] := by
  have hinside : BeginLoops (.statement true) (.block (body.map Prod.snd)) [brace]
      (body.map Prod.fst).flatten [brace'] := by
    refine among id (by simp) hbody ih ?_ ?_
    · rintro ds d es K st rfl - hd
      exact ⟨.block (ds.map Prod.snd) K (es.map Prod.snd), by simp [Context.fill, ← hd]⟩
    · intro parts' hparts' heq
      have hwhole := Parses.block hbrace hparts' hbrace'
      simpa [heq] using hwhole
  exact hinside.between (by simp [hbrace, loopFree_nil]) (by simp [hbrace', loopFree_nil])

theorem ifThen (hif : word.kind = .keyword .if_) (hcondition : Condition cs e)
    (ih : BeginLoops (.statement closed) s [] ts []) :
    BeginLoops (.statement false) (.cond e s none) [] (word :: cs ++ ts) [] := by
  have hinside : BeginLoops (.statement false) (.cond e s none) (word :: cs) ts [] := by
    refine ih.frame_statement (fun K => ⟨.thenBranch e K none, ?_⟩) fun _ hts => ?_
    · rintro st rfl
      rfl
    · exact ⟨false, id, by simpa using Parses.ifThen hif hcondition hts⟩
  have hwhole := hinside.between (by simp [hif, hcondition.loopFree]) loopFree_nil
  simpa using hwhole

theorem ifThenElse (hif : word.kind = .keyword .if_) (hcondition : Condition cs e)
    (hs : Parses (.statement true) ts s) (helse : word'.kind = .keyword .else_)
    (hs' : Parses (.statement closed) us s') (ih : BeginLoops (.statement true) s [] ts [])
    (ih' : BeginLoops (.statement closed) s' [] us []) :
    BeginLoops (.statement closed) (.cond e s (some s')) []
      (word :: cs ++ ts ++ word' :: us) [] := by
  have hthen : BeginLoops (.statement closed) (.cond e s (some s')) (word :: cs) ts
      (word' :: us) := by
    refine ih.frame_statement (fun K => ⟨.thenBranch e K (some s'), ?_⟩) fun hclosed hts => ?_
    · rintro st rfl
      rfl
    · rw [hclosed rfl] at hts
      exact ⟨closed, id, .ifThenElse hif hcondition hts helse hs'⟩
  have helse' : BeginLoops (.statement closed) (.cond e s (some s')) (word :: cs ++ ts ++ [word'])
      us [] := by
    refine ih'.frame_statement (fun K => ⟨.elseBranch e s K, ?_⟩) fun {closed₁ _} hclosed hus => ?_
    · rintro st rfl
      rfl
    · exact ⟨closed₁, hclosed, by simpa using Parses.ifThenElse hif hcondition hs helse hus⟩
  have hhead : LoopFree (word :: cs) := by simp [hif, hcondition.loopFree]
  have hmiddle : LoopFree [word'] := by simp [helse, loopFree_nil]
  have hwhole : BeginLoops (.statement closed) (.cond e s (some s')) []
      (word :: cs ++ ts ++ ([word'] ++ us)) [] :=
    append (append (of_loopFree hhead) (by simpa using hthen))
      (append (of_loopFree hmiddle) (by simpa using helse'))
  exact hwhole

theorem whileLoop (hwhile : word.kind = .keyword .while_) (hcondition : Condition cs e)
    (ih : BeginLoops (.statement closed) s [] ts []) :
    BeginLoops (.statement closed) (.loop e s) [] (word :: cs ++ ts) [] := by
  have hinside : BeginLoops (.statement closed) (.loop e s) (word :: cs) ts [] := by
    refine ih.frame_statement (fun K => ⟨.loop e K, ?_⟩) fun {closed₁ _} hclosed hts => ?_
    · rintro st rfl
      rfl
    · exact ⟨closed₁, hclosed, by simpa using Parses.whileLoop hwhile hcondition hts⟩
  have hwhole := hinside.between (by simp [hwhile, hcondition.loopFree]) loopFree_nil
  simpa using hwhole

theorem forLoop {initializer : Option Stmt} {condition increment : Option Expr}
    (hfor : word.kind = .keyword .for_) (hopening : opening.kind = .symbol .leftParen)
    (hinitializer : ForInitializer is initializer)
    (hcondition : Optional (Derives .assignment) cs condition)
    (hsemicolon : semicolon.kind = .symbol .semicolon)
    (hincrement : Optional (Derives .assignment) us increment)
    (hclosing : closing.kind = .symbol .rightParen) (hs : Parses (.statement closed) ts s)
    (ih : BeginLoops (.statement closed) s [] ts []) :
    BeginLoops (.statement closed) (.forLoop initializer condition increment s) []
      (word :: opening :: is ++ cs ++ semicolon :: us ++ closing :: ts) [] := by
  -- The word itself: its loop is the whole part.
  have hown : BeginLoops (.statement closed) (.forLoop initializer condition increment s) [] [word]
      (opening :: is ++ cs ++ semicolon :: us ++ closing :: ts) := by
    intro before rest word₁ hts _
    obtain ⟨rfl, rfl⟩ : before = [] ∧ rest = [] := by
      cases before with
      | nil => exact ⟨rfl, (List.cons.inj hts).2.symm⟩
      | cons => simp at hts
    exact ⟨⟨initializer, condition, increment, s⟩, closed,
      ⟨opening, is, cs, semicolon, us, closing, ts⟩, [], by simp [ForTokens.all],
      ⟨hopening, hinitializer, hcondition, hsemicolon, hincrement, hclosing, hs⟩, ⟨.here, rfl⟩,
      fun part' ts hserves hts => ⟨part', hserves, by simpa [ForLoop.tree] using hts⟩⟩
  have hhead : LoopFree (opening :: is ++ cs ++ semicolon :: us ++ [closing]) := by
    simp [hopening, hinitializer.loopFree, hcondition.loopFree fun _ _ h => h.loopFree,
      hsemicolon, hincrement.loopFree fun _ _ h => h.loopFree, hclosing, loopFree_nil]
  have hbody : BeginLoops (.statement closed) (.forLoop initializer condition increment s)
      (word :: opening :: is ++ cs ++ semicolon :: us ++ [closing]) ts [] := by
    refine ih.frame_statement (fun K => ⟨.forLoop initializer condition increment K, ?_⟩)
      fun {closed₁ _} hclosed hts => ?_
    · rintro st rfl
      rw [Context.fill_forLoop]
    · exact ⟨closed₁, hclosed, by
        simpa using Parses.forLoop hfor hopening hinitializer hcondition hsemicolon hincrement
          hclosing hts⟩
  have hwhole : BeginLoops (.statement closed) (.forLoop initializer condition increment s) []
      ([word] ++ (opening :: is ++ cs ++ semicolon :: us ++ [closing] ++ ts)) [] :=
    append (by simpa using hown) (append (of_loopFree hhead) (by simpa using hbody))
  simpa using hwhole

end BeginLoops

/-- **Every word `for` begins a loop**, whatever it is a part of. -/
theorem Parses.beginLoops {part : Part} {ts : List Token} {s : Stmt} (h : Parses part ts s) :
    BeginLoops part s [] ts [] := by
  induction h with
  | routine hname hopening hcommas hparams hlength hclosing hbrace hbody hbrace' ih =>
    exact .routine hname hopening hcommas hparams hlength hclosing hbrace hbody hbrace' ih
  | classDecl hclass hname hsuperclass hbrace hmethods hbrace' ih =>
    exact .classDecl hclass hname hsuperclass hbrace hmethods hbrace' ih
  | function hfun _ ih => exact .function hfun ih
  | var hs => exact .of_loopFree hs.loopFree
  | statement _ ih => exact .statement ih
  | expression hs => exact .of_loopFree hs.loopFree
  | print hprint he hsemicolon => exact .print hprint he hsemicolon
  | ret hret hvalue hsemicolon => exact .ret hret hvalue hsemicolon
  | block hbrace hbody hbrace' ih => exact .block hbrace hbody hbrace' ih
  | ifThen hif hcondition _ ih => exact .ifThen hif hcondition ih
  | ifThenElse hif hcondition hs helse hs' ih ih' =>
    exact .ifThenElse hif hcondition hs helse hs' ih ih'
  | whileLoop hwhile hcondition _ ih => exact .whileLoop hwhile hcondition ih
  | forLoop hfor hopening hinitializer hcondition hsemicolon hincrement hclosing hs ih =>
    exact .forLoop hfor hopening hinitializer hcondition hsemicolon hincrement hclosing hs ih

/-- **Every word `for` of a program begins a loop**, and the loop may be written by hand where it
stands: the tree of the program is the same. -/
theorem Program.beginsLoop {tokens : List Token} {program : List Stmt} (h : Program tokens program)
    {before rest : List Token} {word : Token} (htokens : tokens = before ++ word :: rest)
    (hword : word.kind = .keyword .for_) :
    ∃ (l : ForLoop) (closed : Bool) (t : ForTokens) (after : List Token),
      rest = t.all ++ after ∧ l.DerivedFrom closed t ∧
      (∃ (ss ss' : List Stmt) (K : Context), program = ss ++ K.fill l.tree :: ss') ∧
      ∀ line, Program (before ++ l.byHand line t ++ after) program := by
  obtain ⟨parts, hparts, rfl, rfl⟩ := h
  obtain ⟨ds, d, es, bs, rs, rfl, hd, rfl, rfl⟩ := exists_part htokens
  obtain ⟨hbefore, hpart, hafter⟩ : _ ∧ _ ∧ _ := by
    simpa only [List.forall_mem_append, List.forall_mem_cons] using hparts
  have hloop := hpart.beginLoops _ _ _ hd hword
  rw [List.nil_append, List.append_nil] at hloop
  obtain ⟨l, closed, t, after, rfl, hderived, ⟨K, hK⟩, hreplaced⟩ := hloop
  refine ⟨l, closed, t, after ++ (es.map Prod.fst).flatten, by simp, hderived,
    ⟨ds.map Prod.snd, es.map Prod.snd, K, by simp [hK]⟩, fun line => ?_⟩
  obtain ⟨closed', hclosed, hbyHand⟩ := hderived.byHand line
  obtain ⟨part, hserves, hts⟩ := hreplaced _ _ (.statement hclosed) hbyHand
  obtain rfl := hserves.eq (by simp)
  refine ⟨ds ++ (bs ++ l.byHand line t ++ after, d.2) :: es, ?_, by simp, by simp⟩
  simp only [List.forall_mem_append, List.forall_mem_cons]
  exact ⟨hbefore, hts, hafter⟩

end Grammar

end Lox
