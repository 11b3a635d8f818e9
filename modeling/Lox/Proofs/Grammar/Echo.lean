/-
**Parsing beside more tokens.**

Two runs of the parser are compared: one on some tokens, and one on the same tokens with more of
them behind.  As long as the first has not come to its end, both see the same token next, so that
the second does what the first does; it may have more fuel, other findings before, and other numbers
for its references.  With nothing behind and the same end mark, the two see the same token at the
end as well, and this says that fuel, earlier findings and numbers do not matter.

Main definitions:

* `Lox.Beside` — a cursor with more tokens behind;
* `Lox.Cursor.Sees` — what is next does not depend on the tokens behind;
* `Lox.Echo`, `Lox.Echoes` — **the second run does what the first does**, up to numbers.

Main results:

* `Lox.Echoes.bind`, `Lox.Echoes.recovering` — steps put together, and steps recovered from;
* `Lox.echoExpr`, `Lox.echoStmt` — **all parse steps are echoed**;
* `Lox.declarations_same` — fuel, earlier findings and numbers do not matter.
-/

import Lox.Proofs.Grammar.Completeness.Program
import Lox.Proofs.Grammar.Tracking

set_option relaxedAutoImplicit false
set_option autoImplicit false

namespace Lox

/-! ### Two cursors -/

/-- The second cursor is where the first one is, with the tokens of a text **behind**. -/
structure Beside (B : Text) (c d : Cursor) : Prop where
  rest : d.rest = c.rest ++ B.body
  endMark : d.endMark = B.mark

/-- What is next is seen without the tokens behind. -/
def Cursor.Sees (B : Text) (c : Cursor) : Prop := c.rest ≠ [] ∨ B.body = [] ∧ c.endMark = B.mark

/-- Two cursors that have been **beside** one another and are again, with the same new findings. -/
structure Abreast (B : Text) (c d c' d' : Cursor) : Prop where
  beside : Beside B c' d'
  found : ∃ new, c'.findings = new ++ c.findings ∧ d'.findings = new ++ d.findings

section

variable {B : Text} {c d c' d' c'' d'' : Cursor}

theorem Beside.abreast (h : Beside B c d) : Abreast B c d c d := ⟨h, [], rfl, rfl⟩

/-- A token is passed on both sides. -/
theorem Beside.take (h : Beside B c d) {t : Token} {rest : List Token}
    (hrest : c.rest = t :: rest) :
    d.rest = t :: (rest ++ B.body) ∧
      Abreast B c d { c with rest := rest } { d with rest := rest ++ B.body } :=
  ⟨by rw [h.rest, hrest, List.cons_append], ⟨rfl, h.endMark⟩, [], rfl, rfl⟩

/-- The same is next on both sides. -/
theorem Beside.next_eq (h : Beside B c d) (hsees : c.Sees B) : d.next = c.next := by
  unfold Cursor.next
  rw [h.rest]
  rcases hsees with hrest | ⟨hbody, hmark⟩
  · obtain ⟨t, rest, hrest⟩ := List.exists_cons_of_ne_nil hrest
    rw [hrest]
    rfl
  · rw [hbody, List.append_nil, h.endMark, hmark]

theorem Abreast.trans (h : Abreast B c d c' d') (h' : Abreast B c' d' c'' d'') :
    Abreast B c d c'' d'' := by
  obtain ⟨new, hc, hd⟩ := h.found
  obtain ⟨new', hc', hd'⟩ := h'.found
  exact ⟨h'.beside, new' ++ new, by rw [hc', hc, List.append_assoc],
    by rw [hd', hd, List.append_assoc]⟩

/-- What can be seen later could be seen before. -/
theorem Cursor.Sees.of_passes (hpasses : c.Passes c') (h : c'.Sees B) : c.Sees B := by
  rcases h with hrest | ⟨hbody, hmark⟩
  · exact .inl fun hnil => hrest (List.suffix_nil.1 (hnil ▸ hpasses.rest))
  · exact .inr ⟨hbody, hpasses.endMark ▸ hmark⟩

/-- The same token is taken on both sides, or none, unless it is the text behind that offers one. -/
theorem acceptAny_abreast (ks : List Token.Kind) (h : Beside B c d)
    (hnot : c.rest = [] → NotNext ks B.body) :
    ∃ t? c' d', Parse.acceptAny ks c = .ok t? c' ∧ Parse.acceptAny ks d = .ok t? d' ∧
      Abreast B c d c' d' := by
  rcases acceptAny_cases ks c with ⟨t, rest, hrest, ht, hstep⟩ | ⟨hnone, hstep⟩
  · obtain ⟨hrest', habreast⟩ := h.take hrest
    rcases acceptAny_cases ks d with ⟨t', rest', hrest'', -, hstep'⟩ | ⟨hnone, -⟩
    · obtain ⟨rfl, rfl⟩ := List.cons.inj (hrest'.symm.trans hrest'')
      exact ⟨_, _, _, hstep, hstep', habreast⟩
    · exact absurd ht (hnone t _ hrest')
  · refine ⟨none, c, d, hstep, ?_, h.abreast⟩
    rcases acceptAny_cases ks d with ⟨t', rest', hrest', ht', -⟩ | ⟨-, hstep'⟩
    · cases hrest : c.rest with
      | nil =>
        rw [h.rest, hrest, List.nil_append] at hrest'
        exact absurd ht' (hnot hrest t' (by rw [hrest']; rfl))
      | cons t rest =>
        obtain ⟨rfl, -⟩ := List.cons.inj (hrest'.symm.trans (h.take hrest).1)
        exact absurd ht' (hnone t' rest hrest)
    · exact hstep'

end

/-! ### Echoes -/

/-- Where a step ends. -/
def endOf {ε σ α : Type} : EStateM.Result ε σ α → σ
  | .ok _ s => s
  | .error _ s => s

/-- How a second step ends **beside** a first one: with the same result up to what `u` leaves out,
at the same place and with the same findings.  Nothing is said where the first step can no longer
see what is next, or wants for fuel. -/
inductive Echo {α γ : Type} (B : Text) (u : α → γ) (c d : Cursor) :
    EStateM.Result ParseStop Cursor α → EStateM.Result ParseStop Cursor α → Prop
  | ok {a b : α} {c' d' : Cursor} (same : u b = u a) (abreast : Abreast B c d c' d') :
      Echo B u c d (.ok a c') (.ok b d')
  | malformed {c' d' : Cursor} (abreast : Abreast B c d c' d') :
      Echo B u c d (.error .malformed c') (.error .malformed d')
  | blind {r r' : EStateM.Result ParseStop Cursor α} (h : ¬ (endOf r).Sees B) : Echo B u c d r r'
  | outOfFuel {c' : Cursor} {r' : EStateM.Result ParseStop Cursor α} :
      Echo B u c d (.error .outOfFuel c') r'

/-- A step that is orderly and is **echoed** by another one. -/
structure Echoes {α γ : Type} (B : Text) (u : α → γ) (p q : Parse α) : Prop where
  orderly : Orderly p
  echo : ∀ c d, Beside B c d → Echo B u c d (p c) (q d)

theorem Echo.behind {α γ : Type} {B : Text} {u : α → γ} {c d c' d' : Cursor}
    {r r' : EStateM.Result ParseStop Cursor α} (habreast : Abreast B c d c' d')
    (h : Echo B u c' d' r r') : Echo B u c d r r' := by
  cases h with
  | ok hsame h => exact .ok hsame (habreast.trans h)
  | malformed h => exact .malformed (habreast.trans h)
  | blind h => exact .blind h
  | outOfFuel => exact .outOfFuel

/-- A step that begins where nothing can be seen ends there. -/
theorem Course.blind {α : Type} {B : Text} {c : Cursor} {r : EStateM.Result ParseStop Cursor α}
    (hcourse : Course c r) (hblind : ¬ c.Sees B) :
    ¬ (endOf r).Sees B ∨ ∃ c', r = .error .outOfFuel c' := by
  cases hcourse with
  | ok hpasses => exact .inl fun h => hblind (h.of_passes hpasses)
  | malformed hpasses => exact .inl fun h => hblind (h.of_passes hpasses)
  | outOfFuel => exact .inr ⟨_, rfl⟩

namespace Echoes

variable {α β γ δ : Type} {B : Text} {u : α → γ} {v : β → δ} {p q : Parse α} {f g : α → Parse β}

/-- Nothing has to be shown where nothing can be seen from the start. -/
theorem of_sees (hp : Orderly p)
    (h : ∀ c d, Beside B c d → c.Sees B → Echo B u c d (p c) (q d)) : Echoes B u p q := by
  refine ⟨hp, fun c d hbeside => ?_⟩
  by_cases hsees : c.Sees B
  · exact h c d hbeside hsees
  · rcases (hp c).blind hsees with hblind | ⟨c', hfuel⟩
    · exact .blind hblind
    · rw [hfuel]
      exact .outOfFuel

theorem pure {a b : α} (h : u b = u a) : Echoes B u (Pure.pure a) (Pure.pure b) :=
  ⟨.pure a, fun _ _ hbeside => .ok h hbeside.abreast⟩

theorem outOfFuel : Echoes B u (throw .outOfFuel) q := ⟨.outOfFuel, fun _ _ _ => .outOfFuel⟩

theorem bind (hp : Echoes B u p q) (hf : ∀ a b, u b = u a → Echoes B v (f a) (g b)) :
    Echoes B v (p >>= f) (q >>= g) := by
  have horderly : ∀ a, Orderly (f a) := fun a => (hf a a rfl).orderly
  refine ⟨hp.orderly.bind horderly, fun c d hbeside => ?_⟩
  have hecho := hp.echo c d hbeside
  cases hstep : p c with
  | ok a c' =>
    rw [bind_ok hstep]
    rw [hstep] at hecho
    generalize hstep' : q d = r' at hecho
    cases hecho with
    | ok hsame habreast =>
      rw [bind_ok hstep']
      exact ((hf _ _ hsame).echo _ _ habreast.beside).behind habreast
    | blind hblind =>
      rcases (horderly a c').blind hblind with hblind | ⟨c'', hfuel⟩
      · exact .blind hblind
      · rw [hfuel]
        exact .outOfFuel
  | error stop c' =>
    rw [bind_error hstep]
    rw [hstep] at hecho
    generalize hstep' : q d = r' at hecho
    cases hecho with
    | malformed habreast =>
      rw [bind_error hstep']
      exact .malformed habreast
    | blind hblind => exact .blind hblind
    | outOfFuel => exact .outOfFuel

/-- Steps put together, the first of which has the same result on both sides. -/
theorem andThen (hp : Echoes B id p q) (hf : ∀ a, Echoes B v (f a) (g a)) :
    Echoes B v (p >>= f) (q >>= g) :=
  hp.bind fun a b h => by
    obtain rfl : b = a := h
    exact hf b

theorem map {k : α → β} (hp : Echoes B u p q) (hk : ∀ a b, u b = u a → v (k b) = v (k a)) :
    Echoes B v (k <$> p) (k <$> q) :=
  hp.bind fun a b h => .pure (hk a b h)

theorem report (t : Token) (problem : Problem) :
    Echoes B id (Parse.report t problem) (Parse.report t problem) :=
  ⟨.report t problem, fun _ _ hbeside =>
    .ok rfl ⟨⟨hbeside.rest, hbeside.endMark⟩, [⟨.token t, problem⟩], rfl, rfl⟩⟩

theorem peek : Echoes B id Parse.peek Parse.peek :=
  of_sees (fun c => .ok (.refl c)) fun _ _ hbeside hsees =>
    .ok (hbeside.next_eq hsees) hbeside.abreast

theorem reportIf (b : Bool) (problem : Problem) :
    Echoes B id (Parse.reportIf b problem) (Parse.reportIf b problem) := by
  cases b with
  | false => exact .pure rfl
  | true =>
    exact peek.andThen fun t => .report t problem

theorem fail (problem : Problem) :
    Echoes B u (Parse.fail problem : Parse α) (Parse.fail problem) := by
  refine of_sees (.fail problem) fun c d hbeside hsees => ?_
  have hnext := hbeside.next_eq hsees
  refine .malformed ⟨⟨hbeside.rest, hbeside.endMark⟩, [⟨.token c.next, problem⟩], rfl, ?_⟩
  rw [← hnext]
  rfl

theorem newReference (name : Token) :
    Echoes B Reference.unnumbered (Parse.newReference name) (Parse.newReference name) :=
  ⟨.newReference name, fun _ _ hbeside =>
    .ok rfl ⟨⟨hbeside.rest, hbeside.endMark⟩, [], rfl, rfl⟩⟩

theorem acceptAny (ks : List Token.Kind) :
    Echoes B id (Parse.acceptAny ks) (Parse.acceptAny ks) := by
  refine of_sees (.acceptAny ks) fun c d hbeside hsees => ?_
  have hnot : c.rest = [] → NotNext ks B.body := fun hnil => by
    rw [(hsees.resolve_left fun hne => hne hnil).1]
    exact .nil ks
  obtain ⟨t?, c', d', hstep, hstep', habreast⟩ := acceptAny_abreast ks hbeside hnot
  rw [hstep, hstep']
  exact .ok rfl habreast

theorem expect (e : Expectation) : Echoes B id (Parse.expect e) (Parse.expect e) := by
  refine (acceptAny [e.kind]).andThen fun t? => ?_
  cases t? with
  | none => exact .fail _
  | some t => exact .pure rfl

theorem after {k : Token.Kind} (hp : Echoes B u p q) :
    Echoes B (Option.map u) (Parse.after k p) (Parse.after k q) := by
  refine (acceptAny [k]).andThen fun t? => ?_
  cases t? with
  | none => exact .pure rfl
  | some t => exact hp.map fun a b h => congrArg some h

/-- A choice by what is next. -/
theorem choice {look : Parse Bool} (sight : List Token → Bool) {p' q' : Parse α}
    (hlook : ∀ c, look c = .ok (sight c.rest) c)
    (hsight : ∀ t ts us, sight (t :: ts) = sight (t :: us))
    (hp : Echoes B u p q) (hp' : Echoes B u p' q') :
    Echoes B u (look >>= fun b => if b then p else p') (look >>= fun b => if b then q else q') := by
  refine of_sees (.choice (fun c => ⟨_, hlook c⟩) hp.orderly hp'.orderly) ?_
  intro c d hbeside hsees
  have hsame : sight d.rest = sight c.rest := by
    rw [hbeside.rest]
    rcases hsees with hsome | ⟨hbody, -⟩
    · obtain ⟨t, rest, hrest⟩ := List.exists_cons_of_ne_nil hsome
      rw [hrest]
      exact hsight _ _ _
    · rw [hbody, List.append_nil]
  rw [bind_ok (hlook c), bind_ok (hlook d), hsame]
  cases sight c.rest with
  | true => exact hp.echo c d hbeside
  | false => exact hp'.echo c d hbeside

theorem unlessNext {k : Token.Kind} {absent : α} (hp : Echoes B u p q) :
    Echoes B u (Parse.unlessNext k absent p) (Parse.unlessNext k absent q) :=
  choice (fun ts => ts.head?.any fun t => t.kind == k) (fun _ => rfl) (fun _ _ _ => rfl)
    (.pure rfl) hp

/-- A choice by whether a block ends here. -/
theorem blockEnd {p' q' : Parse α} (hp : Echoes B u p q) (hp' : Echoes B u p' q') :
    Echoes B u (Parse.atBlockEnd >>= fun b => if b then p else p')
      (Parse.atBlockEnd >>= fun b => if b then q else q') :=
  choice (fun ts => (ts.head?.any fun t => t.kind == .symbol .rightBrace) || ts.isEmpty)
    (fun _ => rfl) (fun _ _ _ => rfl) hp hp'

end Echoes

/-! ### Recovery -/

/-- Tokens that are dropped up to a place are dropped up to there with more of them behind. -/
theorem skipFrom_append {last : Token} {ts us : List Token} (h : skipFrom last ts ≠ []) :
    skipFrom last (ts ++ us) = skipFrom last ts ++ us := by
  induction ts generalizing last with
  | nil => exact absurd rfl h
  | cons t ts ih =>
    rw [List.cons_append]
    unfold skipFrom at h ⊢
    split
    · rfl
    · rename_i hgo
      rw [if_neg hgo] at h
      exact ih h

theorem synchronize_append {ts us : List Token} (h : synchronize ts ≠ []) :
    synchronize (ts ++ us) = synchronize ts ++ us := by
  cases ts with
  | nil => exact absurd rfl h
  | cons t ts => exact skipFrom_append h

theorem Echoes.recovering {α γ : Type} {B : Text} {u : α → γ} {p q : Parse α}
    (hp : Echoes B u p q) : Echoes B (Option.map u) (recovering p) (recovering q) := by
  refine ⟨.recovering hp.orderly, fun c d hbeside => ?_⟩
  have hecho := hp.echo c d hbeside
  unfold Lox.recovering
  generalize p c = r at hecho
  generalize q d = r' at hecho
  cases hecho with
  | ok hsame habreast => exact .ok (congrArg some hsame) habreast
  | outOfFuel => exact .outOfFuel
  | @malformed c' d' habreast =>
    by_cases hsees : Cursor.Sees B { c' with rest := synchronize c'.rest }
    · have hsame : synchronize d'.rest = synchronize c'.rest ++ B.body := by
        rw [habreast.beside.rest]
        rcases hsees with hsome | ⟨hbody, -⟩
        · exact synchronize_append hsome
        · rw [hbody, List.append_nil, List.append_nil]
      exact .ok rfl ⟨⟨hsame, habreast.beside.endMark⟩, habreast.found⟩
    · exact .blind hsees
  | blind hblind =>
    cases r with
    | ok a c' => exact .blind hblind
    | error stop c' =>
      cases stop with
      | outOfFuel => exact .outOfFuel
      | malformed =>
        refine .blind fun hsees => hblind ?_
        rcases hsees with hsome | hmark
        · refine .inl fun hnil => hsome ?_
          change c'.rest = [] at hnil
          change synchronize c'.rest = []
          rw [hnil]
          rfl
        · exact .inr hmark

/-! ### Expressions -/

/-- What is known of the parse steps for expressions, the second ones with as much fuel. -/
structure EchoExpr (B : Text) (n m : Nat) : Prop where
  expr : Echoes B Expr.unnumbered (parseExpr n) (parseExpr m)
  levels : ∀ levels, Echoes B Expr.unnumbered (parseLevels n levels) (parseLevels m levels)
  operands : ∀ level tighter {left left'}, Expr.unnumbered left' = left.unnumbered →
    Echoes B Expr.unnumbered (parseOperands n level tighter left)
      (parseOperands m level tighter left')
  unary : Echoes B Expr.unnumbered (parseUnary n) (parseUnary m)
  selectors : ∀ {head head'}, Expr.unnumbered head' = head.unnumbered →
    Echoes B Expr.unnumbered (parseSelectors n head) (parseSelectors m head')
  arguments : ∀ count,
    Echoes B unnumberedArguments (parseArguments n count) (parseArguments m count)
  primary : Echoes B Expr.unnumbered (parsePrimary n) (parsePrimary m)

theorem Level.unnumbered_combine (level : Level) (left : Expr) (operator : Token) (right : Expr) :
    (level.combine left operator right).unnumbered =
      level.combine left.unnumbered operator right.unnumbered := by
  cases level <;> rfl

/-- **The parse steps for expressions are echoed.** -/
theorem echoExpr (B : Text) (n : Nat) : ∀ {m : Nat}, n ≤ m → EchoExpr B n m := by
  induction n with
  | zero => intro m _; constructor <;> intros <;> exact .outOfFuel
  | succ n ih =>
    intro m hm
    obtain ⟨m, rfl⟩ := Nat.exists_eq_succ_of_ne_zero (Nat.ne_zero_of_lt hm)
    replace ih := ih (Nat.le_of_succ_le_succ hm)
    refine ⟨?expr, ?levels, ?operands, ?unary, ?selectors, ?arguments, ?primary⟩
    case expr =>
      refine (ih.levels _).bind fun target target' htarget => ?_
      refine (Echoes.acceptAny _).andThen fun equals? => ?_
      cases equals? with
      | none => exact .pure htarget
      | some equals =>
        refine ih.expr.bind fun value value' hvalue => ?_
        -- The same kind of target is found on both sides.
        cases target with
        | «variable» ref =>
          obtain ⟨ref', rfl, hname⟩ := Expr.Matches.variable_inv htarget
          simp only [hname]
          refine (Echoes.newReference ref.name).bind fun r r' hr => .pure ?_
          rw [Expr.unnumbered, Expr.unnumbered, hr, hvalue]
        | get object name =>
          obtain ⟨object', rfl, hobject⟩ := Expr.Matches.get_inv htarget
          refine .pure ?_
          rw [Expr.unnumbered, Expr.unnumbered, hobject, hvalue]
        | _ =>
          cases target' <;> simp only [Expr.unnumbered, reduceCtorEq] at htarget
          refine (Echoes.report equals .invalidTarget).andThen fun _ => .pure ?_
          simpa only [Expr.unnumbered] using htarget
    case levels =>
      intro levels
      cases levels with
      | nil => exact ih.unary
      | cons level tighter =>
        exact (ih.levels tighter).bind fun left left' h => ih.operands level tighter h
    case operands =>
      intro level tighter left left' hleft
      refine (Echoes.acceptAny _).andThen fun operator? => ?_
      cases operator? with
      | none => exact .pure hleft
      | some operator =>
        refine (ih.levels tighter).bind fun right right' hright => ih.operands level tighter ?_
        rw [Level.unnumbered_combine, Level.unnumbered_combine, hleft, hright]
    case unary =>
      refine (Echoes.acceptAny _).andThen fun operator? => ?_
      cases operator? with
      | none => exact ih.primary.bind fun head head' h => ih.selectors h
      | some operator =>
        exact ih.unary.bind fun e e' h => .pure (by rw [Expr.unnumbered, Expr.unnumbered, h])
    case selectors =>
      intro head head' hhead
      refine (Echoes.acceptAny _).andThen fun t? => ?_
      cases t? with
      | none => exact .pure hhead
      | some t =>
        dsimp only
        split
        · refine (Echoes.unlessNext (ih.arguments 0)).bind fun arguments arguments' hargs => ?_
          refine (Echoes.expect _).andThen fun paren => ih.selectors ?_
          rw [Expr.unnumbered, Expr.unnumbered, hhead, hargs]
        · refine (Echoes.expect _).andThen fun name => ih.selectors ?_
          rw [Expr.unnumbered, Expr.unnumbered, hhead]
    case arguments =>
      intro count
      refine (Echoes.reportIf _ _).andThen fun _ => ih.expr.bind fun e e' he => ?_
      refine (Echoes.acceptAny _).andThen fun comma? => ?_
      cases comma? with
      | none => exact .pure (by simp only [unnumberedArguments, he])
      | some comma =>
        refine (ih.arguments _).bind fun more more' hmore => .pure ?_
        rw [unnumberedArguments, unnumberedArguments, he, hmore]
    case primary =>
      refine (Echoes.acceptAny _).andThen fun t? => ?_
      cases t? with
      | none => exact .fail _
      | some t =>
        dsimp only
        split
        · exact .pure rfl
        · exact .pure rfl
        · exact .pure rfl
        · refine (Echoes.expect _).andThen fun _ => (Echoes.expect _).andThen fun name => ?_
          refine (Echoes.newReference t).bind fun r r' hr => .pure ?_
          rw [Expr.unnumbered, Expr.unnumbered, hr]
        · refine (Echoes.newReference t).bind fun r r' hr => .pure ?_
          rw [Expr.unnumbered, Expr.unnumbered, hr]
        · refine (Echoes.newReference t).bind fun r r' hr => .pure ?_
          rw [Expr.unnumbered, Expr.unnumbered, hr]
        · refine ih.expr.bind fun inner inner' h => (Echoes.expect _).andThen fun _ => .pure ?_
          rw [Expr.unnumbered, Expr.unnumbered, h]
        · exact .pure rfl

/-! ### Statements -/

section

variable {B : Text} {n m : Nat}

theorem parameters_echo (h : n ≤ m) (count : Nat) :
    Echoes B id (parseParameters n count) (parseParameters m count) := by
  induction n generalizing m count with
  | zero => exact .outOfFuel
  | succ n ih =>
    obtain ⟨m, rfl⟩ := Nat.exists_eq_succ_of_ne_zero (Nat.ne_zero_of_lt h)
    refine (Echoes.reportIf _ _).andThen fun _ => (Echoes.expect _).andThen fun parameter => ?_
    refine (Echoes.acceptAny _).andThen fun comma? => ?_
    cases comma? with
    | none => exact .pure rfl
    | some comma => exact (ih (Nat.le_of_succ_le_succ h) _).andThen fun more => .pure rfl

theorem var_echo (h : n ≤ m) : Echoes B Stmt.unnumbered (parseVar n) (parseVar m) := by
  refine (Echoes.expect _).andThen fun name => ?_
  refine (Echoes.after (echoExpr B n h).expr).bind fun e e' he => ?_
  refine (Echoes.expect _).andThen fun _ => .pure ?_
  rw [Stmt.unnumbered, Stmt.unnumbered, he]

theorem expressionStatement_echo (h : n ≤ m) :
    Echoes B Stmt.unnumbered (parseExpressionStatement n) (parseExpressionStatement m) := by
  refine (echoExpr B n h).expr.bind fun e e' he => (Echoes.expect _).andThen fun _ => .pure ?_
  rw [Stmt.unnumbered, Stmt.unnumbered, he]

theorem forInitializer_echo (h : n ≤ m) :
    Echoes B (Option.map Stmt.unnumbered) (parseForInitializer n) (parseForInitializer m) := by
  refine (Echoes.acceptAny _).andThen fun t? => ?_
  cases t? with
  | none => exact (expressionStatement_echo h).map fun _ _ => congrArg some
  | some t =>
    dsimp only
    split
    · exact (var_echo h).map fun _ _ => congrArg some
    · exact .pure rfl

theorem condition_echo (h : n ≤ m) (opening closing : Expectation) :
    Echoes B Expr.unnumbered (parseCondition n opening closing)
      (parseCondition m opening closing) :=
  (Echoes.expect _).andThen fun _ => (echoExpr B n h).expr.bind fun _ _ he =>
    (Echoes.expect _).andThen fun _ => .pure he

theorem optional_echo (h : n ≤ m) (k : Token.Kind) :
    Echoes B (Option.map Expr.unnumbered) (Parse.unlessNext k none (some <$> parseExpr n))
      (Parse.unlessNext k none (some <$> parseExpr m)) :=
  .unlessNext ((echoExpr B n h).expr.map fun _ _ => congrArg some)

end

/-- What is known of the parse steps for statements, the second ones with as much fuel. -/
structure EchoStmt (B : Text) (n m : Nat) : Prop where
  declaration : Echoes B (Option.map Stmt.unnumbered) (parseDeclaration n) (parseDeclaration m)
  classDecl : Echoes B Stmt.unnumbered (parseClass n) (parseClass m)
  methods : Echoes B unnumberedMethods (parseMethods n) (parseMethods m)
  routine : ∀ kind, Echoes B Routine.unnumbered (parseRoutine n kind) (parseRoutine m kind)
  block : Echoes B unnumberedBody (parseBlock n) (parseBlock m)
  statement : Echoes B Stmt.unnumbered (parseStatement n) (parseStatement m)
  loop : Echoes B Stmt.unnumbered (parseFor n) (parseFor m)

theorem unnumberedBody_append (ss ss' : List Stmt) :
    unnumberedBody (ss ++ ss') = unnumberedBody ss ++ unnumberedBody ss' := by
  induction ss with
  | nil => rfl
  | cons s ss ih => rw [List.cons_append, unnumberedBody, unnumberedBody, ih, List.cons_append]

/-- A declaration and those behind it, without their numbers. -/
theorem unnumberedBody_toList_append {s? s?' : Option Stmt} {ss ss' : List Stmt}
    (hs : s?'.map Stmt.unnumbered = s?.map Stmt.unnumbered)
    (hss : unnumberedBody ss' = unnumberedBody ss) :
    unnumberedBody (s?'.toList ++ ss') = unnumberedBody (s?.toList ++ ss) := by
  rw [unnumberedBody_append, unnumberedBody_append, hss]
  congr 1
  cases s? <;> cases s?' <;> simp_all [unnumberedBody]

theorem unnumbered_cond {c c' : Expr} {t t' : Stmt} {e? e?' : Option Stmt}
    (hc : c'.unnumbered = c.unnumbered) (ht : t'.unnumbered = t.unnumbered)
    (he : e?'.map Stmt.unnumbered = e?.map Stmt.unnumbered) :
    (Stmt.cond c' t' e?').unnumbered = (Stmt.cond c t e?).unnumbered := by
  cases e? <;> cases e?' <;> simp_all [Stmt.unnumbered]

theorem EchoStmt.attempt {B : Text} {n m : Nat} (h : EchoStmt B n m) (hnm : n ≤ m) :
    Echoes B Stmt.unnumbered (attemptDeclaration n) (attemptDeclaration m) := by
  refine (Echoes.acceptAny _).andThen fun t? => ?_
  cases t? with
  | none => exact h.statement
  | some t =>
    dsimp only
    split
    · exact h.classDecl
    · refine (h.routine .function).bind fun r r' hr => .pure ?_
      rw [Stmt.unnumbered, Stmt.unnumbered, hr]
    · exact var_echo hnm

/-- **The parse steps for statements are echoed.** -/
theorem echoStmt (B : Text) (n : Nat) : ∀ {m : Nat}, n ≤ m → EchoStmt B n m := by
  induction n with
  | zero => intro m _; constructor <;> intros <;> exact .outOfFuel
  | succ n ih =>
    intro m hm
    obtain ⟨m, rfl⟩ := Nat.exists_eq_succ_of_ne_zero (Nat.ne_zero_of_lt hm)
    have hnm := Nat.le_of_succ_le_succ hm
    replace ih := ih hnm
    have hexpr := (echoExpr B n hnm).expr
    refine ⟨?declaration, ?classDecl, ?methods, ?routine, ?block, ?statement, ?loop⟩
    case declaration =>
      rw [parseDeclaration_succ, parseDeclaration_succ]
      exact (ih.attempt hnm).recovering
    case classDecl =>
      refine (Echoes.expect _).andThen fun name => ?_
      have hsuperclass : Echoes B Reference.unnumbered
          (Parse.newReference =<< Parse.expect .superclassName)
          (Parse.newReference =<< Parse.expect .superclassName) :=
        (Echoes.expect _).andThen fun t => .newReference t
      refine (Echoes.after hsuperclass).bind fun r r' hr => (Echoes.expect _).andThen fun _ => ?_
      refine ih.methods.bind fun ms ms' hms => (Echoes.expect _).andThen fun _ => .pure ?_
      rw [Stmt.unnumbered, Stmt.unnumbered, hr, hms]
    case methods =>
      refine Echoes.blockEnd (.pure rfl) ?_
      refine (ih.routine .method).bind fun r r' hr => ih.methods.bind fun rs rs' hrs => .pure ?_
      rw [unnumberedMethods, unnumberedMethods, hr, hrs]
    case routine =>
      intro kind
      refine (Echoes.expect _).andThen fun name => (Echoes.expect _).andThen fun _ => ?_
      refine (Echoes.unlessNext (parameters_echo hnm 0)).andThen fun parameters => ?_
      refine (Echoes.expect _).andThen fun _ => (Echoes.expect _).andThen fun _ => ?_
      refine ih.block.bind fun body body' hbody => .pure ?_
      rw [Routine.unnumbered, Routine.unnumbered, hbody]
    case block =>
      refine Echoes.blockEnd ((Echoes.expect _).andThen fun _ => .pure rfl) ?_
      refine ih.declaration.bind fun s? s?' hs => ih.block.bind fun ss ss' hss => .pure ?_
      exact unnumberedBody_toList_append hs hss
    case statement =>
      refine (Echoes.acceptAny _).andThen fun t? => ?_
      cases t? with
      | none => exact expressionStatement_echo hnm
      | some t =>
        dsimp only
        split
        · exact ih.loop
        · refine (condition_echo hnm _ _).bind fun c c' hc => ih.statement.bind fun s s' hs => ?_
          refine (Echoes.after ih.statement).bind fun e? e?' he => .pure ?_
          exact unnumbered_cond hc hs he
        · refine hexpr.bind fun e e' he => (Echoes.expect _).andThen fun _ => .pure ?_
          rw [Stmt.unnumbered, Stmt.unnumbered, he]
        · refine (optional_echo hnm _).bind fun e e' he => (Echoes.expect _).andThen fun _ => ?_
          exact .pure (by rw [Stmt.unnumbered, Stmt.unnumbered, he])
        · refine (condition_echo hnm _ _).bind fun c c' hc => ih.statement.bind fun s s' hs => ?_
          exact .pure (by rw [Stmt.unnumbered, Stmt.unnumbered, hc, hs])
        · refine ih.block.bind fun ss ss' hss => .pure ?_
          rw [Stmt.unnumbered, Stmt.unnumbered, hss]
    case loop =>
      refine (Echoes.expect _).andThen fun _ => (forInitializer_echo hnm).bind fun i i' hi => ?_
      refine (optional_echo hnm _).bind fun c c' hc => (Echoes.expect _).andThen fun _ => ?_
      refine (optional_echo hnm _).bind fun u u' hu => (Echoes.expect _).andThen fun _ => ?_
      exact ih.statement.bind fun s s' hs => .pure (forLoop_matches hi hc hu hs)

/-! ### Whole texts -/

theorem declarations_echo (B : Text) {n m : Nat} (h : n ≤ m) :
    Echoes B unnumberedBody (parseDeclarations n) (parseDeclarations m) := by
  induction n generalizing m with
  | zero => exact .outOfFuel
  | succ n ih =>
    obtain ⟨m, rfl⟩ := Nat.exists_eq_succ_of_ne_zero (Nat.ne_zero_of_lt h)
    have hnm := Nat.le_of_succ_le_succ h
    refine Echoes.choice List.isEmpty (fun _ => rfl) (fun _ _ _ => rfl) (.pure rfl) ?_
    refine (echoStmt B n hnm).declaration.bind fun s? s?' hs => ?_
    exact (ih hnm).bind fun ss ss' hss => .pure (unnumberedBody_toList_append hs hss)

/-- No tokens before an end mark. -/
def Text.nothing (mark : Token) (hmark : mark.kind = .eof) : Text := ⟨[], mark, hmark, by simp⟩

/-- Declarations are parsed in the same way whatever has been found before and whatever numbers have
been given out, and with more fuel. -/
theorem declarations_same {n m : Nat} (h : n ≤ m) {c d c' : Cursor} {ss : List Stmt}
    (hmark : c.endMark.kind = .eof) (hrest : d.rest = c.rest) (hend : d.endMark = c.endMark)
    (hok : parseDeclarations n c = .ok ss c') :
    ∃ ss' d' new, parseDeclarations m d = .ok ss' d' ∧ unnumberedBody ss' = unnumberedBody ss ∧
      c'.findings = new ++ c.findings ∧ d'.findings = new ++ d.findings := by
  have hbeside : Beside (.nothing c.endMark hmark) c d := ⟨by simp [Text.nothing, hrest], hend⟩
  have hecho := (declarations_echo (.nothing c.endMark hmark) h).echo c d hbeside
  have hpasses := (declarations_course n).passes hok
  rw [hok] at hecho
  generalize hstep : parseDeclarations m d = r' at hecho
  cases hecho with
  | ok hsame habreast =>
    obtain ⟨new, hc, hd⟩ := habreast.found
    exact ⟨_, _, new, rfl, hsame, hc, hd⟩
  | blind hblind => exact absurd (.inr ⟨rfl, hpasses.endMark⟩) hblind

end Lox
