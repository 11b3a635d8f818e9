/-
**Problems stay where they are.**

Two texts are parsed one behind the other as each is parsed on its own: the statements and the
findings of the first, and then those of the second.  For this the first text is to be closed, so
that nothing in it waits for what is behind: no problem is found with its end mark, and if there are
problems at all, then it ends in a semicolon, where every recovery stops.  The second must not go on
with a statement of the first, as an `else` would.

What has come to its result has seen a last token of its own: a semicolon, a brace, or whatever ends
the statement inside.

Main definitions:

* `Lox.Stands`, `Lox.Closes` — a result that **stands**, whatever is behind;
* `Lox.Text.Closed` — a text in which nothing waits for what is behind;
* `Lox.Text.append`, `Lox.Text.joined` — texts one behind the other.

Main results:

* `Lox.closesStmt` — **the results of statements stand**;
* `Lox.declaration_seam`, `Lox.declarations_seam` — from the first text to the second;
* `Lox.problems_isolated` — **each part of a text has its own problems**, and no others.
-/

import Lox.Proofs.Grammar.Echo
import Lox.Proofs.Grammar.Totality

set_option relaxedAutoImplicit false
set_option autoImplicit false

namespace Lox

/-! ### Results that stand -/

/-- A result of the first step is one of the second, **whatever is behind**. -/
structure Stands {α γ : Type} (B : Text) (u : α → γ) (p q : Parse α) : Prop where
  orderly : Orderly p
  stands : ∀ {c d a c'}, Beside B c d → p c = .ok a c' →
    ∃ b d', q d = .ok b d' ∧ u b = u a ∧ Abreast B c d c' d'

/-- A step whose results stand, and that passes a token. -/
structure Closes {α γ : Type} (B : Text) (u : α → γ) (p q : Parse α) : Prop extends
    Stands B u p q where
  takes : ∀ {c a c'}, p c = .ok a c' → c'.rest.length < c.rest.length

section

variable {α β γ δ : Type} {B : Text} {u : α → γ} {v : β → δ} {p q : Parse α} {f g : α → Parse β}

theorem Echo.result {c d c' : Cursor} {a : α} {r' : EStateM.Result ParseStop Cursor α}
    (h : Echo B u c d (.ok a c') r') (hsees : c'.Sees B) :
    ∃ b d', r' = .ok b d' ∧ u b = u a ∧ Abreast B c d c' d' := by
  cases h with
  | ok hsame habreast => exact ⟨_, _, rfl, hsame, habreast⟩
  | blind hblind => exact absurd hsees hblind

theorem Closes.busy (h : Closes B u p q) : Busy p := ⟨h.orderly, h.takes⟩

namespace Stands

theorem pure {a b : α} (h : u b = u a) : Stands B u (Pure.pure a) (Pure.pure b) :=
  ⟨.pure a, fun hbeside hok => by cases hok; exact ⟨b, _, rfl, h, hbeside.abreast⟩⟩

theorem outOfFuel : Stands B u (throw .outOfFuel) q := ⟨.outOfFuel, fun _ hok => nomatch hok⟩

theorem bind (hp : Stands B u p q) (hf : ∀ a b, u b = u a → Stands B v (f a) (g b)) :
    Stands B v (p >>= f) (q >>= g) := by
  refine ⟨hp.orderly.bind fun a => (hf a a rfl).orderly, fun {c d b c''} hbeside hok => ?_⟩
  cases hstep : p c with
  | error stop c' =>
    rw [bind_error hstep] at hok
    cases hok
  | ok a c' =>
    rw [bind_ok hstep] at hok
    obtain ⟨a', d', hstep', hsame, habreast⟩ := hp.stands hbeside hstep
    obtain ⟨b', d'', hok', hsame', habreast'⟩ := (hf a a' hsame).stands habreast.beside hok
    exact ⟨b', d'', (bind_ok hstep').trans hok', hsame', habreast.trans habreast'⟩

/-- A token of kinds that are not next in the text behind. -/
theorem acceptAny {ks : List Token.Kind} (hnot : NotNext ks B.body) :
    Stands B id (Parse.acceptAny ks) (Parse.acceptAny ks) := by
  refine ⟨.acceptAny ks, fun {c d t? c'} hbeside hok => ?_⟩
  obtain ⟨t?', c'', d', hstep, hstep', habreast⟩ := acceptAny_abreast ks hbeside fun _ => hnot
  rw [hstep] at hok
  cases hok
  exact ⟨_, d', hstep', rfl, habreast⟩

theorem after {k : Token.Kind} (hnot : NotNext [k] B.body) (hp : Stands B u p q) :
    Stands B (Option.map u) (Parse.after k p) (Parse.after k q) := by
  refine (acceptAny hnot).bind fun t? t?' h => ?_
  obtain rfl : t?' = t? := h
  cases t?' with
  | none => exact .pure rfl
  | some t => exact hp.bind fun a b h => .pure (congrArg some h)

end Stands

namespace Closes

theorem outOfFuel : Closes B u (throw .outOfFuel) q := ⟨.outOfFuel, nofun⟩

theorem expect (e : Expectation) : Closes B id (Parse.expect e) (Parse.expect e) := by
  refine ⟨⟨.expect e, fun {c d t c'} hbeside hok => ?_⟩, (Busy.expect e).takes⟩
  rcases expect_cases e c with ⟨t, rest, hrest, ht, hstep⟩ | ⟨-, hstep⟩
  · obtain ⟨hrest', habreast⟩ := hbeside.take hrest
    rw [hstep] at hok
    cases hok
    rcases expect_cases e d with ⟨t', rest', hrest'', -, hstep'⟩ | ⟨hnot, -⟩
    · obtain ⟨rfl, rfl⟩ := List.cons.inj (hrest'.symm.trans hrest'')
      exact ⟨t, _, hstep', rfl, habreast⟩
    · exact absurd ht (hnot t _ hrest')
  · rw [hstep] at hok
    cases hok

/-- A step whose result stands, and what is done with it. -/
theorem bind (hp : Closes B u p q) (hf : ∀ a b, u b = u a → Stands B v (f a) (g b)) :
    Closes B v (p >>= f) (q >>= g) :=
  ⟨hp.toStands.bind hf, (hp.busy.bind fun a => (hf a a rfl).orderly).takes⟩

/-- A step before one that passes a token: it has seen what was next. -/
theorem before (hp : Echoes B u p q) (hf : ∀ a b, u b = u a → Closes B v (f a) (g b)) :
    Closes B v (p >>= f) (q >>= g) := by
  have hbusy := Busy.before hp.orderly fun a => (hf a a rfl).busy
  refine ⟨⟨hbusy.orderly, fun {c d b c''} hbeside hok => ?_⟩, hbusy.takes⟩
  cases hstep : p c with
  | error stop c' =>
    rw [bind_error hstep] at hok
    cases hok
  | ok a c' =>
    rw [bind_ok hstep] at hok
    have hsome : c'.rest ≠ [] := List.ne_nil_of_length_pos
      (Nat.zero_lt_of_lt ((hf a a rfl).takes hok))
    have hecho := hp.echo c d hbeside
    rw [hstep] at hecho
    obtain ⟨a', d', hstep', hsame, habreast⟩ := hecho.result (.inl hsome)
    obtain ⟨b', d'', hok', hsame', habreast'⟩ := (hf a a' hsame).stands habreast.beside hok
    exact ⟨b', d'', (bind_ok hstep').trans hok', hsame', habreast.trans habreast'⟩

/-- The same for a step that has the same result on both sides. -/
theorem behind (hp : Echoes B id p q) (hf : ∀ a, Closes B v (f a) (g a)) :
    Closes B v (p >>= f) (q >>= g) :=
  before hp fun a b h => by
    obtain rfl : b = a := h
    exact hf b

/-- A token may be taken; without it, another one is passed. -/
theorem acceptAny (ks : List Token.Kind) {f g : Option Token → Parse β}
    (hsome : ∀ t, Stands B v (f (some t)) (g (some t))) (hnone : Closes B v (f none) (g none)) :
    Closes B v (Parse.acceptAny ks >>= f) (Parse.acceptAny ks >>= g) := by
  have hbusy := Busy.acceptAny ks (fun t => (hsome t).orderly) hnone.busy
  refine ⟨⟨hbusy.orderly, fun {c d b c''} hbeside hok => ?_⟩, hbusy.takes⟩
  have hne : c.rest ≠ [] := List.ne_nil_of_length_pos (Nat.zero_lt_of_lt (hbusy.takes hok))
  obtain ⟨t?, c', d', hstep, hstep', habreast⟩ :=
    acceptAny_abreast ks hbeside fun hnil => absurd hnil hne
  rw [bind_ok hstep] at hok
  rw [bind_ok hstep']
  have hresult : Stands B v (f t?) (g t?) := by
    cases t? with
    | none => exact hnone.toStands
    | some t => exact hsome t
  obtain ⟨b', d'', hok', hsame, habreast'⟩ := hresult.stands habreast.beside hok
  exact ⟨b', d'', hok', hsame, habreast.trans habreast'⟩

/-- A choice by whether a block ends here, between steps that pass a token. -/
theorem blockEnd {p' q' : Parse α} (hp : Closes B u p q) (hp' : Closes B u p' q') :
    Closes B u (Parse.atBlockEnd >>= fun b => if b then p else p')
      (Parse.atBlockEnd >>= fun b => if b then q else q') := by
  have hbusy := Busy.choice (b := Parse.atBlockEnd) (fun _ => ⟨_, rfl⟩) hp.busy hp'.busy
  refine ⟨⟨hbusy.orderly, fun {c d b c'} hbeside hok => ?_⟩, hbusy.takes⟩
  have hne : c.rest ≠ [] := List.ne_nil_of_length_pos (Nat.zero_lt_of_lt (hbusy.takes hok))
  have hend : Parse.atBlockEnd d =
      .ok ((c.rest.head?.any fun t => t.kind == .symbol .rightBrace) || c.rest.isEmpty) d := by
    obtain ⟨t, rest, hrest⟩ := List.exists_cons_of_ne_nil hne
    rw [atBlockEnd_eq, hbeside.rest, hrest]
    rfl
  rw [bind_ok (atBlockEnd_eq c)] at hok
  rw [bind_ok hend]
  generalize ((c.rest.head?.any fun t => t.kind == .symbol .rightBrace) || c.rest.isEmpty) = x
    at hok ⊢
  cases x with
  | true => exact hp.stands hbeside hok
  | false => exact hp'.stands hbeside hok

end Closes

end

/-! ### Statements -/

section

variable {B : Text} {n m : Nat}

theorem var_closes (h : n ≤ m) : Closes B Stmt.unnumbered (parseVar n) (parseVar m) := by
  refine .behind (.expect _) fun name => ?_
  refine .before (.after (echoExpr B n h).expr) fun e e' he => ?_
  exact (Closes.expect _).bind fun _ _ _ => .pure (by rw [Stmt.unnumbered, Stmt.unnumbered, he])

theorem expressionStatement_closes (h : n ≤ m) :
    Closes B Stmt.unnumbered (parseExpressionStatement n) (parseExpressionStatement m) := by
  refine .before (echoExpr B n h).expr fun e e' he => ?_
  exact (Closes.expect _).bind fun _ _ _ => .pure (by rw [Stmt.unnumbered, Stmt.unnumbered, he])

end

/-- What is known of the parse steps for statements, the second ones with as much fuel. -/
structure ClosesStmt (B : Text) (n m : Nat) : Prop where
  classDecl : Closes B Stmt.unnumbered (parseClass n) (parseClass m)
  routine : ∀ kind, Closes B Routine.unnumbered (parseRoutine n kind) (parseRoutine m kind)
  block : Closes B unnumberedBody (parseBlock n) (parseBlock m)
  statement : Closes B Stmt.unnumbered (parseStatement n) (parseStatement m)
  loop : Closes B Stmt.unnumbered (parseFor n) (parseFor m)

theorem ClosesStmt.attempt {B : Text} {n m : Nat} (h : ClosesStmt B n m) (hnm : n ≤ m) :
    Closes B Stmt.unnumbered (attemptDeclaration n) (attemptDeclaration m) := by
  refine Closes.acceptAny _ (fun t => ?_) h.statement
  dsimp only
  split
  · exact h.classDecl.toStands
  · refine ((h.routine .function).bind fun r r' hr => .pure ?_).toStands
    rw [Stmt.unnumbered, Stmt.unnumbered, hr]
  · exact (var_closes hnm).toStands

/-- **The results of statements stand**, if no `else` is behind. -/
theorem closesStmt {B : Text} (helse : NotNext [.keyword .else_] B.body) (n : Nat) :
    ∀ {m : Nat}, n ≤ m → ClosesStmt B n m := by
  induction n with
  | zero => intro m _; constructor <;> intros <;> exact .outOfFuel
  | succ n ih =>
    intro m hm
    obtain ⟨m, rfl⟩ := Nat.exists_eq_succ_of_ne_zero (Nat.ne_zero_of_lt hm)
    have hnm := Nat.le_of_succ_le_succ hm
    replace ih := ih hnm
    have hecho := echoStmt B n hnm
    have hexpr := (echoExpr B n hnm).expr
    refine ⟨?classDecl, ?routine, ?block, ?statement, ?loop⟩
    case classDecl =>
      refine .behind (.expect _) fun name => ?_
      have hsuperclass : Echoes B Reference.unnumbered
          (Parse.newReference =<< Parse.expect .superclassName)
          (Parse.newReference =<< Parse.expect .superclassName) :=
        (Echoes.expect _).andThen fun t => .newReference t
      refine .before (.after hsuperclass) fun r r' hr => .behind (.expect _) fun _ => ?_
      refine .before hecho.methods fun ms ms' hms => (Closes.expect _).bind fun _ _ _ => .pure ?_
      rw [Stmt.unnumbered, Stmt.unnumbered, hr, hms]
    case routine =>
      intro kind
      refine .behind (.expect _) fun name => .behind (.expect _) fun _ => ?_
      refine .behind (.unlessNext (parameters_echo hnm 0)) fun parameters => ?_
      refine .behind (.expect _) fun _ => .behind (.expect _) fun _ => ?_
      refine ih.block.bind fun body body' hbody => .pure ?_
      rw [Routine.unnumbered, Routine.unnumbered, hbody]
    case block =>
      refine Closes.blockEnd ((Closes.expect _).bind fun _ _ _ => .pure rfl) ?_
      refine .before hecho.declaration fun s? s?' hs => ih.block.bind fun ss ss' hss => .pure ?_
      exact unnumberedBody_toList_append hs hss
    case statement =>
      refine Closes.acceptAny _ (fun t => ?_) (expressionStatement_closes hnm)
      dsimp only
      split
      · exact ih.loop.toStands
      · refine (Closes.before (condition_echo hnm _ _) fun c c' hc => ?_).toStands
        refine ih.statement.bind fun s s' hs => ?_
        refine (Stands.after helse ih.statement.toStands).bind fun e? e?' he => .pure ?_
        exact unnumbered_cond hc hs he
      · refine (Closes.before hexpr fun e e' he => ?_).toStands
        refine (Closes.expect _).bind fun _ _ _ => .pure ?_
        rw [Stmt.unnumbered, Stmt.unnumbered, he]
      · refine (Closes.before (optional_echo hnm _) fun e e' he => ?_).toStands
        refine (Closes.expect _).bind fun _ _ _ => .pure ?_
        rw [Stmt.unnumbered, Stmt.unnumbered, he]
      · refine (Closes.before (condition_echo hnm _ _) fun c c' hc => ?_).toStands
        refine ih.statement.bind fun s s' hs => .pure ?_
        rw [Stmt.unnumbered, Stmt.unnumbered, hc, hs]
      · refine (ih.block.bind fun ss ss' hss => .pure ?_).toStands
        rw [Stmt.unnumbered, Stmt.unnumbered, hss]
    case loop =>
      refine .behind (.expect _) fun _ => .before (forInitializer_echo hnm) fun i i' hi => ?_
      refine .before (optional_echo hnm _) fun c c' hc => .behind (.expect _) fun _ => ?_
      refine .before (optional_echo hnm _) fun u u' hu => .behind (.expect _) fun _ => ?_
      exact ih.statement.bind fun s s' hs => .pure (forLoop_matches hi hc hu hs)

/-! ### The seam -/

/-- Tokens that end in a semicolon. -/
def EndsInSemicolon (ts : List Token) : Prop :=
  ∃ t, ts.getLast? = some t ∧ t.kind = .symbol .semicolon

theorem EndsInSemicolon.of_suffix {ts us : List Token} (h : EndsInSemicolon ts)
    (hsuffix : us <:+ ts) (hne : us ≠ []) : EndsInSemicolon us := by
  obtain ⟨t, hlast, ht⟩ := h
  obtain ⟨pre, rfl⟩ := hsuffix
  rw [List.getLast?_append, List.getLast?_eq_some_getLast hne, Option.some_or] at hlast
  exact ⟨t, (List.getLast?_eq_some_getLast hne).trans hlast, ht⟩

/-- Where all tokens are dropped, and the last of them is a semicolon, **dropping stops** before
whatever is behind. -/
theorem skipFrom_seam {last : Token} {ts us : List Token} (h : skipFrom last ts = [])
    (hsemicolon : EndsInSemicolon (last :: ts)) : skipFrom last (ts ++ us) = us := by
  induction ts generalizing last with
  | nil =>
    obtain ⟨t, hlast, ht⟩ := hsemicolon
    obtain rfl : last = t := Option.some.inj hlast
    cases us with
    | nil => rfl
    | cons u us => simp [skipFrom, ht]
  | cons t ts ih =>
    unfold skipFrom at h
    split at h
    · cases h
    · rename_i hgo
      rw [List.cons_append, skipFrom, if_neg hgo]
      exact ih h (hsemicolon.of_suffix (List.suffix_cons ..) (List.cons_ne_nil _ _))

theorem synchronize_seam {ts us : List Token} (h : synchronize ts = [])
    (hsemicolon : EndsInSemicolon ts) : synchronize (ts ++ us) = us := by
  cases ts with
  | nil =>
    obtain ⟨t, hlast, -⟩ := hsemicolon
    cases hlast
  | cons t ts => exact skipFrom_seam h hsemicolon

/-- A finding about the end mark. -/
def Diagnostic.AtEnd (f : Diagnostic) : Prop := ∃ t, f.place = .token t ∧ t.kind = .eof

/-- Problems that leave the tokens behind alone: none of them is found with the end mark, and if
there are any, the tokens end in a semicolon. -/
structure Contained (c c' : Cursor) : Prop where
  closed : c'.findings = c.findings ∨ c.rest = [] ∨ EndsInSemicolon c.rest
  inside : ∀ new, c'.findings = new ++ c.findings → ∀ f ∈ new, ¬ f.AtEnd

section

variable {B : Text} {n m : Nat} {c d c' : Cursor}

/-- A declaration that is **given up** and recovered from at the last semicolon. -/
theorem malformed_seam (hnm : n ≤ m) (hbeside : Beside B c d) (hmark : c.endMark.kind = .eof)
    (herror : attemptDeclaration n c = .error .malformed c') (hrest : synchronize c'.rest = [])
    (hcontained : Contained c { c' with rest := synchronize c'.rest }) :
    ∃ d', attemptDeclaration m d = .error .malformed d' ∧
      Abreast B c d { c' with rest := synchronize c'.rest }
        { d' with rest := synchronize d'.rest } := by
  have hattempt := (echoStmt B n hnm).attempt hnm
  have hcourse := hattempt.orderly c
  have hecho := hattempt.echo c d hbeside
  rw [herror] at hcourse hecho
  cases hcourse with
  | @malformed _ earlier problem hpasses hearlier hfound =>
    obtain ⟨old, hold⟩ := hearlier
    have hnew : c'.findings = (⟨.token c'.next, problem⟩ :: old) ++ c.findings := by
      rw [hfound, ← hold, List.cons_append]
    -- The problem is found with a token of the first text.
    have hsome : c'.rest ≠ [] := by
      intro hnil
      refine hcontained.inside _ hnew _ (List.mem_cons_self ..) ⟨c'.next, rfl, ?_⟩
      rw [Cursor.next, hnil, List.headD_nil, hpasses.endMark, hmark]
    have hsemicolon : EndsInSemicolon c.rest := by
      rcases hcontained.closed with hsame | hnil | hsemicolon
      · have hlength := congrArg List.length (hnew.symm.trans hsame)
        simp only [List.length_append, List.length_cons] at hlength
        omega
      · exact absurd (List.suffix_nil.1 (hnil ▸ hpasses.rest)) hsome
      · exact hsemicolon
    generalize attemptDeclaration m d = r' at hecho
    cases hecho with
    | @malformed _ d' habreast =>
      refine ⟨d', rfl, ⟨?_, habreast.beside.endMark⟩, habreast.found⟩
      change synchronize d'.rest = synchronize c'.rest ++ B.body
      rw [habreast.beside.rest, hrest, List.nil_append]
      exact synchronize_seam hrest (hsemicolon.of_suffix hpasses.rest hsome)
    | blind hblind => exact absurd (.inl hsome) hblind

/-- A declaration of the first text is parsed **as it is alone**. -/
theorem declaration_seam (helse : NotNext [.keyword .else_] B.body) (hnm : n ≤ m)
    (hbeside : Beside B c d) (hmark : c.endMark.kind = .eof) {s? : Option Stmt}
    (hok : parseDeclaration n c = .ok s? c') (hcontained : Contained c c') :
    ∃ s?' d', parseDeclaration m d = .ok s?' d' ∧
      s?'.map Stmt.unnumbered = s?.map Stmt.unnumbered ∧ Abreast B c d c' d' := by
  have hecho := (echoStmt B n hnm).declaration.echo c d hbeside
  rw [hok] at hecho
  by_cases hsees : c'.Sees B
  · exact hecho.result hsees
  · have hrest : c'.rest = [] := Classical.not_not.1 fun hne => hsees (.inl hne)
    cases n with
    | zero => cases hok
    | succ n =>
      obtain ⟨m, rfl⟩ := Nat.exists_eq_succ_of_ne_zero (Nat.ne_zero_of_lt hnm)
      replace hnm := Nat.le_of_succ_le_succ hnm
      rw [parseDeclaration_succ] at hok ⊢
      unfold recovering at hok ⊢
      cases hstep : attemptDeclaration n c with
      | ok s c₁ =>
        rw [hstep] at hok
        cases hok
        obtain ⟨s', d', hstep', hsame, habreast⟩ :=
          ((closesStmt helse n hnm).attempt hnm).stands hbeside hstep
        rw [hstep']
        exact ⟨some s', d', rfl, congrArg some hsame, habreast⟩
      | error stop c₁ =>
        rw [hstep] at hok
        cases stop with
        | outOfFuel => cases hok
        | malformed =>
          cases hok
          obtain ⟨d', hstep', habreast⟩ := malformed_seam hnm hbeside hmark hstep hrest hcontained
          rw [hstep']
          exact ⟨none, _, rfl, rfl, habreast⟩

/-- Problems of two parts, one behind the other. -/
theorem Contained.split {c₁ : Cursor} (h : Contained c c') (hpasses : c.Passes c₁)
    (hpasses' : c₁.Passes c') : Contained c c₁ ∧ Contained c₁ c' := by
  obtain ⟨new, hnew⟩ := hpasses.findings
  obtain ⟨new', hnew'⟩ := hpasses'.findings
  have hall : c'.findings = (new' ++ new) ++ c.findings := by
    rw [List.append_assoc, hnew, hnew']
  refine ⟨⟨?_, fun news h₁ f hf => ?_⟩, ⟨?_, fun news h₁ f hf => ?_⟩⟩
  · exact h.closed.imp_left fun hsame =>
      (findings_eq_of_suffix hpasses.findings hpasses'.findings hsame).2
  · obtain rfl : new = news := List.append_cancel_right (hnew.trans h₁)
    exact h.inside _ hall f (List.mem_append_right _ hf)
  · rcases h.closed with hsame | hnil | hsemicolon
    · exact .inl (findings_eq_of_suffix hpasses.findings hpasses'.findings hsame).1
    · exact .inr (.inl (List.suffix_nil.1 (hnil ▸ hpasses.rest)))
    · by_cases hnil : c₁.rest = []
      · exact .inr (.inl hnil)
      · exact .inr (.inr (hsemicolon.of_suffix hpasses.rest hnil))
  · obtain rfl : new' = news := List.append_cancel_right (hnew'.trans h₁)
    exact h.inside _ hall f (List.mem_append_left _ hf)

/-- Declarations one behind the other. -/
theorem parseDeclarations_cons {s? : Option Stmt} (hrest : c.rest ≠ [])
    (hfirst : parseDeclaration n c = .ok s? c') :
    parseDeclarations (n + 1) c = ((s?.toList ++ ·) <$> parseDeclarations n) c' := by
  have hend : Parse.atEnd c = .ok c.rest.isEmpty c := rfl
  have hsome : c.rest.isEmpty = false := by simpa using hrest
  rw [parseDeclarations, bind_ok hend, hsome]
  exact bind_ok hfirst

/-- Declarations come to an end at once, or there is a first one and those behind it. -/
theorem parseDeclarations_cases {ss : List Stmt} (hok : parseDeclarations (n + 1) c = .ok ss c') :
    (c.rest = [] ∧ ss = [] ∧ c' = c) ∨
      (c.rest ≠ [] ∧ ∃ s? c₁ more, parseDeclaration n c = .ok s? c₁ ∧
        parseDeclarations n c₁ = .ok more c' ∧ ss = s?.toList ++ more) := by
  have hend : Parse.atEnd c = .ok c.rest.isEmpty c := rfl
  rw [parseDeclarations, bind_ok hend] at hok
  split at hok
  · rename_i hnil
    cases hok
    exact .inl ⟨List.isEmpty_iff.1 hnil, rfl, rfl⟩
  · rename_i hsome
    refine .inr ⟨fun hnil => hsome (List.isEmpty_iff.2 hnil), ?_⟩
    cases hfirst : parseDeclaration n c with
    | error stop c₁ =>
      rw [bind_error hfirst] at hok
      cases hok
    | ok s? c₁ =>
      rw [bind_ok hfirst] at hok
      cases hmore : parseDeclarations n c₁ with
      | error stop c₂ =>
        rw [bind_error hmore] at hok
        cases hok
      | ok more c₂ =>
        rw [bind_ok hmore] at hok
        cases hok
        exact ⟨s?, c₁, more, rfl, hmore, rfl⟩

theorem map_ok {α β : Type} {x : Parse α} {g : α → β} {a : α} (hx : x c = .ok a c') :
    (g <$> x) c = .ok (g a) c' :=
  bind_ok (f := fun a => Pure.pure (g a)) hx

/-- Lists put before the results of a step that goes on with another one. -/
theorem append_map_append {x y : Parse (List Stmt)} {front front' : List Stmt}
    (h : x c = ((front' ++ ·) <$> y) d) :
    ((front ++ ·) <$> x) c = ((front ++ front' ++ ·) <$> y) d := by
  change x c = EStateM.map _ y d at h
  change EStateM.map _ x c = EStateM.map _ y d
  unfold EStateM.map at h ⊢
  rw [h]
  cases y d with
  | ok more d' => simp [List.append_assoc]
  | error stop d' => rfl

/-- The declarations of the first text are parsed **as they are alone**, and those of the second
text are left, with enough fuel for them. -/
theorem declarations_seam (helse : NotNext [.keyword .else_] B.body) (hnm : n ≤ m)
    (hbeside : Beside B c d) (hmark : c.endMark.kind = .eof) {ss : List Stmt}
    (hok : parseDeclarations n c = .ok ss c') (hcontained : Contained c c') :
    ∃ ss' d' k, parseDeclarations m d = ((ss' ++ ·) <$> parseDeclarations k) d' ∧
      m ≤ k + c.rest.length ∧ unnumberedBody ss' = unnumberedBody ss ∧
      d'.rest = B.body ∧ Abreast B c d c' d' := by
  induction n generalizing m c d ss with
  | zero => cases hok
  | succ n ih =>
    rcases parseDeclarations_cases hok with
      ⟨hrest, rfl, rfl⟩ | ⟨hrest, s?, c₁, more, hfirst, hmore, rfl⟩
    · refine ⟨[], d, m, ?_, Nat.le_add_right .., rfl, ?_, hbeside.abreast⟩
      · change _ = (parseDeclarations m >>= fun more => Pure.pure more) d
        rw [bind_pure]
      · rw [hbeside.rest, hrest, List.nil_append]
    · obtain ⟨m, rfl⟩ := Nat.exists_eq_succ_of_ne_zero (Nat.ne_zero_of_lt hnm)
      replace hnm := Nat.le_of_succ_le_succ hnm
      have hpasses := (courseStmt n).declaration.passes hfirst
      obtain ⟨hfirst', hmore'⟩ := hcontained.split hpasses ((declarations_course n).passes hmore)
      obtain ⟨s?', d₁, hstep, hs, habreast⟩ :=
        declaration_seam helse hnm hbeside hmark hfirst hfirst'
      obtain ⟨ss', d', k, hsteps, hk, hss, hrest', habreast'⟩ :=
        ih hnm habreast.beside (hpasses.endMark ▸ hmark) hmore hmore'
      refine ⟨s?'.toList ++ ss', d', k, ?_, ?_, unnumberedBody_toList_append hs hss, hrest',
        habreast.trans habreast'⟩
      · have hsome : d.rest ≠ [] := by simp [hbeside.rest, hrest]
        rw [parseDeclarations_cons hsome hstep]
        exact append_map_append hsteps
      · have htakes := declaration_takes hrest hfirst
        omega

end

/-! ### Texts one behind the other -/

namespace Text

/-- What is found in a text on its own. -/
def findings (T : Text) (id : NodeId) : List Diagnostic := (parseProgram T.body T.mark id).findings

/-- The statements of a text on its own, without the numbers of their references. -/
def statements (T : Text) (id : NodeId) : List Stmt :=
  unnumberedBody (parseProgram T.body T.mark id).tree

/-- A text in which **nothing waits** for what is behind: nothing is found with its end mark, and if
anything is found at all, it ends in a semicolon. -/
structure Closed (A : Text) (id : NodeId) : Prop where
  closed : A.findings id = [] ∨ EndsInSemicolon A.body
  inside : ∀ f ∈ A.findings id, ¬ f.AtEnd

/-- A text with another one behind. -/
def append (A B : Text) : Text where
  body := A.body ++ B.body
  mark := B.mark
  marked := B.marked
  plain t ht := (List.mem_append.1 ht).elim (A.plain t) (B.plain t)

/-- Texts one behind the other, and a last one. -/
def joined (segments : List Text) (last : Text) : Text := segments.foldr append last

/-- What is parsed **does not depend on the number** from which references are counted. -/
theorem anyNumber (T : Text) (id id' : NodeId) :
    T.findings id = T.findings id' ∧ T.statements id = T.statements id' := by
  obtain ⟨c, hok, -, hfindings⟩ := parseProgram_run T.body T.mark id
  obtain ⟨c', hok', -, hfindings'⟩ := parseProgram_run T.body T.mark id'
  have hmark : (⟨T.body, T.mark, [], id'⟩ : Cursor).endMark.kind = .eof := T.marked
  obtain ⟨ss, d, new, hsame, hss, hnew, hnew'⟩ := declarations_same (Nat.le_refl _)
    (d := ⟨T.body, T.mark, [], id⟩) hmark rfl rfl hok'
  rw [hok] at hsame
  injection hsame with htree hcursor
  constructor
  · rw [findings, findings, ← hfindings, ← hfindings', hcursor, hnew', hnew]
  · rw [statements, statements, htree, hss]

/-- A closed text and another one behind it are parsed **as each is alone**. -/
theorem parse_append {A B : Text} {idA : NodeId} (hA : A.Closed idA)
    (helse : NotNext [.keyword .else_] B.body) (idB id : NodeId) :
    (A.append B).findings id = A.findings idA ++ B.findings idB ∧
      (A.append B).statements id = A.statements idA ++ B.statements idB := by
  obtain ⟨cA, hokA, -, hfindingsA⟩ := parseProgram_run A.body A.mark idA
  obtain ⟨cB, hokB, -, hfindingsB⟩ := parseProgram_run B.body B.mark idB
  obtain ⟨c, hok, -, hfindings⟩ := parseProgram_run (A.append B).body (A.append B).mark id
  have hbeside : Beside B ⟨A.body, A.mark, [], idA⟩
      ⟨(A.append B).body, (A.append B).mark, [], id⟩ := ⟨rfl, rfl⟩
  have hfuel : parseFuel A.body ≤ parseFuel (A.append B).body := by
    simp only [parseFuel, append, List.length_append]
    omega
  have hcontained : Contained ⟨A.body, A.mark, [], idA⟩ cA := by
    refine ⟨?_, fun new hnew f hf => hA.inside f ?_⟩
    · refine hA.closed.imp (fun hnil => ?_) .inr
      rwa [findings, ← hfindingsA, List.reverse_eq_nil_iff] at hnil
    · rw [findings, ← hfindingsA, hnew, List.append_nil]
      exact List.mem_reverse.2 hf
  obtain ⟨ss, d, k, hwhole, hk, hss, hrest, habreast⟩ :=
    declarations_seam helse hfuel hbeside A.marked hokA hcontained
  have hfuel' : parseFuel B.body ≤ k := by
    simp only [parseFuel, append, List.length_append] at hk ⊢
    omega
  obtain ⟨ss', d', new, hokB', hss', hnewB, hnew'⟩ :=
    declarations_same hfuel' B.marked hrest habreast.beside.endMark hokB
  obtain ⟨newA, hnewA, hnewA'⟩ := habreast.found
  rw [hok] at hwhole
  replace hwhole := hwhole.trans (map_ok (g := (ss ++ ·)) hokB')
  injection hwhole with htree hcursor
  constructor
  · rw [findings, findings, findings, ← hfindings, ← hfindingsA, ← hfindingsB, hcursor, hnew',
      hnewA', hnewA, hnewB]
    simp
  · rw [statements, statements, statements, htree, unnumberedBody_append, hss, hss']

/-- What is behind a first text begins with no `else`. -/
theorem joined_notNext {segments : List Text} {last : Text}
    (h : ∀ S ∈ segments ++ [last], NotNext [.keyword .else_] S.body) :
    NotNext [.keyword .else_] (joined segments last).body := by
  induction segments with
  | nil => exact h last (by simp)
  | cons S segments ih =>
    have hS : NotNext [.keyword .else_] S.body := h S (by simp)
    have hmore := ih fun S' hS' => h S' (List.mem_cons_of_mem _ hS')
    intro t ht
    change (S.body ++ (joined segments last).body).head? = some t at ht
    cases hbody : S.body with
    | nil =>
      rw [hbody] at ht
      exact hmore t ht
    | cons t' ts =>
      rw [hbody] at ht hS
      exact hS t ht

end Text

/-- **Each part of a text has its own problems.**  Any number of closed texts, one behind the other
and with a last one behind them, are parsed as each is alone: the findings are those of the parts,
and so are the statements, up to the numbers of references.  No part but the first may begin with
`else`. -/
theorem problems_isolated (segments : List Text) (last : Text) (start : Text → NodeId) (id : NodeId)
    (hclosed : ∀ S ∈ segments, S.Closed (start S))
    (helse : ∀ S ∈ segments.tail ++ [last], NotNext [.keyword .else_] S.body) :
    (Text.joined segments last).findings id =
        (segments ++ [last]).flatMap (fun S => S.findings (start S)) ∧
      (Text.joined segments last).statements id =
        (segments ++ [last]).flatMap (fun S => S.statements (start S)) := by
  induction segments generalizing id with
  | nil => simpa [Text.joined] using last.anyNumber id (start last)
  | cons S segments ih =>
    have hmore := ih (start S) (fun S' hS' => hclosed S' (List.mem_cons_of_mem _ hS')) fun S' hS' =>
      helse S' ?_
    · rw [List.tail_cons] at helse
      obtain ⟨hfindings, hstatements⟩ := Text.parse_append (hclosed S (List.mem_cons_self ..))
        (Text.joined_notNext helse) (start S) id
      refine ⟨hfindings.trans ?_, hstatements.trans ?_⟩
      · rw [hmore.1, List.cons_append, List.flatMap_cons]
      · rw [hmore.2, List.cons_append, List.flatMap_cons]
    · rcases List.mem_append.1 hS' with hS' | hS'
      · exact List.mem_append_left _ (List.mem_of_mem_tail hS')
      · exact List.mem_append_right _ hS'

/-- A declaration without a name: `var = ;`. -/
def namelessVariable : Text where
  body := [⟨.keyword .var, "var", 2, .none⟩, ⟨.symbol .equal, "=", 2, .none⟩,
    ⟨.symbol .semicolon, ";", 2, .none⟩]
  mark := .endMark 2
  marked := rfl
  plain := by decide

/-- A statement in order: `print nil;`. -/
def printNil : Text where
  body := [⟨.keyword .print, "print", 3, .none⟩, ⟨.keyword .nil, "nil", 3, .none⟩,
    ⟨.symbol .semicolon, ";", 3, .none⟩]
  mark := .endMark 3
  marked := rfl
  plain := by decide

/-- The problem of a declaration costs nothing but that declaration. -/
theorem problems_isolated_variable :
    (Text.joined [namelessVariable, namelessVariable] printNil).findings 0 =
        [namelessVariable, namelessVariable, printNil].flatMap (fun S => S.findings 0) ∧
      (Text.joined [namelessVariable, namelessVariable] printNil).statements 0 =
        [namelessVariable, namelessVariable, printNil].flatMap (fun S => S.statements 0) := by
  refine problems_isolated [namelessVariable, namelessVariable] printNil (fun _ => 0) 0 ?_ ?_
  · have hfindings : namelessVariable.findings 0 =
        [⟨.token ⟨.symbol .equal, "=", 2, .none⟩, .missing .variableName⟩] := rfl
    have hclosed : namelessVariable.Closed 0 :=
      ⟨.inr ⟨_, rfl, rfl⟩, by simp [hfindings, Diagnostic.AtEnd]⟩
    simp [hclosed]
  · have hvar : NotNext [.keyword .else_] namelessVariable.body := .cons (by decide)
    have hprint : NotNext [.keyword .else_] printNil.body := .cons (by decide)
    simp [hvar, hprint]

end Lox
