/-
**Where parsing goes on after a problem.**

A problem that is recovered from is about one token, which has not been passed yet.  The boundaries
behind it are the end mark, the words that begin a statement, and whatever follows a semicolon.
Recovery drops the offending token in any case and stops at the first boundary from there on: this
is the first boundary of all, unless the offending token begins a statement itself.

Main definitions:

* `Lox.Text.Boundary` — where a statement may begin after a problem;
* `Lox.Text.FirstBoundary` — the **first boundary** from a position on.

Main results:

* `Lox.skipFrom_least` — tokens are dropped up to the first place to halt;
* `Lox.Text.synchronize_firstBoundary` — the same by positions;
* `Lox.resumes_at_boundary` — **where parsing goes on** when a declaration is given up.
-/

import Lox.Proofs.Grammar.Tracking

set_option relaxedAutoImplicit false
set_option autoImplicit false

namespace Lox

/-! ### Dropped tokens -/

/-- A place to halt, `i` tokens behind the last dropped one: the end, a word that begins a
statement, or a semicolon passed. -/
def Halt (last : Token) (ts : List Token) (i : Nat) : Prop :=
  i = ts.length ∨ (∃ t, ts[i]? = some t ∧ t.kind ∈ statementWords) ∨
    ∃ t, (last :: ts)[i]? = some t ∧ t.kind = .symbol .semicolon

theorem halt_succ {last t : Token} {ts : List Token} {i : Nat} :
    Halt last (t :: ts) (i + 1) ↔ Halt t ts i := by
  simp [Halt]

/-- Tokens are dropped **up to the first place to halt**. -/
theorem skipFrom_least (last : Token) (ts : List Token) :
    ∃ i, i ≤ ts.length ∧ skipFrom last ts = ts.drop i ∧ Halt last ts i ∧
      ∀ j, Halt last ts j → i ≤ j := by
  induction ts generalizing last with
  | nil => exact ⟨0, Nat.le_refl _, rfl, .inl rfl, fun _ _ => Nat.zero_le _⟩
  | cons t ts ih =>
    unfold skipFrom
    split
    · rename_i hstop
      refine ⟨0, Nat.zero_le _, rfl, .inr ?_, fun _ _ => Nat.zero_le _⟩
      rcases Bool.or_eq_true _ _ ▸ hstop with hlast | hword
      · exact .inr ⟨last, rfl, by simpa using hlast⟩
      · exact .inl ⟨t, rfl, by simpa using hword⟩
    · rename_i hgo
      obtain ⟨i, hi, hskip, hhalt, hleast⟩ := ih t
      refine ⟨i + 1, Nat.succ_le_succ hi, hskip, halt_succ.2 hhalt, fun j hj => ?_⟩
      cases j with
      | succ j => exact Nat.succ_le_succ (hleast j (halt_succ.1 hj))
      | zero =>
        -- Dropping goes on, so that there is no reason to halt before the next token.
        simp only [Bool.or_eq_true, beq_iff_eq, List.contains_iff_mem, not_or] at hgo
        rcases hj with hnil | ⟨u, hu, hword⟩ | ⟨u, hu, hsemicolon⟩
        · cases hnil
        · exact absurd (Option.some.inj hu ▸ hword) hgo.2
        · exact absurd (Option.some.inj hu ▸ hsemicolon) hgo.1

/-! ### Boundaries by positions -/

namespace Text

/-- Where a statement may begin after a problem at position `p`: at the **end mark**, at a word that
begins a statement, or behind a semicolon that has been passed since. -/
def Boundary (T : Text) (p q : Nat) : Prop :=
  (∃ t, T.tokens[q]? = some t ∧ (t.kind = .eof ∨ t.kind ∈ statementWords)) ∨
    p < q ∧ ∃ t, T.tokens[q - 1]? = some t ∧ t.kind = .symbol .semicolon

/-- The **first boundary** from a position on, after a problem at position `p`. -/
structure FirstBoundary (T : Text) (p start q : Nat) : Prop where
  start_le : start ≤ q
  boundary : T.Boundary p q
  least : ∀ r, start ≤ r → T.Boundary p r → q ≤ r

variable {T : Text} {t : Token} {pre ts : List Token}

/-- The tokens of a text by their distance from a place in it. -/
theorem tokens_getElem? (hbody : T.body = pre ++ ts) (i : Nat) :
    T.tokens[pre.length + i]? = (ts ++ [T.mark])[i]? := by
  rw [tokens, hbody, List.append_assoc, List.getElem?_append_right (Nat.le_add_right ..),
    Nat.add_sub_cancel_left]

/-- A token with the end mark behind is one of those before it, or the end mark. -/
theorem marked_getElem? (us : List Token) (m u : Token) (i : Nat) :
    (us ++ [m])[i]? = some u ↔ us[i]? = some u ∨ i = us.length ∧ u = m := by
  rcases Nat.lt_trichotomy i us.length with h | rfl | h
  · simp [List.getElem?_append_left h, Nat.ne_of_lt h]
  · simp [eq_comm]
  · have hne : i ≠ us.length := by omega
    have hlong : (us ++ [m]).length ≤ i := by
      rw [List.length_append, List.length_singleton]
      omega
    rw [List.getElem?_eq_none hlong, List.getElem?_eq_none (Nat.le_of_lt h)]
    simp [hne]

/-- The boundaries behind an offending token are the places to halt behind it. -/
theorem boundary_iff_halt (hbody : T.body = pre ++ t :: ts) (i : Nat) :
    T.Boundary pre.length (pre.length + 1 + i) ↔ Halt t ts i := by
  have hplain : ∀ u ∈ ts, u.kind ≠ .eof := fun u hu => T.plain u (by simp [hbody, hu])
  have hhere : T.tokens[pre.length + 1 + i]? = (ts ++ [T.mark])[i]? := by
    rw [Nat.add_assoc, Nat.add_comm 1 i, tokens_getElem? hbody, List.cons_append,
      List.getElem?_cons_succ]
  have hlast : T.tokens[pre.length + 1 + i - 1]? = (t :: ts ++ [T.mark])[i]? := by
    rw [Nat.add_right_comm, Nat.add_sub_cancel, tokens_getElem? hbody]
  unfold Boundary Halt
  rw [hhere, hlast]
  simp only [marked_getElem?]
  constructor
  · rintro (⟨u, hu | ⟨hi, rfl⟩, hkind⟩ | ⟨-, u, hu | ⟨hi, rfl⟩, hkind⟩)
    · have hmem : u ∈ ts := List.mem_of_getElem? hu
      exact .inr (.inl ⟨u, hu, hkind.resolve_left (hplain u hmem)⟩)
    · exact .inl hi
    · exact .inr (.inr ⟨u, hu, hkind⟩)
    · simp [T.marked] at hkind
  · rintro (hi | ⟨u, hu, hkind⟩ | ⟨u, hu, hkind⟩)
    · exact .inl ⟨T.mark, .inr ⟨hi, rfl⟩, .inl T.marked⟩
    · exact .inl ⟨u, .inl hu, .inr hkind⟩
    · exact .inr ⟨by omega, u, .inl hu, hkind⟩

/-- Recovery goes on **at the first boundary** behind the offending token; it is the first one of
all, unless the offending token begins a statement. -/
theorem synchronize_firstBoundary {rest : List Token} (hbody : T.body = pre ++ rest) :
    T.FirstBoundary pre.length
      (if (rest.headD T.mark).kind ∈ statementWords then pre.length + 1 else pre.length)
      (T.body.length - (synchronize rest).length) := by
  cases rest with
  | nil =>
    have hword : T.mark.kind ∉ statementWords := by simp [T.marked, statementWords]
    have hmark : T.tokens[pre.length]? = some T.mark := tokens_getElem? hbody 0
    rw [hbody, List.headD_nil, if_neg hword, List.append_nil]
    exact ⟨Nat.le_refl _, .inl ⟨T.mark, hmark, .inl T.marked⟩, fun r hr _ => hr⟩
  | cons t ts =>
    obtain ⟨i, hi, hskip, hhalt, hleast⟩ := skipFrom_least t ts
    have hresume : T.body.length - (synchronize (t :: ts)).length = pre.length + 1 + i := by
      rw [synchronize, hskip, hbody]
      simp only [List.length_append, List.length_cons, List.length_drop]
      omega
    rw [hresume, List.headD_cons]
    refine ⟨by split <;> omega, (boundary_iff_halt hbody i).2 hhalt, fun r hr hboundary => ?_⟩
    have hle : pre.length ≤ r := by split at hr <;> omega
    rcases Nat.eq_or_lt_of_le hle with rfl | hlt
    · -- Only where it begins a statement is the offending token a boundary itself.
      have ht : T.tokens[pre.length]? = some t := tokens_getElem? hbody 0
      have hplain : t.kind ≠ .eof := T.plain t (by simp [hbody])
      rcases hboundary with ⟨u, hu, hkind⟩ | ⟨hlt, -⟩
      · obtain rfl := Option.some.inj (ht.symm.trans hu)
        rw [if_pos (hkind.resolve_left hplain)] at hr
        omega
      · exact absurd hlt (Nat.lt_irrefl _)
    · obtain ⟨j, rfl⟩ := Nat.exists_eq_add_of_le (Nat.succ_le_of_lt hlt)
      exact Nat.add_le_add_left (hleast j ((boundary_iff_halt hbody j).1 hboundary)) _

end Text

/-! ### Declarations that are given up -/

/-- A declaration that is given up is recovered from **at the first boundary** from the offending
token on, if that token begins no statement; and only then.  A token that begins a statement is
dropped, and parsing goes on at the first boundary behind it. -/
theorem resumes_at_boundary (T : Text) {n : Nat} {c c' : Cursor} (hc : c.Inside T)
    (herror : attemptDeclaration n c = .error .malformed c') :
    ∃ offending problem earlier c'',
      c'.findings = ⟨.token offending, problem⟩ :: earlier ∧
      T.tokens[(c'.pointer T).current]? = some offending ∧
      parseDeclaration (n + 1) c = .ok none c'' ∧
      T.FirstBoundary (c'.pointer T).current
        (if offending.kind ∈ statementWords then (c'.pointer T).current + 1
          else (c'.pointer T).current) (c''.pointer T).current ∧
      (T.FirstBoundary (c'.pointer T).current (c'.pointer T).current (c''.pointer T).current ↔
        offending.kind ∉ statementWords) := by
  have hcourse := (courseStmt n).attempt.orderly c
  rw [herror] at hcourse
  cases hcourse with
  | @malformed _ earlier problem hpasses _ hfound =>
    have hinside := hc.passes hpasses
    obtain ⟨pre, hpre⟩ := hinside.rest
    have hcurrent : (c'.pointer T).current = pre.length := by
      simp [Cursor.pointer, ← hpre]
    have hresume : T.FirstBoundary pre.length
        (if c'.next.kind ∈ statementWords then pre.length + 1 else pre.length)
        (T.body.length - (synchronize c'.rest).length) := by
      rw [Cursor.next, hinside.endMark]
      exact Text.synchronize_firstBoundary hpre.symm
    refine ⟨c'.next, problem, earlier, { c' with rest := synchronize c'.rest }, hfound,
      Text.getElem?_current hinside, ?_, ?_, ?_⟩
    · rw [parseDeclaration_succ, recovering, herror]
    · rw [hcurrent]
      exact hresume
    · rw [hcurrent]
      constructor
      · intro hfirst hword
        -- The offending token would be the first boundary, but it has been dropped.
        have hhere : T.Boundary pre.length pre.length :=
          .inl ⟨c'.next, hcurrent ▸ Text.getElem?_current hinside, .inr hword⟩
        have hle := hfirst.least _ (Nat.le_refl _) hhere
        have hstart := hresume.start_le
        rw [if_pos hword] at hstart
        exact absurd (Nat.le_trans hstart hle) (Nat.not_succ_le_self _)
      · intro hword
        rw [if_neg hword] at hresume
        exact hresume

/-- A statement without its semicolon, and another one: `print nil print true;`. -/
def unfinishedPrint : Text where
  body := [⟨.keyword .print, "print", 1, .none⟩, ⟨.keyword .nil, "nil", 1, .none⟩,
    ⟨.keyword .print, "print", 1, .none⟩, ⟨.keyword .true_, "true", 1, .none⟩,
    ⟨.symbol .semicolon, ";", 1, .none⟩]
  mark := .endMark 1
  marked := rfl
  plain := by decide

/-- The word `print` that is found in place of the semicolon is dropped with its statement. -/
theorem resumes_at_boundary_print :
    ∃ c', attemptDeclaration 40 ⟨unfinishedPrint.body, unfinishedPrint.mark, [], 0⟩ =
        .error .malformed c' ∧
      ∃ offending problem earlier c'',
        c'.findings = ⟨.token offending, problem⟩ :: earlier ∧
        unfinishedPrint.tokens[(c'.pointer unfinishedPrint).current]? = some offending ∧
        parseDeclaration 41 ⟨unfinishedPrint.body, unfinishedPrint.mark, [], 0⟩ = .ok none c'' ∧
        unfinishedPrint.FirstBoundary (c'.pointer unfinishedPrint).current
          (if offending.kind ∈ statementWords then (c'.pointer unfinishedPrint).current + 1
            else (c'.pointer unfinishedPrint).current) (c''.pointer unfinishedPrint).current ∧
        (unfinishedPrint.FirstBoundary (c'.pointer unfinishedPrint).current
          (c'.pointer unfinishedPrint).current (c''.pointer unfinishedPrint).current ↔
            offending.kind ∉ statementWords) :=
  ⟨_, rfl, resumes_at_boundary unfinishedPrint ⟨List.suffix_refl _, rfl⟩ rfl⟩

end Lox
