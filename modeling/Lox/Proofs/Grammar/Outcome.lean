/-
**What a parse step leaves.**

A step over the tokens takes some of them, adds to the findings, and uses up numbers for references.
It either gives a result or stops with a finding; with enough fuel it does not stop for want of it.
What is known of a result is known only if nothing was found: a step that has reported a problem may
go on with whatever is at hand.

Main definitions:

* `Lox.Numbered` — references with numbers of their own, within bounds;
* `Lox.ParseOutcome` — **how a parse step ends**: which tokens it took, and what holds of its
  result.

Main results:

* `Lox.ParseOutcome.bind` — steps put together;
* `Lox.acceptAny_cases`, `Lox.expect_outcome`, `Lox.recovering_outcome` — the basic steps.
-/

import Lox.Proofs.Grammar.Basic
import Lox.Proofs.Sequence

set_option relaxedAutoImplicit false
set_option autoImplicit false

namespace Lox

/-! ### Numbers of references -/

/-- References that have numbers of their own, from `lo` on and below `hi`. -/
structure Numbered (lo hi : Nat) (refs : List Reference) : Prop where
  bounds : ∀ r ∈ refs, lo ≤ r.id ∧ r.id < hi
  nodup : (refs.map (·.id)).Nodup

namespace Numbered

variable {lo mid hi : Nat} {refs refs' : List Reference}

theorem nil (lo hi : Nat) : Numbered lo hi [] := ⟨by simp, by simp⟩

theorem single (ref : Reference) : Numbered ref.id (ref.id + 1) [ref] := ⟨by simp, by simp⟩

theorem mono {lo' hi' : Nat} (h : Numbered lo hi refs) (hlo : lo' ≤ lo) (hhi : hi ≤ hi') :
    Numbered lo' hi' refs := by
  refine ⟨fun r hr => ?_, h.nodup⟩
  obtain ⟨hl, hh⟩ := h.bounds r hr
  exact ⟨Nat.le_trans hlo hl, Nat.lt_of_lt_of_le hh hhi⟩

/-- The references of two parts, the first of which has the smaller numbers. -/
theorem append (h : Numbered lo mid refs) (h' : Numbered mid hi refs') (hlo : lo ≤ mid)
    (hhi : mid ≤ hi) : Numbered lo hi (refs ++ refs') := by
  refine ⟨fun r hr => ?_, ?_⟩
  · rcases List.mem_append.1 hr with hr | hr
    · exact (h.mono (Nat.le_refl lo) hhi).bounds r hr
    · exact (h'.mono hlo (Nat.le_refl hi)).bounds r hr
  · rw [List.map_append]
    refine List.nodup_append.2 ⟨h.nodup, h'.nodup, ?_⟩
    intro a ha b hb
    obtain ⟨r, hr, rfl⟩ := List.mem_map.1 ha
    obtain ⟨r', hr', rfl⟩ := List.mem_map.1 hb
    exact Nat.ne_of_lt (Nat.lt_of_lt_of_le (h.bounds r hr).2 (h'.bounds r' hr').1)

theorem comm (h : Numbered lo hi (refs ++ refs')) : Numbered lo hi (refs' ++ refs) := by
  refine ⟨fun r hr => h.bounds r ?_, ?_⟩
  · rw [List.mem_append] at hr ⊢
    exact hr.symm
  · have hp : ((refs' ++ refs).map (·.id)).Perm ((refs ++ refs').map (·.id)) :=
      List.perm_append_comm.map _
    exact hp.nodup_iff.2 h.nodup

end Numbered

/-! ### Outcomes -/

/-- What may hold of a result: of the tokens taken and left, of the next free number before and
after, and of the result itself. -/
abbrev ParsePost (α : Type) := List Token → List Token → Nat → Nat → α → Prop

/-- How a parse step **ends**: with a result, after at least `b` tokens, or with a finding.  What
holds of the result depends on the tokens taken and left, and on the numbers used up; it holds if
nothing was found. -/
inductive ParseOutcome {α : Type} (c : Cursor) (b : Nat) (Q : ParsePost α) :
    EStateM.Result ParseStop Cursor α → Prop
  | ok {a : α} {c' : Cursor} (ts : List Token) (rest : c.rest = ts ++ c'.rest)
      (progress : b ≤ ts.length) (numbers : c.nextId ≤ c'.nextId)
      (findings : c.findings <:+ c'.findings)
      (result : c'.findings = c.findings → Q ts c'.rest c.nextId c'.nextId a) :
      ParseOutcome c b Q (.ok a c')
  | malformed {c' : Cursor} (rest : c'.rest <:+ c.rest) (numbers : c.nextId ≤ c'.nextId)
      (findings : c.findings <:+ c'.findings) (found : c'.findings ≠ c.findings) :
      ParseOutcome c b Q (.error .malformed c')

/-- Findings that are the same in the end were the same all the time. -/
theorem findings_eq_of_suffix {α : Type} {a b c : List α} (hab : a <:+ b) (hbc : b <:+ c)
    (hca : c = a) : c = b ∧ b = a := by
  subst hca
  obtain rfl : b = c := hbc.eq_of_length_le hab.length_le
  exact ⟨rfl, rfl⟩

namespace ParseOutcome

variable {α β : Type} {c c' : Cursor} {b b' : Nat} {Q : ParsePost α} {Q' : ParsePost β}

theorem pure {a : α} (hq : Q [] c.rest c.nextId c.nextId a) :
    ParseOutcome c 0 Q ((Pure.pure a : Parse α) c) :=
  .ok [] rfl (Nat.le_refl 0) (Nat.le_refl _) (List.suffix_refl _) fun _ => hq

theorem imp {P : ParsePost α} {r : EStateM.Result ParseStop Cursor α}
    (h : ParseOutcome c b Q r) (hb : b' ≤ b)
    (hP : ∀ {ts rest lo hi a}, lo ≤ hi → Q ts rest lo hi a → P ts rest lo hi a) :
    ParseOutcome c b' P r := by
  cases h with
  | ok ts hrest hts hn hf hq =>
    exact .ok ts hrest (Nat.le_trans hb hts) hn hf fun heq => hP hn (hq heq)
  | malformed hrest hn hf hfound => exact .malformed hrest hn hf hfound

/-- What has been done before a step belongs to the whole. -/
theorem prepend {ts : List Token} {P : ParsePost α}
    {r : EStateM.Result ParseStop Cursor α} (hrest : c.rest = ts ++ c'.rest)
    (hn : c.nextId ≤ c'.nextId) (hf : c.findings <:+ c'.findings)
    (hP : c'.findings = c.findings → ∀ {us rest hi a}, c'.rest = us ++ rest → c'.nextId ≤ hi →
      Q us rest c'.nextId hi a → P (ts ++ us) rest c.nextId hi a)
    (h : ParseOutcome c' b Q r) : ParseOutcome c (ts.length + b) P r := by
  cases h with
  | ok us hrest' hus hn' hf' hq =>
    refine .ok (ts ++ us) (by rw [hrest, hrest', List.append_assoc]) ?_ (Nat.le_trans hn hn')
      (hf.trans hf') ?_
    · rw [List.length_append]
      omega
    · intro heq
      obtain ⟨heq', heq⟩ := findings_eq_of_suffix hf hf' heq
      exact hP heq hrest' hn' (hq heq')
  | malformed hrest' hn' hf' hfound =>
    refine .malformed ?_ (Nat.le_trans hn hn') (hf.trans hf') ?_
    · rw [hrest]
      exact hrest'.trans (List.suffix_append ..)
    · intro heq
      exact hfound (findings_eq_of_suffix hf hf' heq).1

theorem weaken {r : EStateM.Result ParseStop Cursor α} (h : ParseOutcome c b Q r) :
    ParseOutcome c 0 Q r :=
  h.imp (Nat.zero_le b) fun _ h => h

/-- Steps put together.  The second one may count on what holds of the result of the first. -/
theorem andThen {p : Parse α} {f : α → Parse β} (hp : ParseOutcome c b Q (p c))
    (hf : ∀ {a c' ts}, c.rest = ts ++ c'.rest → b ≤ ts.length →
      ParseOutcome c' b'
        (fun us rest mid hi x => ∀ {ts lo}, lo ≤ mid → mid ≤ hi → Q ts (us ++ rest) lo mid a →
          Q' (ts ++ us) rest lo hi x)
        (f a c')) :
    ParseOutcome c (b + b') Q' ((p >>= f) c) := by
  change ParseOutcome c (b + b') Q' (EStateM.bind p f c)
  unfold EStateM.bind
  generalize p c = r at hp ⊢
  cases hp with
  | ok ts hrest hts hn hfs hq =>
    refine ((hf hrest hts).prepend hrest hn hfs ?_).imp (by omega) fun _ h => h
    intro heq us rest hi a hrest' hhi hQ
    exact hQ hn hhi (hrest' ▸ hq heq)
  | malformed hrest hn hfs hfound => exact .malformed hrest hn hfs hfound

/-- Steps put together, the first of which takes the tokens that are to be taken. -/
theorem bind {p : Parse α} {f : α → Parse β} (hp : ParseOutcome c b Q (p c))
    (hf : ∀ {a c' ts}, c.rest = ts ++ c'.rest → b ≤ ts.length →
      ParseOutcome c' 0
        (fun us rest mid hi x => ∀ {ts lo}, lo ≤ mid → mid ≤ hi → Q ts (us ++ rest) lo mid a →
          Q' (ts ++ us) rest lo hi x)
        (f a c')) :
    ParseOutcome c b Q' ((p >>= f) c) :=
  hp.andThen hf

/-- Steps put together, the second of which takes the tokens that are to be taken. -/
theorem before {p : Parse α} {f : α → Parse β} (hp : ParseOutcome c 0 Q (p c))
    (hf : ∀ {a c' ts}, c.rest = ts ++ c'.rest →
      ParseOutcome c' b
        (fun us rest mid hi x => ∀ {ts lo}, lo ≤ mid → mid ≤ hi → Q ts (us ++ rest) lo mid a →
          Q' (ts ++ us) rest lo hi x)
        (f a c')) :
    ParseOutcome c b Q' ((p >>= f) c) := by
  have h := hp.andThen fun hrest _ => hf hrest
  rw [Nat.zero_add] at h
  exact h

/-- One token is taken first. -/
theorem take {P : ParsePost α} {r : EStateM.Result ParseStop Cursor α}
    {t : Token} {rest : List Token} (hrest : c.rest = t :: rest)
    (h : ParseOutcome { c with rest := rest } 0 (fun us rest lo hi a => P (t :: us) rest lo hi a)
      r) :
    ParseOutcome c 1 P r := by
  have hrest' : c.rest = [t] ++ rest := hrest
  refine prepend hrest' ?_ ?_ ?_ h
  · exact Nat.le_refl _
  · exact List.suffix_refl _
  · exact fun _ {_ _ _ _} _ _ hq => hq

end ParseOutcome

/-- What holds whatever tokens are left. -/
def Anyhow {α : Type} (Q : List Token → Nat → Nat → α → Prop) :
    ParsePost α :=
  fun ts _ lo hi a => Q ts lo hi a

/-! ### Basic steps -/

section

variable {α : Type} {c : Cursor}

/-- A token of one of the given kinds is taken, if it is next. -/
theorem acceptAny_cases (ks : List Token.Kind) (c : Cursor) :
    (∃ t rest, c.rest = t :: rest ∧ t.kind ∈ ks ∧
      Parse.acceptAny ks c = .ok (some t) { c with rest := rest }) ∨
    ((∀ t rest, c.rest = t :: rest → t.kind ∉ ks) ∧ Parse.acceptAny ks c = .ok none c) := by
  obtain ⟨rest, endMark, findings, nextId⟩ := c
  cases rest with
  | nil => exact .inr ⟨fun _ _ h => absurd h (by simp), rfl⟩
  | cons t rest =>
    by_cases ht : ks.contains t.kind = true
    · refine .inl ⟨t, rest, rfl, by simpa using ht, ?_⟩
      change (if ks.contains t.kind = true then _ else _ : Parse (Option Token)) _ = _
      rw [if_pos ht]
      rfl
    · refine .inr ⟨?_, ?_⟩
      · intro t' rest' h
        obtain ⟨rfl, rfl⟩ := List.cons.inj h
        simpa using ht
      · change (if ks.contains t.kind = true then _ else _ : Parse (Option Token)) _ = _
        rw [if_neg ht]
        rfl

theorem accept_cases (k : Token.Kind) (c : Cursor) :
    (∃ t rest, c.rest = t :: rest ∧ t.kind = k ∧
      Parse.accept k c = .ok (some t) { c with rest := rest }) ∨
    ((∀ t rest, c.rest = t :: rest → t.kind ≠ k) ∧ Parse.accept k c = .ok none c) := by
  rcases acceptAny_cases [k] c with ⟨t, rest, hrest, ht, hstep⟩ | ⟨hnot, hstep⟩
  · exact .inl ⟨t, rest, hrest, by simpa using ht, hstep⟩
  · exact .inr ⟨fun t rest hrest => by simpa using hnot t rest hrest, hstep⟩

/-- A token that the grammar demands is taken, if it is next. -/
theorem expect_cases (e : Expectation) (c : Cursor) :
    (∃ t rest, c.rest = t :: rest ∧ t.kind = e.kind ∧
      Parse.expect e c = .ok t { c with rest := rest }) ∨
    ((∀ t rest, c.rest = t :: rest → t.kind ≠ e.kind) ∧
      Parse.expect e c = Parse.fail (.missing e) c) := by
  unfold Parse.expect
  rcases accept_cases e.kind c with ⟨t, rest, hrest, ht, hstep⟩ | ⟨hnot, hstep⟩
  · refine .inl ⟨t, rest, hrest, ht, ?_⟩
    rw [bind_ok hstep]
    rfl
  · refine .inr ⟨hnot, ?_⟩
    rw [bind_ok hstep]

theorem fail_outcome {Q : ParsePost α} (b : Nat) (p : Problem) :
    ParseOutcome c b Q (Parse.fail p c) := by
  refine .malformed (List.suffix_refl _) (Nat.le_refl _) (List.suffix_cons ..) ?_
  exact fun h => absurd (congrArg List.length h) (by simp)

/-- A token that the grammar demands. -/
def Demanded (k : Token.Kind) (ts _rest : List Token) (lo hi : Nat) (t : Token) : Prop :=
  ts = [t] ∧ t.kind = k ∧ hi = lo

theorem expect_outcome (e : Expectation) :
    ParseOutcome c 1 (Demanded e.kind) (Parse.expect e c) := by
  unfold Parse.expect
  rcases accept_cases e.kind c with ⟨t, rest, hrest, ht, hstep⟩ | ⟨-, hstep⟩
  · rw [bind_ok hstep]
    exact (ParseOutcome.pure ⟨rfl, ht, rfl⟩).take hrest
  · rw [bind_ok hstep]
    exact fail_outcome 1 _

/-- A problem that is reported leaves nothing to be known. -/
theorem report_outcome (t : Token) (p : Problem) :
    ParseOutcome c 0 (fun _ _ _ _ _ => False) (Parse.report t p c) := by
  refine .ok [] rfl (Nat.le_refl 0) (Nat.le_refl _) (List.suffix_cons ..) ?_
  exact fun h => absurd (congrArg List.length h) (by simp)

theorem reportIf_outcome (cond : Bool) (p : Problem) :
    ParseOutcome c 0 (fun ts _ lo hi _ => ts = [] ∧ hi = lo ∧ cond = false)
      (Parse.reportIf cond p c) := by
  cases cond with
  | false => exact .pure ⟨rfl, rfl, rfl⟩
  | true => exact (report_outcome _ p).imp (Nat.le_refl 0) fun _ h => h.elim

theorem newReference_outcome (name : Token) :
    ParseOutcome c 0 (fun ts _ lo hi ref => ts = [] ∧ ref.name = name ∧ ref.id = lo ∧ hi = lo + 1)
      (Parse.newReference name c) :=
  .ok [] rfl (Nat.le_refl 0) (Nat.le_succ _) (List.suffix_refl _) fun _ => ⟨rfl, rfl, rfl, rfl⟩

/-- What a step gives behind a token of a kind, if there is one. -/
def Behind (k : Token.Kind) (Q : ParsePost α)
    (ts rest : List Token) (lo hi : Nat) : Option α → Prop
  | none => ts = [] ∧ hi = lo ∧ ∀ t, rest.head? = some t → t.kind ≠ k
  | some a => ∃ t us, ts = t :: us ∧ t.kind = k ∧ Q us rest lo hi a

theorem after_outcome {k : Token.Kind} {step : Parse α} {b : Nat}
    {Q : ParsePost α}
    (hstep : ∀ c' : Cursor, c'.rest.length < c.rest.length → ParseOutcome c' b Q (step c')) :
    ParseOutcome c 0 (Behind k Q) (Parse.after k step c) := by
  unfold Parse.after
  rcases accept_cases k c with ⟨t, rest, hrest, ht, hacc⟩ | ⟨hnot, hacc⟩
  · rw [bind_ok hacc]
    have hlt : rest.length < c.rest.length := by simp [hrest]
    have hrun := hstep { c with rest := rest } hlt
    refine (ParseOutcome.take hrest ?_).weaken
    refine hrun.weaken.bind (f := fun a => Pure.pure (some a)) ?_
    intro a c' us _ _
    refine .pure ?_
    intro us lo _ _ hq
    rw [List.append_nil]
    exact ⟨t, us, rfl, ht, hq⟩
  · rw [bind_ok hacc]
    refine .pure ⟨rfl, rfl, ?_⟩
    intro t ht
    obtain ⟨rest, hrest⟩ := List.head?_eq_some_iff.1 ht
    exact hnot t rest hrest

/-- What a step gives unless a token of a kind is next. -/
theorem unlessNext_outcome {k : Token.Kind} {absent : α} {step : Parse α}
    {Q : ParsePost α} (hstep : ParseOutcome c 0 Q (step c))
    (habsent : ∀ rest lo, Q [] rest lo lo absent) :
    ParseOutcome c 0 Q (Parse.unlessNext k absent step c) := by
  change ParseOutcome c 0 Q ((if c.rest.head?.any (fun t => t.kind == k) then Pure.pure absent
    else step : Parse α) c)
  split
  · exact .pure (habsent _ _)
  · exact hstep

/-- A step whose problems are recovered from.  If there was one, nothing is known of the result;
some tokens are dropped all the same. -/
theorem recovering_outcome {step : Parse α} {Q : ParsePost α}
    (hne : c.rest ≠ []) (hstep : ParseOutcome c 1 Q (step c)) :
    ParseOutcome c 1 (fun ts rest lo hi a? => ∃ a, a? = some a ∧ Q ts rest lo hi a)
      (recovering step c) := by
  unfold recovering
  generalize step c = r at hstep ⊢
  cases hstep with
  | ok ts hrest hts hn hf hq => exact .ok ts hrest hts hn hf fun heq => ⟨_, rfl, hq heq⟩
  | @malformed c' hrest hn hf hfound =>
    obtain ⟨ts, hts⟩ := (synchronize_suffix c'.rest).trans hrest
    refine .ok ts hts.symm ?_ hn hf fun heq => absurd heq hfound
    -- Either the step took all tokens, or the recovery drops one.
    have hlen := congrArg List.length hts
    rw [List.length_append] at hlen
    have hpos := List.length_pos_iff.2 hne
    by_cases hnil : c'.rest = []
    · rw [hnil] at hlen
      simp only [synchronize, List.length_nil] at hlen
      omega
    · have hlt := synchronize_length_lt hnil
      have hle := hrest.length_le
      omega

end

end Lox
