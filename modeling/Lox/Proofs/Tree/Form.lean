/-
**Printed forms have one reading.**

A printed expression is a word, or a head with parts behind it in parentheses.  Words and heads hold
no blanks and no parentheses, so that the text of such a form shows where each part ends, whatever
follows: two forms with the same text are the same.

Main definitions:

* `Lox.Form`, `Lox.Form.text` — **forms** and their texts;
* `Lox.Form.Proper` — forms whose words and heads show where they end.

Main results:

* `Lox.Form.text_cancel`, `Lox.Form.text_injective` — **the text has one reading** as a form;
* `Lox.parenthesize_eq` — a head and its parts in parentheses are the text of a form.
-/

import Lox.Proofs.Token.Respelling
import Lox.Tree.Printer

set_option relaxedAutoImplicit false
set_option autoImplicit false

namespace Lox

/-! ### Forms -/

/-- A **form**: a word, or a head with parts behind it. -/
inductive Form where
  | word (z : String)
  | row (head : String) (parts : List Form)

mutual

/-- The **text** of a form. -/
def Form.text : Form → List Char
  | .word z => z.toList
  | .row head parts => '(' :: head.toList ++ partsText parts

/-- The text of the parts behind a head, and of the parenthesis behind them. -/
def partsText : List Form → List Char
  | [] => [')']
  | f :: fs => ' ' :: f.text ++ partsText fs

end

/-- The characters of words and heads. -/
def isAtomChar (c : Char) : Bool := c != ' ' && c != '(' && c != ')'

/-- Words and heads: at least one character, no blank and no parenthesis. -/
def IsAtom (z : String) : Prop := z.toList ≠ [] ∧ z.toList.all isAtomChar = true

instance (z : String) : Decidable (IsAtom z) := inferInstanceAs (Decidable (_ ∧ _))

/-- A form whose words and heads show **where they end**. -/
inductive Form.Proper : Form → Prop
  | word {z : String} (hz : IsAtom z) : Proper (.word z)
  | row {head : String} {parts : List Form} (hhead : IsAtom head)
      (hparts : ∀ f ∈ parts, f.Proper) : Proper (.row head parts)

/-! ### The text has one reading -/

/-- An atom ends where the text goes on with another character. -/
theorem atom_cancel {z z' : String} (hz : IsAtom z) (hz' : IsAtom z') {rest rest' : List Char}
    (hrest : Stops isAtomChar rest) (hrest' : Stops isAtomChar rest')
    (h : z.toList ++ rest = z'.toList ++ rest') : z = z' ∧ rest = rest' := by
  obtain ⟨htake, hdrop⟩ := takeWhile_stops (List.all_eq_true.1 hz.2) hrest
  obtain ⟨htake', hdrop'⟩ := takeWhile_stops (List.all_eq_true.1 hz'.2) hrest'
  rw [h, htake'] at htake
  rw [h, hdrop'] at hdrop
  exact ⟨(String.toList_injective htake).symm, hdrop.symm⟩

/-- An atom does not begin with a parenthesis. -/
theorem IsAtom.append_ne {z : String} (hz : IsAtom z) (rest cs : List Char) :
    z.toList ++ rest ≠ '(' :: cs := by
  intro h
  obtain ⟨c, ds, hcs⟩ := List.exists_cons_of_ne_nil hz.1
  have hc := List.all_eq_true.1 hz.2 c (by simp [hcs])
  rw [hcs] at h
  rw [List.head_eq_of_cons_eq h] at hc
  cases hc

theorem stops_partsText (fs : List Form) (rest : List Char) :
    Stops isAtomChar (partsText fs ++ rest) := by
  cases fs <;>
    · intro d hd
      obtain rfl := Option.some.inj hd
      rfl

/-- The parts behind a head are told apart, if each of them is. -/
theorem partsText_cancel {fs : List Form}
    (hfs : ∀ f ∈ fs, ∀ f' : Form, f'.Proper → ∀ rest rest', Stops isAtomChar rest →
      Stops isAtomChar rest' → f.text ++ rest = f'.text ++ rest' → f = f' ∧ rest = rest')
    {fs' : List Form} (hfs' : ∀ f ∈ fs', f.Proper) {rest rest' : List Char}
    (h : partsText fs ++ rest = partsText fs' ++ rest') : fs = fs' ∧ rest = rest' := by
  induction fs generalizing fs' with
  | nil =>
    cases fs' with
    | nil => exact ⟨rfl, List.tail_eq_of_cons_eq h⟩
    | cons f' fs' => exact absurd (List.head_eq_of_cons_eq h) (by decide)
  | cons f fs ih =>
    cases fs' with
    | nil => exact absurd (List.head_eq_of_cons_eq h) (by decide)
    | cons f' fs' =>
      have htail : f.text ++ (partsText fs ++ rest) = f'.text ++ (partsText fs' ++ rest') := by
        simpa [partsText] using h
      obtain ⟨hf, hlater⟩ := List.forall_mem_cons.1 hfs
      obtain ⟨hf', hlater'⟩ := List.forall_mem_cons.1 hfs'
      obtain ⟨rfl, hparts⟩ := hf f' hf' _ _ (stops_partsText _ _) (stops_partsText _ _) htail
      obtain ⟨rfl, hrest⟩ := ih hlater hlater' hparts
      exact ⟨rfl, hrest⟩

/-- **The text of a form has one reading**, whatever follows behind a blank or a parenthesis. -/
theorem Form.text_cancel {f f' : Form} (hf : f.Proper) (hf' : f'.Proper) {rest rest' : List Char}
    (hrest : Stops isAtomChar rest) (hrest' : Stops isAtomChar rest')
    (h : f.text ++ rest = f'.text ++ rest') : f = f' ∧ rest = rest' := by
  -- Anything may follow in the induction, since behind a part stand the other parts.
  induction hf generalizing f' rest rest' with
  | word hz =>
    cases hf' with
    | word hz' =>
      obtain ⟨rfl, rfl⟩ := atom_cancel hz hz' hrest hrest' h
      exact ⟨rfl, rfl⟩
    | row => exact absurd h (hz.append_ne _ _)
  | @row head parts hhead hparts ih =>
    cases hf' with
    | word hz' => exact absurd h.symm (hz'.append_ne _ _)
    | @row head' parts' hhead' hparts' =>
      have htail : head.toList ++ (partsText parts ++ rest) =
          head'.toList ++ (partsText parts' ++ rest') := by
        simpa [Form.text] using h
      obtain ⟨rfl, hpartsText⟩ :=
        atom_cancel hhead hhead' (stops_partsText _ _) (stops_partsText _ _) htail
      obtain ⟨rfl, rfl⟩ :=
        partsText_cancel (fun f hf f' hf' _ _ => ih f hf hf') hparts' hpartsText
      exact ⟨rfl, rfl⟩

/-- Forms with **the same text** are the same. -/
theorem Form.text_injective {f f' : Form} (hf : f.Proper) (hf' : f'.Proper)
    (h : f.text = f'.text) : f = f' := by
  have hend : Stops isAtomChar [] := nofun
  exact (text_cancel hf hf' hend hend (by rw [h])).1

/-! ### Parentheses -/

theorem Form.Proper.text_ne_nil {f : Form} (h : f.Proper) : f.text ≠ [] := by
  cases h with
  | word hz => exact hz.1
  | row => nofun

/-- The parts behind a head have blanks between them. -/
theorem partsText_cons (f : Form) (fs : List Form) :
    partsText (f :: fs) = ' ' :: [' '].intercalate ((f :: fs).map Form.text) ++ [')'] := by
  induction fs generalizing f with
  | nil => simp [partsText]
  | cons g fs ih =>
    rw [partsText, ih, List.map_cons, List.map_cons, List.map_cons, List.intercalate_cons_cons]
    simp

/-- A head and the texts of its parts **in parentheses**. -/
theorem parenthesize_eq (head : String) {fs : List Form} (h : ∀ f ∈ fs, f.Proper) :
    parenthesize head (fs.map fun f => String.ofList f.text) =
      String.ofList (Form.row head fs).text := by
  have hcontent : (" ".intercalate (fs.map fun f => String.ofList f.text)).toList =
      [' '].intercalate (fs.map Form.text) := by
    simp [Function.comp_def]
  refine String.toList_injective ?_
  cases fs with
  | nil => simp [parenthesize, Form.text, partsText]
  | cons f fs =>
    have hne : (" ".intercalate ((f :: fs).map fun f => String.ofList f.text)).isEmpty = false := by
      refine String.isEmpty_eq_false_iff.2 fun hempty => ?_
      rw [hempty] at hcontent
      have hf := (h f (List.mem_cons_self ..)).text_ne_nil
      cases fs with
      | nil => simp [hf] at hcontent
      | cons g fs => simp [List.intercalate_cons_cons] at hcontent
    simp only [parenthesize, hne, Bool.false_eq_true, if_false, Form.text, partsText_cons,
      String.toList_append, String.toList_ofList, hcontent]
    simp

@[simp] theorem Form.ofList_text_word (z : String) : String.ofList (Form.word z).text = z :=
  String.ofList_toList

end Lox
