/-
**Quoted text.**

Messages that show a piece of source text show it in quotes: single ones, unless the text holds a
single quote and no double one.  Inside, the quote in use and the backslash are escaped, the three
common control characters have a letter, and every other character that has no visible shape of
its own is given by its code.

Main definitions:

* `Lox.Quoted.encodeChar` — one character between the quotes;
* `Lox.Quoted.encode` — the text between the quotes;
* `Lox.Quoted.quoted` — **the quoted text**.
-/

import Lox.Text.Hidden

set_option relaxedAutoImplicit false
set_option autoImplicit false

namespace Lox.Quoted

/-! ### Escapes -/

/-- A code in base sixteen, filled up with zeros to the given width. -/
def hexText (width code : Nat) : List Char :=
  let digits := Nat.toDigits 16 code
  List.replicate (width - digits.length) '0' ++ digits

/-- A character by its code, in the shortest of the three forms that has room for it. -/
def codeEscape (c : Char) : List Char :=
  let code := c.toNat
  if code < 0x100 then '\\' :: 'x' :: hexText 2 code
  else if code < 0x10000 then '\\' :: 'u' :: hexText 4 code
  else '\\' :: 'U' :: hexText 8 code

/-- One character between quotes of the kind `quote`. -/
def encodeChar (quote c : Char) : List Char :=
  if c = quote ∨ c = '\\' then ['\\', c]
  else if c = '\n' then ['\\', 'n']
  else if c = '\t' then ['\\', 't']
  else if c = '\r' then ['\\', 'r']
  else if isHidden c then codeEscape c
  else [c]

/-- The text between the quotes. -/
def encode (quote : Char) (cs : List Char) : List Char := cs.flatMap (encodeChar quote)

/-- Single quotes, unless the text holds a single quote and no double one. -/
def chooseQuote (cs : List Char) : Char :=
  if cs.contains '\'' && !cs.contains '"' then '"' else '\''

/-- The **quoted text**. -/
def quoted (s : String) : String :=
  let quote := chooseQuote s.toList
  String.ofList (quote :: encode quote s.toList ++ [quote])

end Lox.Quoted
