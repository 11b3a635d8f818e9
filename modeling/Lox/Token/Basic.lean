/-
**Tokens.**

The words of the language: symbols, keywords, names, string and number literals, and the mark at
the end.  A token carries its kind, the text it was read from, the line it ends on, and the value
of a number or a string.

Main definitions:

* `Lox.Symbol`, `Lox.Keyword` — the fixed words, with their spellings;
* `Lox.Token.Kind` — the kinds of tokens, with the names they are listed under;
* `Lox.Token.Value` — what a number or a string token denotes;
* `Lox.Token` — **a token**;
* `Lox.Token.listing`, `Lox.Token.describe` — a token in a listing, and inside a message.

Main results:

* `Lox.Keyword.ofWord?_word`, `Lox.Keyword.word_of_ofWord?` — a word is a keyword exactly when it
  is spelled like one;
* `Lox.Symbol.ofChars?_chars` — a symbol is found again by its spelling.
-/

import Lox.Number.Text
import Lox.Text.Quoted

set_option relaxedAutoImplicit false
set_option autoImplicit false

namespace Lox

/-! ### Symbols -/

/-- The words made of punctuation. -/
inductive Symbol where
  | leftParen | rightParen | leftBrace | rightBrace
  | comma | dot | minus | plus | semicolon | slash | star
  | bang | bangEqual | equal | equalEqual
  | greater | greaterEqual | less | lessEqual
deriving DecidableEq

namespace Symbol

/-- All symbols. -/
def all : List Symbol :=
  [leftParen, rightParen, leftBrace, rightBrace, comma, dot, minus, plus, semicolon, slash, star,
    bang, bangEqual, equal, equalEqual, greater, greaterEqual, less, lessEqual]

/-- The spelling of a symbol. -/
def chars : Symbol → List Char
  | leftParen => ['('] | rightParen => [')']
  | leftBrace => ['\x7b'] | rightBrace => ['\x7d']
  | comma => [','] | dot => ['.'] | minus => ['-'] | plus => ['+']
  | semicolon => [';'] | slash => ['/'] | star => ['*']
  | bang => ['!'] | bangEqual => ['!', '='] | equal => ['='] | equalEqual => ['=', '=']
  | greater => ['>'] | greaterEqual => ['>', '='] | less => ['<'] | lessEqual => ['<', '=']

/-- The name a symbol is listed under. -/
def name : Symbol → String
  | leftParen => "LEFT_PAREN" | rightParen => "RIGHT_PAREN"
  | leftBrace => "LEFT_BRACE" | rightBrace => "RIGHT_BRACE"
  | comma => "COMMA" | dot => "DOT" | minus => "MINUS" | plus => "PLUS"
  | semicolon => "SEMICOLON" | slash => "SLASH" | star => "STAR"
  | bang => "BANG" | bangEqual => "BANG_EQUAL" | equal => "EQUAL" | equalEqual => "EQUAL_EQUAL"
  | greater => "GREATER" | greaterEqual => "GREATER_EQUAL"
  | less => "LESS" | lessEqual => "LESS_EQUAL"

/-- The symbol with the given spelling. -/
def ofChars? (cs : List Char) : Option Symbol := all.find? fun s => s.chars == cs

/-- A symbol is found again by its spelling. -/
@[simp] theorem ofChars?_chars (s : Symbol) : ofChars? s.chars = some s := by
  cases s <;> decide

theorem chars_of_ofChars? {cs : List Char} {s : Symbol} (h : ofChars? cs = some s) :
    s.chars = cs := by
  simpa using List.find?_some h

end Symbol

/-! ### Keywords -/

/-- The reserved words. -/
inductive Keyword where
  | and | class_ | else_ | false_ | fun_ | for_ | if_ | nil
  | or | print | return_ | super | this | true_ | var | while_
deriving DecidableEq

namespace Keyword

/-- All keywords. -/
def all : List Keyword :=
  [.and, .class_, .else_, .false_, .fun_, .for_, .if_, .nil, .or, .print, .return_, .super, .this,
    .true_, .var, .while_]

/-- The spelling of a keyword. -/
def word : Keyword → String
  | .and => "and" | .class_ => "class" | .else_ => "else" | .false_ => "false"
  | .fun_ => "fun" | .for_ => "for" | .if_ => "if" | .nil => "nil"
  | .or => "or" | .print => "print" | .return_ => "return" | .super => "super"
  | .this => "this" | .true_ => "true" | .var => "var" | .while_ => "while"

/-- The name a keyword is listed under. -/
def name : Keyword → String
  | .and => "AND" | .class_ => "CLASS" | .else_ => "ELSE" | .false_ => "FALSE"
  | .fun_ => "FUN" | .for_ => "FOR" | .if_ => "IF" | .nil => "NIL"
  | .or => "OR" | .print => "PRINT" | .return_ => "RETURN" | .super => "SUPER"
  | .this => "THIS" | .true_ => "TRUE" | .var => "VAR" | .while_ => "WHILE"

/-- The keyword with the given spelling. -/
def ofWord? (w : String) : Option Keyword := all.find? fun k => k.word == w

/-- A keyword is found again by its spelling. -/
@[simp] theorem ofWord?_word (k : Keyword) : ofWord? k.word = some k := by
  cases k <;> decide

/-- Only the exact spelling makes a keyword. -/
theorem word_of_ofWord? {w : String} {k : Keyword} (h : ofWord? w = some k) : k.word = w := by
  simpa using List.find?_some h

end Keyword

/-! ### Tokens -/

namespace Token

/-- The kinds of tokens. -/
inductive Kind where
  | symbol (s : Symbol)
  | keyword (k : Keyword)
  | identifier
  | string
  | number
  | eof
deriving DecidableEq

namespace Kind

/-- The name a kind is listed under. -/
def name : Kind → String
  | symbol s => s.name
  | keyword k => k.name
  | identifier => "IDENTIFIER"
  | string => "STRING"
  | number => "NUMBER"
  | eof => "EOF"

/-- All kinds. -/
def all : List Kind :=
  Symbol.all.map symbol ++ Keyword.all.map keyword ++ [identifier, string, number, eof]

/-- The kind with the given name. -/
def ofName? (s : String) : Option Kind := all.find? fun k => k.name == s

/-- The kind of a word: a keyword if it is spelled like one, else a name. -/
def ofWord (w : String) : Kind := (Keyword.ofWord? w).elim identifier keyword

end Kind

end Token

/-- The value that a token denotes by itself. -/
inductive Token.Value where
  | none
  | number (x : Number)
  | string (s : String)
deriving DecidableEq

/-- How a listing shows the value of a token. -/
def Token.Value.text : Token.Value → String
  | none => "null"
  | number x => x.text
  | string s => s

/-- A **token**: its kind, the text it was read from, the line it ends on, and the value of a
number or a string.  In a text the lines are counted from one; a token that is put together by
other means may carry any number. -/
structure Token where
  kind : Token.Kind
  lexeme : String
  line : Int
  value : Token.Value := .none
deriving DecidableEq

namespace Token

/-- The end mark on the given line. -/
def endMark (line : Int) : Token where
  kind := .eof
  lexeme := ""
  line := line

/-- A token in a listing: kind, text and value. -/
def listing (t : Token) : String := t.kind.name ++ " " ++ t.lexeme ++ " " ++ t.value.text

/-- A token inside a message, with its line. -/
def describe (t : Token) : String :=
  "Token(" ++ t.kind.name ++ ", " ++ Quoted.quoted t.lexeme ++ ", line=" ++ t.line.repr ++ ")"

end Token

end Lox
