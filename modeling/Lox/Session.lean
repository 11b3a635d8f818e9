/-
**Sessions.**

A session keeps one machine and one report over any number of texts.  A text is listed as tokens,
printed as a tree, evaluated as an expression or run as a program.  A finding in the report, be it
an earlier text's, keeps later texts from being printed, evaluated or run until the report is
reset; a runtime error does not.

Main definitions:

* `Lox.Session`, `Lox.Session.initial` — a session, and how it begins;
* `Lox.Mode`, `Lox.Session.perform` — what can be done with a text, and **doing it**;
* `Lox.Step`, `Lox.Session.apply` — everything that can happen in a session;
* `Lox.Session.exitCode`, `Lox.Session.flush` — the exit code, and the output so far.
-/

import Lox.Diagnostic.Report
import Lox.Machine.Eval
import Lox.Token.Lexer
import Lox.Tree.Parser.Program
import Lox.Tree.Printer

set_option relaxedAutoImplicit false
set_option autoImplicit false

namespace Lox

/-- A **session**: the machine, the report, the next free number for a reference, and whether the
phases leave a trace. -/
structure Session where
  machine : Machine
  report : Report
  nextId : NodeId
  traced : Bool

/-- What can be done with a text. -/
inductive Mode where
  | tokenize
  | parse
  | evaluate
  | run
deriving DecidableEq

namespace Mode

/-- All modes, in the order in which they are offered. -/
def all : List Mode := [tokenize, parse, evaluate, run]

/-- The word for a mode. -/
def word : Mode → String
  | tokenize => "tokenize"
  | parse => "parse"
  | evaluate => "evaluate"
  | run => "run"

/-- The mode with the given word. -/
def ofWord? (w : String) : Option Mode := all.find? fun m => m.word == w

end Mode

namespace Session

/-- A new session, in which the clock shows the given time. -/
def initial (time : Number) (traced : Bool) : Session where
  machine := .initial time
  report := .empty
  nextId := 0
  traced := traced

/-- Leaves a trace of a phase, if phases leave one. -/
def trace (s : Session) (line : String) : Session :=
  if s.traced then { s with report := s.report.trace ("DEBUG treelox.lox: " ++ line) } else s

/-- Adds findings to the report. -/
def addFindings (s : Session) (ds : List Diagnostic) : Session :=
  { s with report := s.report.addAll ds }

/-- Prints a line. -/
def print (s : Session) (line : String) : Session :=
  { s with machine := { s.machine with printed := s.machine.printed.push line } }

/-! ### Phases -/

/-- The tokens of a text. -/
def scanned (s : Session) (source : String) : Session × Scan :=
  let scan := Lox.scan source.toList
  let s := s.addFindings scan.findings
  (s.trace ("scanned " ++ scan.allTokens.length.repr ++ " tokens"), scan)

/-- What a parser gives for the tokens of a text. -/
def parsed {α : Type} (s : Session) (parser : List Token → Token → NodeId → Parsed α)
    (source : String) : Session × α :=
  let (s, scan) := s.scanned source
  let parsed := parser scan.tokens scan.endMark s.nextId
  ({ s.addFindings parsed.findings with nextId := parsed.nextId }, parsed.tree)

/-- Finds the distances of the references of a tree. -/
def resolve (s : Session) (pass : Distances → Resolved) : Session × Option Fault :=
  let resolved := pass s.machine.distances
  ({ s.addFindings resolved.findings with
    machine := { s.machine with distances := resolved.distances } }, resolved.fault)

/-- Runs a step of the machine.  A runtime error is reported and leaves no result; any other
interrupt escapes. -/
def runStep {α : Type} (s : Session) (step : Run α) : Session × Except Interrupt (Option α) :=
  match step s.machine with
  | .ok a m => ({ s with machine := m }, .ok (some a))
  | .error (.error e) m =>
    ({ s with machine := m, report := s.report.runtimeError e }, .ok none)
  | .error i m => ({ s with machine := m }, .error i)

/-- The program that a text gives: none if there is a finding in the report. -/
def parsedProgram (s : Session) (source : String) :
    Session × Except Interrupt (Option (List Stmt)) :=
  let (s, program) := s.parsed parseProgram source
  let s := s.trace ("parsed " ++ program.length.repr ++ " statements")
  if s.report.hadError then (s, .ok none)
  else
    match s.resolve (resolveProgram program) with
    | (s, some f) => (s, .error (.fault f))
    | (s, none) =>
      if s.report.hadError then (s.trace "resolution failed, not executing", .ok none)
      else (s, .ok (some program))

/-- The expression that a text gives: none if there is a finding in the report. -/
def parsedExpression (s : Session) (source : String) : Session × Option Expr :=
  let (s, e?) := s.parsed parseExpression source
  (s, if s.report.hadError then none else e?)

/-! ### Modes -/

/-- Lists the tokens of a text. -/
def tokenize (s : Session) (source : String) : Session :=
  let (s, scan) := s.scanned source
  scan.allTokens.foldl (fun s t => s.print t.listing) s

/-- Prints the tree of an expression. -/
def parse (s : Session) (source : String) : Session × Option Interrupt :=
  match s.parsedExpression source with
  | (s, none) => (s, none)
  | (s, some e) =>
    match e.render with
    | .ok text => (s.print text, none)
    | .error f => (s, some (.fault f))

/-- Evaluates an expression and prints its value. -/
def evaluate (s : Session) (source : String) : Session × Option Interrupt :=
  match s.parsedExpression source with
  | (s, none) => (s, none)
  | (s, some e) =>
    match s.resolve (resolveExpression e) with
    | (s, some f) => (s, some (.fault f))
    | (s, none) =>
      if s.report.hadError then (s, none)
      else
        match s.runStep (Machine.evaluate e) with
        | (s, .ok (some text)) => (s.print text, none)
        | (s, .ok none) => (s, none)
        | (s, .error i) => (s, some i)

/-- Runs a program. -/
def run (s : Session) (source : String) : Session × Option Interrupt :=
  match s.parsedProgram source with
  | (s, .ok none) => (s, none)
  | (s, .error i) => (s, some i)
  | (s, .ok (some program)) =>
    match s.runStep (Machine.execute program) with
    | (s, .ok _) => (s, none)
    | (s, .error i) => (s, some i)

/-- Does with a text what the mode says.  The second part is the interrupt that escaped. -/
def perform (s : Session) (mode : Mode) (source : String) : Session × Option Interrupt :=
  match mode with
  | .tokenize => (s.tokenize source, none)
  | .parse => s.parse source
  | .evaluate => s.evaluate source
  | .run => s.run source

end Session

/-- What can happen in a session. -/
inductive Step where
  /-- A text is given. -/
  | perform (mode : Mode) (source : String)
  /-- The report is reset. -/
  | reset
  /-- A native function is made known by a global name. -/
  | register (name : String) (f : Native)

namespace Session

/-- Messages and marks are dropped. -/
def reset (s : Session) : Session := { s with report := s.report.reset }

/-- Makes a native function known by a global name. -/
def register (s : Session) (name : String) (f : Native) : Session :=
  { s with machine := s.machine.register name f }

/-- Takes a step. -/
def apply (s : Session) : Step → Session × Option Interrupt
  | .perform mode source => s.perform mode source
  | .reset => (s.reset, none)
  | .register name f => (s.register name f, none)

/-! ### Output -/

/-- The exit code of the session. -/
def exitCode (s : Session) : Nat := s.report.exitCode

/-- Whether the scope in force is the global one. -/
def atGlobals (s : Session) : Bool := s.machine.current == Machine.globalScope

/-- The global names, in their order, with the texts of their values. -/
def globals (s : Session) : List (String × String) :=
  let texts := s.machine.globals.map fun e => (e.1, s.machine.text e.2)
  texts.mergeSort fun a b => decide (a.1 ≤ b.1)

/-- Text with a line end after each line. -/
def joinLines (lines : List String) : String := String.join (lines.map fun l => l ++ "\n")

/-- What has been printed. -/
def stdout (s : Session) : String := joinLines s.machine.printed.toList

/-- What has been written about findings and errors. -/
def stderr (s : Session) : String := s.report.written

/-- The session after its output is taken away. -/
def flush (s : Session) : Session :=
  { s with
    machine := { s.machine with printed := #[] }
    report := { s.report with written := "" } }

end Session

end Lox
