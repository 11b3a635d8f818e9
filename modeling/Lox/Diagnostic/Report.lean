/-
**The report of a session.**

Findings and runtime errors go to one report.  It keeps the messages since it was last reset,
whether a finding or a runtime error was among them, and all text ever written; the exit code of
the session is read off the two marks.

Main definitions:

* `Lox.Report` — messages, marks and written text;
* `Lox.Report.emit`, `Lox.Report.errorAt`, `Lox.Report.runtimeError`, `Lox.Report.reset`,
  `Lox.Report.trace` — what can happen to it;
* `Lox.Report.exitCode` — **65** after a finding, else **70** after a runtime error, else **0**.
-/

import Lox.Diagnostic.Basic
import Lox.Failure

set_option relaxedAutoImplicit false
set_option autoImplicit false

namespace Lox

/-- The **report** of a session. -/
structure Report where
  /-- The messages since the last reset. -/
  messages : Array String := #[]
  /-- Whether a finding was reported since the last reset. -/
  hadError : Bool := false
  /-- Whether a runtime error was reported since the last reset. -/
  hadRuntimeError : Bool := false
  /-- All text written so far, which a reset does not take back. -/
  written : String := ""
deriving DecidableEq

namespace Report

/-- The report before anything was reported. -/
def empty : Report := {}

/-- A line that is written and no message. -/
def trace (r : Report) (line : String) : Report :=
  { r with written := r.written ++ line ++ "\n" }

/-- A message is kept and written. -/
def emit (r : Report) (message : String) : Report :=
  { r.trace message with messages := r.messages.push message }

/-- A problem in the given line. -/
def errorIn (r : Report) (line : Int) (pointer message : String) : Report :=
  { r.emit (findingText line pointer message) with hadError := true }

/-- A problem at the given place. -/
def errorAt (r : Report) (place : Place) (message : String) : Report :=
  r.errorIn place.lineNumber place.pointer message

/-- A finding. -/
def add (r : Report) (d : Diagnostic) : Report := r.errorAt d.place d.problem.message

/-- Findings in their order. -/
def addAll (r : Report) (ds : List Diagnostic) : Report := ds.foldl add r

/-- The text of a runtime error: its message and, below it, its line if it has one. -/
def runtimeText (line? : Option Int) (message : String) : String :=
  match line? with
  | some line => message ++ "\n[line " ++ line.repr ++ "]"
  | none => message

/-- A runtime error with the line it is reported for. -/
def runtimeErrorAt (r : Report) (line? : Option Int) (message : String) : Report :=
  { r.emit (runtimeText line? message) with hadRuntimeError := true }

/-- A runtime error. -/
def runtimeError (r : Report) (e : RuntimeError) : Report := r.runtimeErrorAt e.line? e.message

/-- Messages and marks are dropped; what is written stays. -/
def reset (r : Report) : Report :=
  { r with messages := #[], hadError := false, hadRuntimeError := false }

/-- The exit code: 65 after a finding, else 70 after a runtime error, else 0. -/
def exitCode (r : Report) : Nat :=
  if r.hadError then 65 else if r.hadRuntimeError then 70 else 0

@[simp] theorem add_hadError (r : Report) (d : Diagnostic) : (r.add d).hadError = true := rfl

@[simp] theorem add_messages (r : Report) (d : Diagnostic) :
    (r.add d).messages = r.messages.push d.text := rfl

/-- Findings set the mark exactly when there is one. -/
theorem addAll_hadError (r : Report) (ds : List Diagnostic) :
    (r.addAll ds).hadError = (r.hadError || !ds.isEmpty) := by
  induction ds generalizing r with
  | nil => simp [addAll]
  | cons d ds ih =>
    have h := ih (r.add d)
    simp only [addAll, List.foldl_cons] at h ⊢
    rw [h]
    simp

/-- Findings add their texts to the messages, in their order. -/
theorem addAll_messages (r : Report) (ds : List Diagnostic) :
    (r.addAll ds).messages.toList = r.messages.toList ++ ds.map Diagnostic.text := by
  induction ds generalizing r with
  | nil => simp [addAll]
  | cons d ds ih =>
    have h := ih (r.add d)
    simp only [addAll, List.foldl_cons] at h ⊢
    rw [h]
    simp

end Report

end Lox
