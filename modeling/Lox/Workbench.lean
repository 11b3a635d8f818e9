/-
**Trees without a text.**

A tree that is put together by other means than from a text can be printed, resolved, evaluated
and executed as well.  Nothing is known about such a tree: it may have holes, names that no scope
holds, and a `return` outside of every body.

Main definitions:

* `Lox.Node` — an expression or a statement;
* `Lox.Tree` — what is given as a tree;
* `Lox.Task`, `Lox.Session.workOn` — **what can be done with a tree**, and doing it.
-/

import Lox.Session

set_option relaxedAutoImplicit false
set_option autoImplicit false

namespace Lox

/-- An expression or a statement. -/
inductive Node where
  | expr (e : Expr)
  | stmt (s : Stmt)

namespace Node

/-- The printed form, which only expressions have. -/
def render : Node → Except Fault String
  | expr e => e.render
  | stmt s => s.render

/-- A node in the place of a statement. -/
def toStmt : Node → Stmt
  | expr e => .expression e
  | stmt s => s

/-- The text of the value of a node; a statement has the value `nil`. -/
def evaluate : Node → Run String
  | expr e => Machine.evaluate e
  | stmt s => do
    Machine.execute [s]
    return (← get).text .nil

end Node

/-- What is given as a tree: a node, a list of nodes, or something else that has a name. -/
inductive Tree where
  | node (n : Node)
  | list (ns : List Node)
  | other (noun : String)

/-- The pass that finds the distances of a tree's references. -/
def Tree.resolve : Tree → Resolve Unit
  | node n => resolveStmt n.toStmt
  | list ns => resolveBody (ns.map Node.toStmt)
  | other noun => throw (.notATree noun)

/-- The printed form, which only a single expression has. -/
def Tree.render : Tree → Except Fault String
  | node n => n.render
  | list _ => .error (.unhandled "list" .printing)
  | other noun => .error (.unhandled noun .printing)

/-- The nodes of a tree. -/
def Tree.nodes : Tree → List Node
  | node n => [n]
  | list ns => ns
  | other _ => []

/-- What can be done with a tree. -/
inductive Task where
  | print
  | evaluate
  | execute
  | resolve
deriving DecidableEq

namespace Session

/-- Does the task with a tree whose references have their distances. -/
def workOnResolved (s : Session) (task : Task) (tree : Tree) :
    Session × Except Interrupt (Option String) :=
  match task, tree with
  | .print, tree => (s, (tree.render.mapError Interrupt.fault).map some)
  | .evaluate, .node n => s.runStep n.evaluate
  | .execute, tree =>
    match s.runStep (Machine.execute (tree.nodes.map Node.toStmt)) with
    | (s, .ok _) => (s, .ok none)
    | (s, .error i) => (s, .error i)
  | _, _ => (s, .ok none)

/-- Does the task with a tree, after its references are given their distances if that is asked
for.  Findings do not stop the task; a fault does. -/
def workOn (s : Session) (task : Task) (resolveFirst : Bool) (tree : Tree) :
    Session × Except Interrupt (Option String) :=
  if resolveFirst || task = .resolve then
    match s.resolve (runResolve tree.resolve) with
    | (s, some f) => (s, .error (.fault f))
    | (s, none) => s.workOnResolved task tree
  else
    s.workOnResolved task tree

end Session

end Lox
