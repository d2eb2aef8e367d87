import LazyMatrix.Pass
import LazyMatrix.Text.Quoted

/-! Compilers, lists of passes that are run one after the other, each on what the one before it
made. A pass is run once; there is no iteration. If a compiler validates, it judges the expression
it is given and the one it ends with, and a wildcard in either is a fault. -/

namespace LazyMatrix

inductive CompileError where
  | invalid (e : Error)
  | pass (name : String) (e : PassError)

def CompileError.message : CompileError → String
  | .invalid e => "invalid expression: " ++ e.message
  | .pass name e => s!"rewrite '{name}' failed: {e.message}"

structure NotCompiled where
  expr : Expr
  error : CompileError

def NotCompiled.message (e : NotCompiled) : String :=
  s!"failed to compile {e.expr.text}: {e.error.message}"

structure Compiler where
  passes : List Pass := []
  validates : Bool := false

namespace Compiler

def empty : Compiler := {}

def size (c : Compiler) : Nat := c.passes.length

def isEmpty (c : Compiler) : Bool := c.passes.isEmpty

def names (c : Compiler) : List String := c.passes.map Pass.name

/-- Appends a pass. A name that is there already is noted, and does no harm. -/
def push (c : Compiler) (p : Pass) : Build Compiler := do
  if c.names.contains p.name then Session.note (.repeated p.name)
  return { c with passes := c.passes ++ [p] }

def pushAll (c : Compiler) (ps : List Pass) : Build Compiler := ps.foldlM push c

def withValidation (c : Compiler) (validates : Bool) : Compiler := { c with validates }

def judge (e : Expr) : Attempt (Stop CompileError) Unit :=
  match e.validate with
  | .ok () => return ()
  | .error (.error error) => throw (.error (.invalid error))
  | .error (.fault fault) => throw (.fault fault)

def run : List Pass → Expr → Attempt (Stop CompileError) Expr
  | [], e => return e
  | p :: rest, e => do
      match ← (p.run e).run with
      | .error error =>
          Session.note (.stopped p.name error)
          throw (.error (.pass p.name error))
      | .ok result =>
          Session.note (.passed p.name result)
          run rest result

def compile (c : Compiler) (e : Expr) : Attempt (Stop CompileError) Expr := do
  if c.validates then judge e
  let result ← run c.passes e
  if c.validates then judge result
  Session.note (.compiled c.size)
  return result

def mustCompile (c : Compiler) (e : Expr) : Attempt (Stop NotCompiled) Expr := do
  match ← (c.compile e).run with
  | .ok result => return result
  | .error (.error error) => throw (.error ⟨e, error⟩)
  | .error (.fault fault) => throw (.fault fault)

def text (c : Compiler) : String :=
  s!"Compiler \x7b rewriters: [" ++ ", ".intercalate (c.names.map Text.quote) ++
    s!"], validate: {c.validates} \x7d"

end Compiler

end LazyMatrix
