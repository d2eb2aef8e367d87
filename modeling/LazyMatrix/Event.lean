import LazyMatrix.Pattern.Error

/-! What happens during matching, in passes and in compiling, as it is written to the log. Events
hold the expressions concerned; their texts are only made when the log is read. -/

namespace LazyMatrix

inductive Level where
  | trace
  | debug
  | info
  | warn
  deriving DecidableEq, Repr

def Level.text : Level → String
  | .trace => "TRACE"
  | .debug => "DEBUG"
  | .info => "INFO"
  | .warn => "WARN"

inductive Event where
  | tried (depth : Nat) (candidate pattern : Expr)
  | bound (depth : Nat) (w : Wildcard) (candidate : Expr)
  | notRebound (depth : Nat) (w : Wildcard)
  | otherKind (depth : Nat) (expected found : Kind)
  | declined (template : String) (error : MatchError)
  | applied (template : String) (source target : Expr)
  | repeated (pass : String)
  | stopped (pass : String) (error : PassError)
  | passed (pass : String) (result : Expr)
  | compiled (passes : Nat)

namespace Event

def level : Event → Level
  | .tried .. | .bound .. | .notRebound .. | .otherKind .. | .passed .. => .trace
  | .declined .. | .applied .. | .stopped .. => .debug
  | .compiled .. => .info
  | .repeated .. => .warn

def margin (depth : Nat) : String := String.ofList (List.replicate (4 * depth) ' ')

def message : Event → String
  | .tried depth candidate pattern =>
      margin depth ++ s!"match {candidate.text} against {pattern.text}"
  | .bound depth w candidate => margin depth ++ s!"bound wildcard {w.name} to {candidate.text}"
  | .notRebound depth w => margin depth ++ s!"failed to rebind wildcard {w.name}"
  | .otherKind depth expected found =>
      margin depth ++ s!"expected {expected.symbol}, found {found.symbol}"
  | .declined template error => s!"Template '{template}' doesn't match: {error.message}"
  | .applied template source target =>
      s!"Template '{template}' rewrote {source.text} into {target.text}"
  | .repeated pass => s!"Compiler already has a rewriter named '{pass}'"
  | .stopped pass error => s!"Compilation stopped at '{pass}': {error.message}"
  | .passed pass result => s!"After '{pass}': {result.text}"
  | .compiled passes => s!"Compiled with {passes} rewriters"

def text (e : Event) : String := e.level.text ++ " " ++ e.message

end Event

end LazyMatrix
