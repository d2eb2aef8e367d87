import LazyMatrix.Compiler
import LazyMatrix.Template

/-! Rules that keep the value of every expression that validates, and two compilers made of them.
Making a rule names its wildcards, those of the source before those of the target. -/

namespace LazyMatrix.Rules

/-- A wildcard leaf; every call makes a new one. -/
def var (name : String) : Build Expr := do Expr.wildcard (← Wildcard.named name)

def rule (name : String) (source target : Build Expr) : Build Template := do
  let source ← source
  let target ← target
  return ⟨name, source, target⟩

def on (op : Expr → Expr → Build Expr) (l r : Build Expr) : Build Expr := do
  let l ← l
  let r ← r
  op l r

def transposed (x : Build Expr) : Build Expr := do Expr.transpose (← x)

def inBackground (x : Build Expr) : Build Expr := do Expr.async (← x)

/-- An operation on two transposed operands becomes the transpose of the operation. -/
def hoist (name : String) (op : Expr → Expr → Build Expr) : Build Template :=
  rule name (on op (transposed (var "?a")) (transposed (var "?b")))
    (transposed (on op (var "?a") (var "?b")))

def hoistProduct : Build Template :=
  rule "transpose-mul" (on Expr.mul (transposed (var "?a")) (transposed (var "?b")))
    (transposed (on Expr.mul (var "?b") (var "?a")))

def dropDouble : Build Template :=
  rule "double-transpose" (transposed (transposed (var "?a"))) (var "?a")

def transposeRules : Build (List Template) := do
  let add ← hoist "transpose-add" Expr.add
  let sub ← hoist "transpose-sub" Expr.sub
  let mulElem ← hoist "transpose-mul-elem" Expr.mulElem
  let divElem ← hoist "transpose-div-elem" Expr.divElem
  let product ← hoistProduct
  let double ← dropDouble
  return [add, sub, mulElem, divElem, product, double]

/-- An operation on two products leaves both of them to the background. -/
def split (name : String) (op : Expr → Expr → Build Expr) : Build Template :=
  rule name (on op (on Expr.mul (var "?a") (var "?b")) (on Expr.mul (var "?c") (var "?d")))
    (on op (inBackground (on Expr.mul (var "?a") (var "?b")))
      (inBackground (on Expr.mul (var "?c") (var "?d"))))

def concurrentProducts : Build (List Template) := do
  let add ← split "concurrent-add" Expr.add
  let sub ← split "concurrent-sub" Expr.sub
  return [add, sub]

def serial : Build Compiler := do
  Compiler.empty.pushAll ((← transposeRules).map Template.everywhere)

def concurrent : Build Compiler := do
  let c ← serial
  c.pushAll ((← concurrentProducts).map Template.everywhere)

end LazyMatrix.Rules
