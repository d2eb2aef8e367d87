import LazyMatrix.Expr.Basic
import Std.Data.TreeMap

/-! The graph of an expression: its distinct nodes, each once, a node before its operands and a left
operand before a right one. -/

namespace LazyMatrix.Expr

structure Visited where
  nodes : Array Expr := #[]
  numbers : Std.TreeMap Nat Nat := {}

namespace Visited

def add (v : Visited) (e : Expr) : Visited :=
  ⟨v.nodes.push e, v.numbers.insert e.handle v.nodes.size⟩

def has (v : Visited) (handle : Nat) : Bool := v.numbers.contains handle

def number (v : Visited) (e : Expr) : Nat := v.numbers[e.handle]?.getD 0

end Visited

def visit : Expr → Visited → Visited
  | .leaf h x, v => if v.has h then v else v.add (.leaf h x)
  | .unary h op x, v => if v.has h then v else visit x (v.add (.unary h op x))
  | .binary h op l r, v => if v.has h then v else visit r (visit l (v.add (.binary h op l r)))

structure GraphNode where
  node : Expr
  args : List Nat

def graph (e : Expr) : List GraphNode :=
  let v := visit e {}
  v.nodes.toList.map fun node => ⟨node, node.operands.map v.number⟩

end LazyMatrix.Expr
