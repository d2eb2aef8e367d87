import LazyMatrix.Decimal.Numeral
import LazyMatrix.Expr.Build
import LazyMatrix.Sexp.Reader
import LazyMatrix.Text.Blank

/-! Patterns from text. Only operators, the constants of scales and wildcards can be written down.
An operator is known before its operands are counted, they are counted before any of them is read,
and a constant is read before the expression that it scales. Each occurrence of a wildcard is a
node of its own. -/

namespace LazyMatrix

inductive ParseError where
  | text (source : List Char) (e : Sexp.ReadError)
  | nothing
  | name (e : MalformedName)
  | leaf (word : String)
  | emptyList
  | noOperator (found : Sexp)
  | operator (word : String)
  | count (word : String) (expected found : Nat)
  | constant (found : Sexp)

namespace ParseError

def reason : ParseError → String
  | .text source e => "symbolic expression parse error: " ++ e.message source
  | .nothing => "empty!"
  | .name e => e.message
  | .leaf word => s!"Couldn't parse '{word}': only wildcards can be leaves of a pattern"
  | .emptyList => "empty list"
  | .noOperator found => s!"expected op, got {found.text}"
  | .operator word => s!"bad op: {word}"
  | .count word expected found => s!"'{word}' takes {expected} operands, got {found}"
  | .constant (.atom word) => s!"bad scale constant: {word}"
  | .constant found => s!"bad scale constant: {found.text}"

def message (e : ParseError) : String := "ParseError: " ++ e.reason

end ParseError

namespace Pattern

inductive Head where
  | binary (op : BinaryOp)
  | unary (op : UnaryOp)
  | scale

def Head.count : Head → Nat
  | .binary _ => 2
  | .unary _ => 1
  | .scale => 2

def Head.ofWord? : String → Option Head
  | "+" => some (.binary (.elementwise .add))
  | "-" => some (.binary (.elementwise .sub))
  | "*" => some (.binary .product)
  | ".*" => some (.binary (.elementwise .mul))
  | "./" => some (.binary (.elementwise .div))
  | "t" => some (.unary .transpose)
  | "async" => some (.unary .async)
  | "scale" => some .scale
  | _ => none

def ofWord (word : String) : Attempt ParseError Expr :=
  if word.toList.head? = some '?' then do
    match ← (Wildcard.read word).run with
    | .ok w => Expr.wildcard w
    | .error e => throw (.name e)
  else throw (.leaf word)

def constantOf : Sexp → Except ParseError Float
  | .atom word =>
      match Decimal.read? word with
      | some c => .ok c
      | none => .error (.constant (.atom word))
  | found => .error (.constant found)

def ofSexp : Sexp → Attempt ParseError Expr
  | .atom word => ofWord word
  | .list [] => throw .emptyList
  | .list (.list items :: _) => throw (.noOperator (.list items))
  | .list (.atom word :: args) =>
      match Head.ofWord? word with
      | none => throw (.operator word)
      | some head =>
          match head, args with
          | .unary op, [x] => do Expr.newUnary op (← ofSexp x)
          | .binary op, [x, y] => do
              let l ← ofSexp x
              let r ← ofSexp y
              Expr.newBinary op l r
          | .scale, [c, x] => do
              match constantOf c with
              | .ok c => Expr.newUnary (.scale c) (← ofSexp x)
              | .error e => throw e
          | head, args => throw (.count word head.count args.length)

def read (text : String) : Attempt ParseError Expr :=
  let source := Text.trim text.toList
  if source.isEmpty then throw .nothing
  else
    match Sexp.read source with
    | .ok x => ofSexp x
    | .error e => throw (.text source e)

end Pattern

end LazyMatrix
