import LazyMatrix.Sexp.Basic

/-! Reading symbolic expressions. A text is cut into tokens, and tokens are put together until the
first expression is complete; whatever follows it is not looked at. An atom that does not begin
with a quotation mark ends before a blank, a line break or a bracket. A quoted atom ends at the
next quotation mark that has no backslash before it, and keeps its backslashes. -/

namespace LazyMatrix.Sexp

inductive Token where
  | opening
  | closing
  | atom (text : String)
  /-- A quoted atom that the text breaks off. -/
  | unfinished

def isGap (c : Char) : Bool := c = ' ' || c = '\t' || c = '\r' || c = '\n'

/-- What ends an unquoted atom. A tab does not. -/
def endsAtom (c : Char) : Bool := c = ' ' || c = '\r' || c = '\n' || c = '(' || c = ')'

/-- Where the tokenizer stands. Atoms are collected backwards. -/
inductive Position where
  | gap
  | bare (reversed : List Char)
  | quoted (reversed : List Char) (escaped : Bool)

def Token.ofReversed (reversed : List Char) : Token := .atom (String.ofList reversed.reverse)

def Position.afterGap (c : Char) : List Token × Position :=
  if isGap c then ([], .gap)
  else if c = '(' then ([.opening], .gap)
  else if c = ')' then ([.closing], .gap)
  else if c = '"' then ([], .quoted [] false)
  else ([], .bare [c])

def Position.step : Position → Char → List Token × Position
  | .gap, c => afterGap c
  | .bare acc, c =>
      if endsAtom c then
        let (tokens, next) := afterGap c
        (.ofReversed acc :: tokens, next)
      else ([], .bare (c :: acc))
  | .quoted acc escaped, c =>
      if c = '"' && !escaped then ([.ofReversed acc], .gap)
      else ([], .quoted (c :: acc) (c = '\\'))

def Position.finish : Position → List Token
  | .gap => []
  | .bare acc => [.ofReversed acc]
  | .quoted _ _ => [.unfinished]

def tokens : Position → List Char → List Token
  | p, [] => p.finish
  | p, c :: rest => (p.step c).1 ++ tokens (p.step c).2 rest

inductive ReadError where
  | endOfText
  | closingFirst
  deriving DecidableEq, Repr

/-- Puts tokens together. The stack holds the items, last first, of each list still open, the
innermost one on top. -/
def assemble : List (List Sexp) → List Token → Except ReadError Sexp
  | _, [] => .error .endOfText
  | _, .unfinished :: _ => .error .endOfText
  | stack, .opening :: rest => assemble ([] :: stack) rest
  | [], .closing :: _ => .error .closingFirst
  | [], .atom s :: _ => .ok (.atom s)
  | items :: stack, .atom s :: rest => assemble ((.atom s :: items) :: stack) rest
  | [items], .closing :: _ => .ok (.list items.reverse)
  | items :: outer :: stack, .closing :: rest =>
      assemble ((.list items.reverse :: outer) :: stack) rest

def read (text : List Char) : Except ReadError Sexp := assemble [] (tokens .gap text)

def position (text : List Char) : Nat × Nat :=
  (1 + text.count '\n', 1 + (text.reverse.takeWhile (· ≠ '\n')).length)

/-- What went wrong and where: past the end of the text, or before its first character. -/
def ReadError.message (text : List Char) : ReadError → String
  | .endOfText =>
      let (line, column) := position text
      s!"ParseError \x7b msg: \"End of file reached\", line: {line}, col: {column} \x7d"
  | .closingFirst => "ParseError \x7b msg: \"Unexpected )\", line: 1, col: 1 \x7d"

end LazyMatrix.Sexp
