/-! Symbolic expressions, atoms and lists of them, and their text on one line. An atom that is
empty or holds a blank, a tab, a bracket or a percent sign is put between quotes; nothing inside
it is escaped. -/

namespace LazyMatrix

inductive Sexp where
  | atom (text : String)
  | list (items : List Sexp)

namespace Sexp

/-- The characters that bring an atom its quotes: round and curly brackets, percent, blank, tab. -/
def isSpecial (c : Char) : Bool :=
  c = '(' || c = ')' || c = '\x7b' || c = '\x7d' || c = '%' || c = ' ' || c = '\t'

def isQuoted (text : String) : Bool := text.isEmpty || text.toList.any isSpecial

def atomText (text : String) : String := if isQuoted text then "\"" ++ text ++ "\"" else text

mutual

def text : Sexp → String
  | .atom s => atomText s
  | .list items => "(" ++ itemsText items ++ ")"

def itemsText : List Sexp → String
  | [] => ""
  | [x] => x.text
  | x :: y :: rest => x.text ++ " " ++ itemsText (y :: rest)

end

end Sexp

end LazyMatrix
