import LazyMatrix.Sexp.Basic
import LazyMatrix.Text.Blank

/-! Symbolic expressions over several lines. A list whose one-line text has more bytes than the
width allows is broken after each item, and its items are indented by two blanks for each list
they are in. An atom loses the quotation marks at its ends, its own ones too. -/

namespace LazyMatrix.Sexp

def bareText (text : String) : String :=
  String.ofList (Text.strip (· = '"') (atomText text).toList)

def indentation (level : Nat) : String := String.ofList (List.replicate (2 * level) ' ')

def separator (broken : Bool) (level : Nat) : String :=
  if broken then "\n" ++ indentation level else " "

def isBroken (width : Nat) (x : Sexp) : Bool := width < x.text.utf8ByteSize

mutual

def layout (width level : Nat) : Sexp → String
  | .atom s => bareText s
  | .list items =>
      "(" ++ layoutItems width level (isBroken width (.list items)) items ++ ")"

def layoutItems (width level : Nat) (broken : Bool) : List Sexp → String
  | [] => ""
  | [x] => layout width (level + 1) x
  | x :: y :: rest =>
      layout width (level + 1) x ++ separator broken level ++
        layoutItems width level broken (y :: rest)

end

def inline (x : Sexp) : String := layout (Nat.pow 2 64 - 1) 0 x

end LazyMatrix.Sexp
