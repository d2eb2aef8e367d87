import LazyMatrix.Dense.Basic
import LazyMatrix.Decimal.Style

/-! A dense matrix spelled out, row by row, with its sizes. -/

namespace LazyMatrix.Dense

def bracketed (items : List String) : String := "[" ++ ", ".intercalate items ++ "]"

def rowText (values : Array Float) : String :=
  bracketed (values.toList.map (Decimal.write .element))

/-- The text of a matrix. A list of all rows is made first; each row in it takes the room of two
elements, so that a matrix without elements can still have too many rows to write. -/
def text (d : Dense) : Except Fault String := do
  allocate (2 * d.shape.rows)
  let rows ← walkRows (fun out r => return out.push (rowText (← d.row r))) d.shape.rows 0 #[]
  return s!"Dense \x7b rows: {d.shape.rows}, cols: {d.shape.cols}, data: " ++
    bracketed rows.toList ++ " \x7d"

end LazyMatrix.Dense
