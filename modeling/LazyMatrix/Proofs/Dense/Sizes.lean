import LazyMatrix.Proofs.Dense.Obtained

/-! Sizes that are asked for. Before a new matrix gets its elements, their number is computed and a
buffer is made for them. A number that is no size stops at the first of the two steps, one that no
buffer holds at the second, so what comes to an end has all its elements. -/

namespace LazyMatrix.Dense

variable {d a b : Dense} {shape : Shape} {made : Except Fault Dense}

def wide : Dense := ⟨⟨0, Nat.pow 2 32⟩, Nat.pow 2 32, #[]⟩

end LazyMatrix.Dense
