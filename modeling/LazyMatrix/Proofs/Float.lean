import LazyMatrix.Expr.Basic

/-! The order of the factors of a product of floats does not matter: signs, significands and
exponents are combined separately, and the result is rounded once. -/

namespace LazyMatrix

open Float.Model Float.Model.UnpackedFloat

theorem sign_mul_comm (s t : Sign) : s * t = t * s := by cases s <;> cases t <;> rfl

theorem unpackedFloat_mul_comm (f : Format) (x y : UnpackedFloat) :
    UnpackedFloat.mul f x y = UnpackedFloat.mul f y x := by
  cases x with
  | notANumber => cases y <;> rfl
  | infinity s =>
    cases y with
    | notANumber | zero => rfl
    | infinity t | finite t => exact congrArg UnpackedFloat.infinity (sign_mul_comm s t)
  | zero s =>
    cases y with
    | notANumber | infinity => rfl
    | zero t | finite t => exact congrArg UnpackedFloat.zero (sign_mul_comm s t)
  | finite s m e =>
    cases y with
    | notANumber => rfl
    | infinity t => exact congrArg UnpackedFloat.infinity (sign_mul_comm s t)
    | zero t => exact congrArg UnpackedFloat.zero (sign_mul_comm s t)
    | finite t n k =>
      change roundWithAccuracy f (s * t) (m * n) (e + k) .exact =
        roundWithAccuracy f (t * s) (n * m) (k + e) .exact
      rw [sign_mul_comm, Nat.mul_comm, Int.add_comm]

theorem float_mul_comm (x y : Float) : x * y = y * x := by
  change Float.ofModel (.mul x.toModel y.toModel) = .ofModel (.mul y.toModel x.toModel)
  rw [Float.Model.mul, Float.Model.mul, unpackedFloat_mul_comm]

end LazyMatrix
