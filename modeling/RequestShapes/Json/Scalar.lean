import RequestShapes.Json.Basic
import RequestShapes.Number.Arithmetic

/-!
# Scalars by value

As a key a number counts by its quantity alone: the integer one, the double
one and truth are the same key. Quantities are counted in the least positive
double, of which every integer and every finite double is a multiple.
-/

namespace RequestShapes

/-- A quantity: a multiple of the least positive double, or an infinity. -/
inductive Quantity where
  | units (count : Int)
  | infinite (negative : Bool)
deriving DecidableEq, Repr

/-- The quantity of an integer. -/
def Quantity.ofInt (n : Int) : Quantity :=
  .units (n * (Nat.pow 2 Binary64.unitExponent : Nat))

/-- The quantity of a double, unless it is not a number. -/
def Binary64.quantity? (x : Binary64) : Option Quantity :=
  if x.isNaN then none
  else if x.isInfinite then some (.infinite x.isNegative)
  else some (.units x.units)

namespace Json

/-- The quantity that a scalar stands for. Truth counts as one and falsehood
as zero. -/
def quantity? : Json → Option Quantity
  | .bool value => some (.ofInt (if value then 1 else 0))
  | .int value => some (.ofInt value)
  | .float x => x.quantity?
  | _ => none

/-- Whether two scalars are the same key. What is not a number is no key's
equal, not even its own. -/
def sameKey : Json → Json → Bool
  | .null, .null => true
  | .str a, .str b => a = b
  | a, b =>
      match a.quantity?, b.quantity? with
      | some m, some n => m = n
      | _, _ => false

/-- Texts are the same key exactly when they are equal. -/
@[simp] theorem sameKey_str (a b : String) : sameKey (.str a) (.str b) = decide (a = b) := rfl

example : sameKey (.int 1) (.float (.ofNat 1)) = true := by decide +kernel
example : sameKey (.int 0) (.float (.ofDecimal true 0 0)) = true := by decide +kernel
example : sameKey (.float .nan) (.float .nan) = false := by decide +kernel

end Json

end RequestShapes
