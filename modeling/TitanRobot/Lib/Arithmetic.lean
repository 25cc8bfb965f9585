import TitanRobot.Lib.Floating

/-!
# More arithmetic on doubles

The operations that the maps need beyond those of the metrics: sums, products, `int` values as
doubles and the conversions to `unsigned int` and `float`, on doubles and in exact rational
arithmetic. There nothing is rounded but what is made a `float`.
-/
namespace TitanRobot

section
variable {α : Type} [Field α] [LinearOrder α] [FloorRing α]

/-- The conversion to `unsigned int`, where it is defined. -/
def castUnsigned (q : α) : Option ℕ :=
  if -1 < q ∧ q < ((2 ^ 32 : ℕ) : α) then some (truncate q).toNat else none

end

class Arithmetic (α : Type) extends Floating α where
  add : α → α → α
  mul : α → α → α
  /-- An `int` as a `double`. -/
  ofInt : ℤ → α
  half : α
  /-- `static_cast<unsigned int>`, where it is defined. -/
  toUnsigned : α → Option ℕ
  /-- The conversion to `float`. -/
  toFloat : α → α

/-- Exact arithmetic that can be run. -/
instance : Arithmetic ℚ where
  sub x y := x - y
  div x y := x / y
  toInt := castInt
  mulFloat k x := k * x
  lt x y := decide (x < y)
  eq x y := decide (x = y)
  maxValue := doubleMax
  negOne := -1
  add x y := x + y
  mul x y := x * y
  ofInt n := n
  half := 1 / 2
  toUnsigned := castUnsigned
  toFloat := roundSingle

def Double.mul : Double → Double → Double
  | .finite a, .finite b => .ofRat (a * b)
  | .nan, _ => .nan
  | _, .nan => .nan
  | .infinite m, .infinite n => .infinite (xor m n)
  | .infinite m, .finite b => if b = 0 then .nan else .infinite (xor m (decide (b < 0)))
  | .finite a, .infinite n => if a = 0 then .nan else .infinite (xor n (decide (a < 0)))

def Double.toUnsigned : Double → Option ℕ
  | .finite q => castUnsigned q
  | _ => none

def Double.toFloat : Double → Double
  | .finite q => .ofRatSingle q
  | d => d

instance : Arithmetic Double where
  add := Double.add
  mul := Double.mul
  ofInt n := .ofRat n
  half := .finite (1 / 2)
  toUnsigned := Double.toUnsigned
  toFloat := Double.toFloat

end TitanRobot
