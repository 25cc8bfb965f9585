import TitanRobot.Bridge.State
import TitanRobot.Lib.Regex
import TitanRobot.Lib.Text
import TitanRobot.Lib.Utf8

/-!
# Position reports

What `read_serial` makes of the text of one line: the pattern `pos_re`, the conversion of
its three groups with `float`, and the orientation computed from the yaw. `poseOf` is the
pose that a raw line reports, if its processing does not raise.
-/
namespace TitanRobot.Bridge
open Regex Text

/-! ## The pattern -/

/-- The class `[-\d\.]`. -/
def isNumeralChar (c : Char) : Bool := c == '-' || isDigit c || c == '.'

def char (a : Char) : Item Char := .one (· == a)

def gap : Item Char := .star isSpace

def field : Item Char := .group isNumeralChar

/-- `POS:\s*x\s*=\s*([-\d\.]+)\s*y\s*=\s*([-\d\.]+)\s*theta\s*=\s*` -/
def posReHead : List (Item Char) :=
  [char 'P', char 'O', char 'S', char ':', gap, char 'x', gap, char '=', gap, field,
   gap, char 'y', gap, char '=', gap, field,
   gap, char 't', char 'h', char 'e', char 't', char 'a', gap, char '=', gap]

def posRe : List (Item Char) := posReHead ++ [field]

theorem isSpace_ne {a : Char} (h : isSpace a = false) : ∀ c, isSpace c → (c == a) = false := by
  rintro c hc
  rw [beq_eq_false_iff_ne]
  rintro rfl
  simp [h] at hc

theorem isNumeralChar_ne {a : Char} (h : isNumeralChar a = false) :
    ∀ c, isNumeralChar c → (c == a) = false := by
  rintro c hc
  rw [beq_eq_false_iff_ne]
  rintro rfl
  simp [h] at hc

theorem not_isNumeralChar_of_isSpace {c : Char} (h : isSpace c) : isNumeralChar c = false := by
  have hd := isDigit_of_isSpace h
  have hm := isSpace_ne (a := '-') (by decide) c h
  have hp := isSpace_ne (a := '.') (by decide) c h
  simp [isNumeralChar, hd, hm, hp]

theorem not_isSpace_of_isNumeralChar {c : Char} (h : isNumeralChar c) : isSpace c = false := by
  by_contra hs
  rw [not_isNumeralChar_of_isSpace (by simpa using hs)] at h
  simp at h

theorem deterministic_posRe : Deterministic posRe := by
  simp only [posRe, posReHead, char, gap, field, List.cons_append, List.nil_append, Deterministic,
    Refuses, reduceCtorEq, false_or, and_true, true_or]
  refine ⟨isSpace_ne (by decide), isSpace_ne (by decide),
    fun c => not_isNumeralChar_of_isSpace,
    ⟨fun c => not_isSpace_of_isNumeralChar, isNumeralChar_ne (by decide)⟩,
    isSpace_ne (by decide), isSpace_ne (by decide), fun c => not_isNumeralChar_of_isSpace,
    ⟨fun c => not_isSpace_of_isNumeralChar, isNumeralChar_ne (by decide)⟩,
    isSpace_ne (by decide), isSpace_ne (by decide), fun c => not_isNumeralChar_of_isSpace⟩

theorem stops_posRe {rest : List Char} :
    Stops posRe rest ↔ ∀ c ∈ rest.head?, isNumeralChar c = false :=
  stops_group

/-- Stripping a line first does not change what is found in it. -/
theorem search_strip (t : List Char) : search posRe (strip t) = search posRe t := by
  have hfront : search posRe (t.dropWhile isSpace) = search posRe t :=
    search_dropWhile (isSpace_ne (by decide)) t
  have hback : ∀ c ∈ (t.dropWhile isSpace).rtakeWhile isSpace, isNumeralChar c = false :=
    fun c hc => not_isNumeralChar_of_isSpace (List.mem_rtakeWhile_imp hc)
  have happ := search_append deterministic_posRe hback ((t.dropWhile isSpace).rdropWhile isSpace)
  rw [List.rdropWhile_append_rtakeWhile] at happ
  exact happ.symm.trans hfront

/-- Every match of the pattern has three groups, so unpacking them never fails. -/
theorem posRe_groups {u : List Char} {gs : List (List Char)} (h : Reads posRe u gs) :
    ∃ gx gy gtheta, gs = [gx, gy, gtheta] := by
  have hlen : gs.length = 3 := h.length_groups
  match gs, hlen with
  | [gx, gy, gtheta], _ => exact ⟨gx, gy, gtheta, rfl⟩

/-! ## The values -/

/-- The C library's `sin` and `cos` on finite doubles. -/
structure Libm where
  sin : ℚ → ℚ
  cos : ℚ → ℚ

/-- Exact at zero, which is all that a straight heading needs. -/
def straight : Libm := ⟨fun _ => 0, fun _ => 1⟩

/-- `math.sin` and `math.cos` raise on an infinite argument and keep NaN. -/
def mathCall (f : ℚ → ℚ) : Double → Except PyError Double
  | .finite q => .ok (.finite (f q))
  | .infinite _ => .error .valueError
  | .nan => .ok .nan

def yawToQuaternion (libm : Libm) (yaw : Double) : Except PyError Quaternion := do
  let z ← mathCall libm.sin yaw.half
  let w ← mathCall libm.cos yaw.half
  return { x := .finite 0, y := .finite 0, z, w }

/-- `float` on one group of `pos_re`. -/
def pyFloat (s : List Char) : Except PyError Double :=
  match float s with
  | some d => .ok d
  | none => .error .valueError

/-- `x, y, theta = map(float, match.groups())` -/
def floats : List (List Char) → Except PyError (Double × Double × Double)
  | [gx, gy, gtheta] => do
    let x ← pyFloat gx
    let y ← pyFloat gy
    let theta ← pyFloat gtheta
    return (x, y, theta)
  | _ => .error .valueError

/-- `line` of `read_serial`. -/
def lineText (raw : List UInt8) : List Char := strip (Utf8.decodeIgnore raw)

structure Pose where
  x : Double
  y : Double
  orientation : Quaternion
  deriving DecidableEq

/-- The pose that three captured groups denote, or the exception that they raise. -/
def groupsPose (libm : Libm) (gs : List (List Char)) : Except PyError Pose := do
  let (x, y, theta) ← floats gs
  let orientation ← yawToQuaternion libm theta
  return { x, y, orientation }

/-- The pose that a raw line reports. -/
def poseOf (libm : Libm) (raw : List UInt8) : Option Pose :=
  (search posRe (Utf8.decodeIgnore raw)).bind fun gs => (groupsPose libm gs).toOption

theorem pyFloat_eq_ok_iff {s : List Char} {d : Double} :
    pyFloat s = .ok d ↔ ∃ n : Numeral, n.text = s ∧ d = .ofRat n.value := by
  rw [← float_eq_some_iff, pyFloat]
  cases float s <;> simp

/-- The only exception is ValueError. -/
def OnlyValueError {α : Type} (r : Except PyError α) : Prop := ∀ e, r = .error e → e = .valueError

theorem OnlyValueError.ok {α : Type} (a : α) : OnlyValueError (.ok a) := by
  rintro e ⟨⟩

theorem OnlyValueError.raise {α : Type} : OnlyValueError (.error .valueError : Except PyError α) := by
  rintro e ⟨⟩
  rfl

theorem OnlyValueError.bind {α β : Type} {r : Except PyError α} {k : α → Except PyError β}
    (hr : OnlyValueError r) (hk : ∀ a, OnlyValueError (k a)) : OnlyValueError (r >>= k) := by
  cases r with
  | ok a => exact hk a
  | error e => rw [hr e rfl]; exact .raise

theorem onlyValueError_pyFloat (s : List Char) : OnlyValueError (pyFloat s) := by
  unfold pyFloat
  split
  · exact .ok _
  · exact .raise

theorem onlyValueError_floats (gs : List (List Char)) : OnlyValueError (floats gs) := by
  unfold floats
  split
  · exact (onlyValueError_pyFloat _).bind fun _ => (onlyValueError_pyFloat _).bind fun _ =>
      (onlyValueError_pyFloat _).bind fun _ => .ok _
  · exact .raise

theorem onlyValueError_mathCall (f : ℚ → ℚ) (d : Double) : OnlyValueError (mathCall f d) := by
  cases d with
  | finite q => exact .ok _
  | infinite neg => exact .raise
  | nan => exact .ok _

theorem onlyValueError_yawToQuaternion (libm : Libm) (yaw : Double) :
    OnlyValueError (yawToQuaternion libm yaw) :=
  (onlyValueError_mathCall _ _).bind fun _ => (onlyValueError_mathCall _ _).bind fun _ => .ok _

end TitanRobot.Bridge
