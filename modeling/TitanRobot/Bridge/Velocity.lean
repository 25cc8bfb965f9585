import TitanRobot.Bridge.Commands
import TitanRobot.Bridge.Report

/-!
# Velocity commands

A velocity command is a line of two numerals with a space between them. From the stream of the
commands the pairs are got back, one for each message, and each numeral is a nearest hundredth of
its component, in the grammar that the bridge reads itself.
-/
namespace TitanRobot.Bridge
open Text

def space : UInt8 := 32

/-- The two numerals of a line with a single space. -/
def readPair (line : List UInt8) : Option (Numeral × Numeral) :=
  match line.splitOn space with
  | [x, z] => do
    let x ← parseNumeral (Utf8.decodeIgnore x)
    let z ← parseNumeral (Utf8.decodeIgnore z)
    return (x, z)
  | _ => none

/-- The pairs of a stream of lines, of which the last one is terminated too. -/
def readPairs (stream : List UInt8) : Option (List (Numeral × Numeral)) :=
  if (stream.splitOn newline).getLast? = some [] then
    (stream.splitOn newline).dropLast.mapM readPair
  else none

/-- A message with finite components, written without a failure. -/
def velocity (msg : ℚ × ℚ) : Issue := ⟨.cmdVel ⟨.finite msg.1, .finite msg.2⟩, .sent⟩

/-- The numeral is a nearest hundredth of the number, one that the bridge can read. -/
structure Renders (q : ℚ) (n : Numeral) : Prop where
  grammar : ∀ c ∈ n.text, isNumeralChar c ∧ c.toNat < 128
  accepted : (float n.text).isSome
  hundredth : ∃ k : ℤ, n.value = k / 100
  nearest : ∀ k : ℤ, |n.value - q| ≤ |k / 100 - q|
  close : |n.value - q| ≤ 1 / 200
  sign : n.value = 0 ∨ 0 < n.value * q

/-- The numeral that a component is formatted as. -/
def rendered (q : ℚ) : Numeral :=
  Numeral.hundredths (decide (q < 0)) (roundHalfEven (100 * |q|)).toNat

/-! ## One component -/

/-- The text is one of the class of the bridge, in ASCII. -/
theorem isNumeralChar_hundredths {neg : Bool} {n : ℕ} {c : Char}
    (h : c ∈ (Numeral.hundredths neg n).text) : isNumeralChar c ∧ c.toNat < 128 := by
  have hdigit (m : ℕ) (hc : c ∈ Nat.toDigits 10 m) : isNumeralChar c ∧ c.toNat < 128 := by
    refine ⟨by simp [isNumeralChar, isDigit_of_mem_toDigits hc], ?_⟩
    exact (printable_of_isFormatChar (isFormatChar_toDigits hc)).2
  simp only [Numeral.text, Numeral.hundredths, List.mem_append, List.mem_cons] at h
  rcases h with (h | h) | rfl | h | h
  · obtain rfl : c = '-' := by split_ifs at h <;> simp_all
    decide
  · exact hdigit _ h
  · decide
  · exact hdigit _ h
  · exact hdigit _ h

/-- The value is the rounded magnitude with the sign of the number. -/
theorem rendered_value (q : ℚ) :
    (rendered q).value = (if q < 0 then -1 else 1) * roundHalfEven (100 * |q|) / 100 := by
  have hnonneg := roundHalfEven_nonneg (show 0 ≤ 100 * |q| by positivity)
  have hcast : ((roundHalfEven (100 * |q|)).toNat : ℚ) = roundHalfEven (100 * |q|) := by
    exact_mod_cast Int.toNat_of_nonneg hnonneg
  rw [rendered, Numeral.hundredths_value, hcast]
  simp

theorem abs_scaled_sub {s : ℚ} (hs : |s| = 1) (r m : ℚ) :
    |s * r / 100 - s * m| = |r - 100 * m| / 100 := by
  have hfactor : s * r / 100 - s * m = s * ((r - 100 * m) / 100) := by ring
  rw [hfactor, abs_mul, hs, one_mul, abs_div, abs_of_pos (show (0 : ℚ) < 100 by norm_num)]

theorem renders_rendered (q : ℚ) : Renders q (rendered q) := by
  -- the sign is an integer, so that it takes hundredths to hundredths
  obtain ⟨s, hs, hsq, hq, hval⟩ : ∃ s : ℤ, |(s : ℚ)| = 1 ∧ (s : ℚ) * s = 1 ∧ q = s * |q| ∧
      (rendered q).value = s * roundHalfEven (100 * |q|) / 100 := by
    by_cases hneg : q < 0
    · exact ⟨-1, by norm_num, by norm_num, by simp [abs_of_neg hneg],
        by simp [rendered_value, hneg]⟩
    · exact ⟨1, by norm_num, by norm_num, by simp [abs_of_nonneg (not_lt.mp hneg)],
        by simp [rendered_value, hneg]⟩
  have hdist : |(rendered q).value - q| = |(roundHalfEven (100 * |q|) - 100 * |q| : ℚ)| / 100 := by
    rw [← abs_scaled_sub hs, ← hval, ← hq]
  refine ⟨fun c => isNumeralChar_hundredths, ?_, ?_, ?_, ?_, ?_⟩
  · exact Option.isSome_iff_exists.mpr ⟨_, float_eq_some_iff.mpr ⟨rendered q, rfl, rfl⟩⟩
  · exact ⟨s * roundHalfEven (100 * |q|), by rw [hval]; push_cast; rfl⟩
  · intro k
    have hk : |(k / 100 : ℚ) - q| = |(((s * k : ℤ) : ℚ) - 100 * |q|)| / 100 := by
      rw [← abs_scaled_sub hs, ← hq]
      push_cast
      rw [← mul_assoc, hsq, one_mul]
    rw [hdist, hk]
    exact div_le_div_of_nonneg_right (roundHalfEven_nearest _ _) (by norm_num)
  · rw [hdist]
    have hclose := roundHalfEven_close (100 * |q|)
    linarith
  · have hnonneg := roundHalfEven_nonneg (show 0 ≤ 100 * |q| by positivity)
    rcases hnonneg.eq_or_lt with hzero | hpos
    · exact Or.inl (by rw [hval, ← hzero]; simp)
    · have hround : (0 : ℚ) < roundHalfEven (100 * |q|) := by exact_mod_cast hpos
      have hne : q ≠ 0 := by
        rintro rfl
        have hclose := (abs_le.mp (roundHalfEven_close (100 * |0|))).2
        have hone : (1 : ℚ) ≤ roundHalfEven (100 * |0|) := by exact_mod_cast hpos
        norm_num at hclose hone
        linarith
      refine Or.inr ?_
      calc (0 : ℚ)
        _ < roundHalfEven (100 * |q|) * |q| / 100 := by positivity
        _ = (rendered q).value * (s * |q|) := by
          rw [hval]
          linear_combination (-(roundHalfEven (100 * |q|) : ℚ) * |q| / 100) * hsq
        _ = (rendered q).value * q := by rw [← hq]

/-- A negative zero, which is formatted with its sign, is rendered as well. -/
theorem renders_negative_zero : Renders 0 (Numeral.hundredths true 0) := by
  have hval : (Numeral.hundredths true 0).value = 0 := by simp [Numeral.hundredths_value]
  have haccepted := float_eq_some_iff.mpr ⟨Numeral.hundredths true 0, rfl, rfl⟩
  exact ⟨fun c => isNumeralChar_hundredths, Option.isSome_iff_exists.mpr ⟨_, haccepted⟩,
    ⟨0, by simp [hval]⟩, fun k => by simp [hval], by norm_num [hval], Or.inl hval⟩

/-! ## The stream -/

/-- A line is read back as the two numerals it was formatted from. -/
theorem readPair_body (msg : ℚ × ℚ) :
    readPair (Utf8.bytes (format2f (.finite msg.1) ++ ' ' :: format2f (.finite msg.2))) =
      some (rendered msg.1, rendered msg.2) := by
  have hspace (q : ℚ) : space ∉ Utf8.bytes (rendered q).text := by
    apply not_mem_bytes
    intro c hc
    obtain ⟨hclass, hascii⟩ := isNumeralChar_hundredths hc
    refine ⟨hascii, fun heq => ?_⟩
    obtain rfl : c = ' ' := Char.toNat_inj.mp heq
    exact absurd hclass (by decide)
  have hread (q : ℚ) :
      parseNumeral (Utf8.decodeIgnore (Utf8.bytes (rendered q).text)) = some (rendered q) := by
    have hascii : Utf8.IsAscii (rendered q).text := fun c hc => (isNumeralChar_hundredths hc).2
    rw [Utf8.decodeIgnore_bytes hascii]
    exact parseNumeral_eq_some_iff.mpr rfl
  have hline : Utf8.bytes (format2f (.finite msg.1) ++ ' ' :: format2f (.finite msg.2)) =
      Utf8.bytes (rendered msg.1).text ++ space :: Utf8.bytes (rendered msg.2).text := by
    simp [Utf8.bytes, format2f_finite, rendered, space]
  rw [readPair, hline, List.splitOn_append_cons_self_of_not_mem (hspace msg.1),
    List.splitOn_eq_singleton (hspace msg.2)]
  simp [hread]

theorem readPairs_velocities (msgs : List (ℚ × ℚ)) :
    readPairs (msgs.flatMap fun msg => (velocity msg).transmitted) =
      some (msgs.map fun msg => (rendered msg.1, rendered msg.2)) := by
  have hlines : (msgs.flatMap fun msg => (velocity msg).transmitted) =
      (msgs.map fun msg => Utf8.bytes
        (format2f (.finite msg.1) ++ ' ' :: format2f (.finite msg.2))).flatMap (· ++ [newline]) := by
    rw [List.flatMap_map]
    simp [velocity, Issue.transmitted, WriteOutcome.sends, Command.bytes, cmdText, Utf8.bytes,
      newline]
  have hbodies : ∀ l ∈ msgs.map fun msg => Utf8.bytes
      (format2f (.finite msg.1) ++ ' ' :: format2f (.finite msg.2)), newline ∉ l := by
    intro l hl
    obtain ⟨msg, -, rfl⟩ := List.mem_map.mp hl
    exact newline_not_mem_cmdBody ⟨.finite msg.1, .finite msg.2⟩
  rw [readPairs, hlines, Lines.splitOn_terminated hbodies, List.getLast?_concat, if_pos rfl,
    List.dropLast_concat]
  clear hlines hbodies
  induction msgs with
  | nil => rfl
  | cons msg msgs ih => simp [readPair_body, ih]

/-- Velocity commands are got back from what was written, one pair for each message in order, and
each numeral renders its component. -/
theorem velocities_roundtrip (msgs : List (ℚ × ℚ)) (n : SerialBridgeNode) (h : Handle)
    (hser : n.ser = some h) (hopen : h.isOpen = true) :
    ∃ written pairs, (issueAll (msgs.map velocity) n).ser =
        some { h with sent := h.sent ++ written } ∧
      readPairs written = some pairs ∧
      List.Forall₂ (fun msg pair => Renders msg.1 pair.1 ∧ Renders msg.2 pair.2) msgs pairs := by
  refine ⟨_, _, ?_, readPairs_velocities msgs, ?_⟩
  · rw [issueAll_ser _ hser hopen, List.flatMap_map]
  · rw [List.forall₂_map_right_iff, List.forall₂_same]
    exact fun msg _ => ⟨renders_rendered msg.1, renders_rendered msg.2⟩

/-- A command with a component below half a hundredth, and one with a tie. -/
theorem slow_roundtrip :
    ∃ written pairs, (issueAll ([(-1 / 1000, 1999 / 200)].map velocity)
        { serialPort := "/dev/esp32", baudRate := 115200, ser := some ⟨0, true, true, true, []⟩ }).ser =
        some { (⟨0, true, true, true, []⟩ : Handle) with sent := [] ++ written } ∧
      readPairs written = some pairs ∧
      List.Forall₂ (fun msg pair => Renders msg.1 pair.1 ∧ Renders msg.2 pair.2)
        [(-1 / 1000, 1999 / 200)] pairs :=
  velocities_roundtrip _ _ _ rfl rfl

end TitanRobot.Bridge
