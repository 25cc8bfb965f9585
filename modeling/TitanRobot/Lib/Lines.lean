import Mathlib

/-!
# Terminated lines of a stream

`lines` cuts a stream after every terminator; what follows the last terminator is not a
line yet and is left to `pending`. Both carry the text already read since the last
terminator, so they compose over concatenation.
-/
namespace TitanRobot.Lines

variable {α : Type} [DecidableEq α] (nl : α)

def lines (acc : List α) : List α → List (List α)
  | [] => []
  | c :: s => if c = nl then (acc ++ [c]) :: lines [] s else lines (acc ++ [c]) s

def pending (acc : List α) : List α → List α
  | [] => acc
  | c :: s => if c = nl then pending [] s else pending (acc ++ [c]) s

theorem lines_append (acc s t : List α) :
    lines nl acc (s ++ t) = lines nl acc s ++ lines nl (pending nl acc s) t := by
  induction s generalizing acc with
  | nil => rfl
  | cons c s ih =>
    simp only [List.cons_append, lines, pending]
    split_ifs <;> simp [ih]

theorem pending_append (acc s t : List α) :
    pending nl acc (s ++ t) = pending nl (pending nl acc s) t := by
  induction s generalizing acc with
  | nil => rfl
  | cons c s ih =>
    simp only [List.cons_append, pending]
    split_ifs <;> rw [ih]

variable {nl}

/-- A text without a terminator stays pending. -/
theorem lines_of_not_mem {s : List α} (h : nl ∉ s) (acc : List α) :
    lines nl acc s = [] ∧ pending nl acc s = acc ++ s := by
  induction s generalizing acc with
  | nil => simp [lines, pending]
  | cons c s ih =>
    obtain ⟨hc, hs⟩ := not_or.mp (mt List.mem_cons.mpr h)
    simpa [lines, pending, Ne.symm hc] using ih hs (acc ++ [c])

/-- A terminated text completes what is pending to one line. -/
theorem lines_of_terminated {s : List α} (h : nl ∉ s) (acc : List α) :
    lines nl acc (s ++ [nl]) = [acc ++ s ++ [nl]] ∧ pending nl acc (s ++ [nl]) = [] := by
  obtain ⟨hl, hp⟩ := lines_of_not_mem h acc
  rw [lines_append, pending_append, hl, hp]
  simp [lines, pending]

/-- Texts without the terminator are got back from the stream of their lines. -/
theorem splitOn_terminated {ls : List (List α)} (h : ∀ l ∈ ls, nl ∉ l) :
    (ls.flatMap (· ++ [nl])).splitOn nl = ls ++ [[]] := by
  induction ls with
  | nil => simp
  | cons l ls ih =>
    have htail := ih fun m hm => h m (List.mem_cons_of_mem l hm)
    rw [List.flatMap_cons, List.append_assoc, List.singleton_append,
      List.splitOn_append_cons_self_of_not_mem (h l List.mem_cons_self), htail]
    rfl

/-- What has been read of a stream is, line by line, what has been read of each line. -/
theorem prefix_flatten {β : Type} {l : List β} {L : List (List β)} (h : l <+: L.flatten) :
    ∃ L', l = L'.flatten ∧ List.Forall₂ (· <+: ·) L' L := by
  induction L generalizing l with
  | nil => exact ⟨[], List.prefix_nil.mp h, .nil⟩
  | cons x L ih =>
    rw [List.flatten_cons] at h
    rcases List.prefix_or_prefix_of_prefix h (List.prefix_append x L.flatten) with hx | hx
    · obtain ⟨L', hnil, hL⟩ := ih (l := []) List.nil_prefix
      exact ⟨l :: L', by simp [← hnil], .cons hx hL⟩
    · obtain ⟨l', rfl⟩ := hx
      obtain ⟨L', rfl, hL⟩ := ih ((List.prefix_append_right_inj x).mp h)
      exact ⟨x :: L', rfl, .cons List.prefix_rfl hL⟩

end TitanRobot.Lines
