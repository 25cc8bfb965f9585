import Mathlib

/-!
# Lossy UTF-8 decoding

A byte sequence is read as a sequence of items: a decoded character, or `none` for a
maximal run of bytes that begins no character. `decodeIgnore` keeps the characters and
drops the rest. The reader is a machine that consumes one byte at a time; an ASCII byte
always stands for itself and brings the machine back between characters, so ASCII text among
the items comes from the same text in the bytes.
-/
namespace TitanRobot.Utf8

/-- What the next byte of an unfinished character must be. -/
inductive Expect where
  | tail | afterE0 | afterED | afterF0 | afterF4
  deriving DecidableEq, Repr

def Expect.admits : Expect → UInt8 → Bool
  | .tail, b => 0x80 ≤ b && b ≤ 0xBF
  | .afterE0, b => 0xA0 ≤ b && b ≤ 0xBF
  | .afterED, b => 0x80 ≤ b && b ≤ 0x9F
  | .afterF0, b => 0x90 ≤ b && b ≤ 0xBF
  | .afterF4, b => 0x80 ≤ b && b ≤ 0x8F

/-- Between characters, or inside one: the next byte expected, how many follow it, and
the value read so far. -/
inductive State where
  | start
  | inside (next : Expect) (more acc : Nat)

def first (b : UInt8) : State × List (Option Char) :=
  if b < 0x80 then (.start, [some (Char.ofNat b.toNat)])
  else if 0xC2 ≤ b ∧ b ≤ 0xDF then (.inside .tail 0 (b.toNat - 0xC0), [])
  else if b = 0xE0 then (.inside .afterE0 1 0, [])
  else if b = 0xED then (.inside .afterED 1 0xD, [])
  else if (0xE1 ≤ b ∧ b ≤ 0xEC) ∨ (0xEE ≤ b ∧ b ≤ 0xEF) then
    (.inside .tail 1 (b.toNat - 0xE0), [])
  else if b = 0xF0 then (.inside .afterF0 2 0, [])
  else if 0xF1 ≤ b ∧ b ≤ 0xF3 then (.inside .tail 2 (b.toNat - 0xF0), [])
  else if b = 0xF4 then (.inside .afterF4 2 4, [])
  else (.start, [none])

/-- A byte that cannot continue the unfinished character ends it as undecodable and is
read again from between characters. -/
def step : State → UInt8 → State × List (Option Char)
  | .start, b => first b
  | .inside next more acc, b =>
    if next.admits b then
      match more with
      | 0 => (.start, [some (Char.ofNat (64 * acc + (b.toNat - 0x80)))])
      | more + 1 => (.inside .tail more (64 * acc + (b.toNat - 0x80)), [])
    else ((first b).1, none :: (first b).2)

def scanFrom : State → List UInt8 → List (Option Char)
  | .start, [] => []
  | .inside .., [] => [none]
  | q, b :: bs => (step q b).2 ++ scanFrom (step q b).1 bs

def scan (bs : List UInt8) : List (Option Char) := scanFrom .start bs

def decodeIgnore (bs : List UInt8) : List Char := (scan bs).reduceOption

theorem scanFrom_cons (q : State) (b : UInt8) (bs : List UInt8) :
    scanFrom q (b :: bs) = (step q b).2 ++ scanFrom (step q b).1 bs := by
  cases q <;> rfl

theorem Expect.ge_of_admits {e : Expect} {b : UInt8} (h : e.admits b) : 0x80 ≤ b := by
  cases e <;> simp only [admits, Bool.and_eq_true, decide_eq_true_eq] at h <;>
    simp only [UInt8.le_iff_toNat_le] at * <;>
    simp at h ⊢ <;> omega

theorem toNat_ofNat_of_valid {n : Nat} (h : n.isValidChar) : (Char.ofNat n).toNat = n := by
  simp [Char.ofNat, h, Char.ofNatAux, Char.toNat]

/-! ## ASCII bytes -/

theorem ascii_toNat {a : UInt8} (ha : a < 0x80) : (Char.ofNat a.toNat).toNat = a.toNat := by
  have hlt : a.toNat < 0x80 := UInt8.lt_iff_toNat_lt.mp ha
  exact toNat_ofNat_of_valid (Or.inl (by omega))

theorem first_ascii {a : UInt8} (ha : a < 0x80) :
    first a = (.start, [some (Char.ofNat a.toNat)]) := by
  simp [first, ha]

/-- An ASCII byte closes whatever was open and stands for itself. -/
theorem step_ascii (q : State) {a : UInt8} (ha : a < 0x80) :
    step q a = (.start, scanFrom q [] ++ [some (Char.ofNat a.toNat)]) := by
  cases q with
  | start => simpa [step, scanFrom] using first_ascii ha
  | inside next more acc =>
    have hn : next.admits a = false := by
      by_contra h
      exact absurd (Expect.ge_of_admits (by simpa using h)) (by simpa using ha)
    simp [step, hn, first_ascii ha, scanFrom]

theorem scanFrom_eq_nil {q : State} {bs : List UInt8} (h : scanFrom q bs = []) :
    q = .start ∧ bs = [] := by
  induction bs generalizing q with
  | nil => cases q <;> simp_all [scanFrom]
  | cons b bs ih =>
    rw [scanFrom_cons, List.append_eq_nil_iff] at h
    obtain ⟨hout, hrest⟩ := h
    have hq := (ih hrest).1
    exfalso
    cases q with
    | start => simp only [step, first] at hout hq; split_ifs at hout hq
    | inside next more acc =>
      simp only [step] at hout hq
      split at hout
      · cases more <;> simp_all
      · simp at hout

/-! ## Cuts -/

/-- What was read before a cut does not depend on what follows it. -/
theorem scanFrom_append (q : State) (a : List UInt8) :
    ∃ out r, ∀ b, scanFrom q (a ++ b) = out ++ scanFrom r b := by
  induction a generalizing q with
  | nil => exact ⟨[], q, fun _ => rfl⟩
  | cons x a ih =>
    obtain ⟨out, r, h⟩ := ih (step q x).1
    exact ⟨(step q x).2 ++ out, r, fun b => by simp [scanFrom_cons, h]⟩

theorem first_of_admits {e : Expect} {b : UInt8} (h : e.admits b) : first b = (.start, [none]) := by
  have hlo := Expect.ge_of_admits h
  have hhi : b ≤ 0xBF := by
    cases e <;> simp only [Expect.admits, Bool.and_eq_true, decide_eq_true_eq] at h <;>
      simp only [UInt8.le_iff_toNat_le] at * <;>
      simp at h ⊢ <;> omega
  simp only [UInt8.le_iff_toNat_le] at hlo hhi
  unfold first
  split_ifs <;>
    first
    | rfl
    | (simp only [UInt8.le_iff_toNat_le, UInt8.lt_iff_toNat_lt, ← UInt8.toNat_inj] at *
       simp at *
       omega)

/-- Reading on from inside a character and reading afresh differ by one character at most. -/
theorem reduceOption_scanFrom (q : State) (b : List UInt8) :
    ∃ c, (scanFrom q b).reduceOption = c ++ (scan b).reduceOption := by
  induction b generalizing q with
  | nil => cases q <;> exact ⟨[], rfl⟩
  | cons x b ih =>
    cases q with
    | start => exact ⟨[], rfl⟩
    | inside next more acc =>
      by_cases hx : next.admits x
      · have hscan : scan (x :: b) = none :: scan b := by
          simp [scan, scanFrom_cons, step, first_of_admits hx]
        cases more with
        | zero =>
          refine ⟨[Char.ofNat (64 * acc + (x.toNat - 0x80))], ?_⟩
          rw [hscan]
          simp [scanFrom_cons, step, hx, scan, List.reduceOption_cons_of_none,
            List.reduceOption_cons_of_some]
        | succ more =>
          obtain ⟨c, hc⟩ := ih (.inside .tail more (64 * acc + (x.toNat - 0x80)))
          refine ⟨c, ?_⟩
          rw [hscan]
          simp [scanFrom_cons, step, hx, hc, List.reduceOption_cons_of_none]
      · refine ⟨[], ?_⟩
        simp [scanFrom_cons, step, hx, scan, List.reduceOption_cons_of_none]

/-- A cut loses at most the character that it divides. -/
theorem decodeIgnore_append (a b : List UInt8) :
    ∃ c, decodeIgnore (a ++ b) = decodeIgnore a ++ c ++ decodeIgnore b := by
  obtain ⟨out, r, h⟩ := scanFrom_append .start a
  have ha : decodeIgnore a = out.reduceOption := by
    have h0 := h []
    rw [List.append_nil] at h0
    cases r <;> simp [decodeIgnore, scan, h0, scanFrom, List.reduceOption_append]
  obtain ⟨c, hc⟩ := reduceOption_scanFrom r b
  refine ⟨c, ?_⟩
  rw [ha, List.append_assoc, ← show (scan b).reduceOption = decodeIgnore b from rfl, ← hc]
  simp [decodeIgnore, scan, h, List.reduceOption_append]

/-! ## Multi-byte characters are never ASCII -/

/-- Every character that `more` further bytes can complete is valid and not ASCII. -/
def Good (more acc : Nat) : Prop :=
  ∀ v < 64 ^ more, (acc * 64 ^ more + v).isValidChar ∧ 0x80 ≤ acc * 64 ^ more + v

def State.Sound : State → Prop
  | .start => True
  | .inside next more acc => ∀ b, next.admits b → Good more (64 * acc + (b.toNat - 0x80))

theorem Expect.tail_lt {b : UInt8} (h : Expect.tail.admits b) : b.toNat - 0x80 < 64 := by
  simp only [admits, Bool.and_eq_true, decide_eq_true_eq, UInt8.le_iff_toNat_le] at h
  have := h.2
  simp at this
  omega

theorem Good.sound_inside {more acc : Nat} (h : Good (more + 1) acc) :
    (State.inside .tail more acc).Sound := by
  intro b hb v hv
  have ht := Expect.tail_lt hb
  have hlt : (b.toNat - 0x80) * 64 ^ more + v < 64 ^ (more + 1) := by
    calc (b.toNat - 0x80) * 64 ^ more + v
      _ < (b.toNat - 0x80) * 64 ^ more + 64 ^ more := by omega
      _ = (b.toNat - 0x80 + 1) * 64 ^ more := by ring
      _ ≤ 64 * 64 ^ more := Nat.mul_le_mul_right _ ht
      _ = 64 ^ (more + 1) := by ring
  have he : (64 * acc + (b.toNat - 0x80)) * 64 ^ more + v =
      acc * 64 ^ (more + 1) + ((b.toNat - 0x80) * 64 ^ more + v) := by ring
  rw [he]
  exact h _ hlt

theorem first_sound (b : UInt8) : (first b).1.Sound := by
  unfold first
  split_ifs <;>
    first
    | trivial
    | (intro c hc v hv
       simp only [Expect.admits, Bool.and_eq_true, decide_eq_true_eq,
         UInt8.le_iff_toNat_le] at *
       simp at *
       unfold Nat.isValidChar
       omega)

theorem step_sound {q : State} (hq : q.Sound) (b : UInt8) : (step q b).1.Sound := by
  cases q with
  | start => exact first_sound b
  | inside next more acc =>
    simp only [step]
    split
    · rename_i hb
      cases more with
      | zero => trivial
      | succ more => exact (hq b hb).sound_inside
    · exact first_sound b

/-- A character emitted at a byte outside ASCII is outside ASCII. -/
theorem step_not_ascii {q : State} (hq : q.Sound) {b : UInt8} (hb : ¬ b < 0x80) {c : Char}
    (hc : some c ∈ (step q b).2) : 0x80 ≤ c.toNat := by
  have hfirst : some c ∉ (first b).2 := by
    unfold first
    split_ifs <;> simp
  cases q with
  | start => exact absurd hc hfirst
  | inside next more acc =>
    simp only [step] at hc
    split at hc
    · rename_i hadmits
      cases more with
      | zero =>
        have hgood := hq b hadmits 0 (by simp)
        simp only [pow_zero, mul_one, add_zero] at hgood
        simp only [List.mem_singleton, Option.some.injEq] at hc
        rw [hc, toNat_ofNat_of_valid hgood.1]
        exact hgood.2
      | succ more => simp at hc
    · simp only [List.mem_cons, reduceCtorEq, false_or] at hc
      exact absurd hc hfirst

theorem append_eq_append_cons {α : Type*} {out rest l r : List α} {x : α}
    (h : out ++ rest = l ++ x :: r) (hx : x ∉ out) :
    ∃ l', l = out ++ l' ∧ rest = l' ++ x :: r := by
  rcases List.append_eq_append_iff.mp h with ⟨l', hl, hr⟩ | ⟨l', hl, hr⟩
  · exact ⟨l', hl, hr⟩
  · cases l' with
    | nil => exact ⟨[], by simpa using hl.symm, by simpa using hr.symm⟩
    | cons y l' =>
      obtain rfl : x = y := by simpa using congrArg List.head? hr
      exact absurd (by simp [hl]) hx

/-- An ASCII character among the items comes from the same byte of the input. -/
theorem scanFrom_split_ascii {q : State} (hq : q.Sound) {bs : List UInt8}
    {l r : List (Option Char)} {c : Char} (hc : c.toNat < 0x80)
    (h : scanFrom q bs = l ++ some c :: r) :
    ∃ p a s, bs = p ++ a :: s ∧ a.toNat = c.toNat ∧ scanFrom q p = l ∧ scan s = r := by
  have hpending : some c ∉ scanFrom q [] := by cases q <;> simp [scanFrom]
  induction bs generalizing q l with
  | nil => exact absurd (by simp [h]) hpending
  | cons b bs ih =>
    rw [scanFrom_cons] at h
    by_cases hb : b < 0x80
    · rw [step_ascii q hb, List.append_assoc] at h
      obtain ⟨l', rfl, htail⟩ := append_eq_append_cons h hpending
      cases l' with
      | nil =>
        obtain ⟨hhead, hrest⟩ := List.cons_eq_cons.mp htail
        refine ⟨[], b, bs, rfl, ?_, by simp, hrest⟩
        rw [← Option.some.inj hhead, ascii_toNat hb]
      | cons y l' =>
        obtain ⟨rfl, hrest⟩ := List.cons_eq_cons.mp htail
        obtain ⟨p, a, s, rfl, ha, hp, hs⟩ := ih (q := .start) trivial hrest (by simp [scanFrom])
        exact ⟨b :: p, a, s, rfl, ha, by simp [scanFrom_cons, step_ascii q hb, hp], hs⟩
    · have hout : some c ∉ (step q b).2 := fun hmem =>
        absurd (step_not_ascii hq hb hmem) (by omega)
      obtain ⟨l', rfl, htail⟩ := append_eq_append_cons h hout
      obtain ⟨p, a, s, rfl, ha, hp, hs⟩ :=
        ih (step_sound hq b) htail (by cases (step q b).1 <;> simp [scanFrom])
      exact ⟨b :: p, a, s, rfl, ha, by simp [scanFrom_cons, hp], hs⟩

/-! ## ASCII words -/

/-- The bytes of an ASCII word. -/
def bytes (w : List Char) : List UInt8 := w.map fun c => UInt8.ofNat c.toNat

def IsAscii (w : List Char) : Prop := ∀ c ∈ w, c.toNat < 0x80

/-- An ASCII word is read back from its bytes. -/
theorem decodeIgnore_bytes {w : List Char} (hw : IsAscii w) : decodeIgnore (bytes w) = w := by
  have hscan : scan (bytes w) = w.map some := by
    induction w with
    | nil => rfl
    | cons c w ih =>
      have hc : c.toNat < 0x80 := hw c List.mem_cons_self
      have hbyte : (UInt8.ofNat c.toNat).toNat = c.toNat := by
        rw [UInt8.toNat_ofNat']
        omega
      have hlt : UInt8.ofNat c.toNat < 0x80 := by
        rw [UInt8.lt_iff_toNat_lt, hbyte]
        exact hc
      have htail : scan (bytes w) = w.map some := ih fun d hd => hw d (List.mem_cons_of_mem c hd)
      rw [scan, bytes, List.map_cons, scanFrom_cons, step_ascii _ hlt, hbyte, Char.ofNat_toNat,
        List.map_cons, ← htail]
      rfl
  simp [decodeIgnore, hscan, List.reduceOption]

/-- An ASCII word among the items is read from the same word of the input. -/
theorem scan_split_bytes {bs : List UInt8} {l r : List (Option Char)} {c : Char}
    {w : List Char} (hw : IsAscii (c :: w)) (h : scan bs = l ++ (c :: w).map some ++ r) :
    ∃ p s, bs = p ++ bytes (c :: w) ++ s ∧ scan p = l ∧ scan s = r := by
  induction w generalizing bs l c with
  | nil =>
    obtain ⟨p, a, s, rfl, ha, hp, hs⟩ :=
      scanFrom_split_ascii (q := .start) trivial (hw c (by simp)) (by simpa [scan] using h)
    exact ⟨p, s, by simp [bytes, ← ha], hp, hs⟩
  | cons d w ih =>
    obtain ⟨p, a, s, rfl, ha, hp, hs⟩ :=
      scanFrom_split_ascii (q := .start) trivial (hw c (by simp)) (by simpa [scan] using h)
    have htail : scan s = [] ++ (d :: w).map some ++ r := by simpa using hs
    obtain ⟨p', s', rfl, hp', hs'⟩ := ih (c := d) (fun x hx => hw x (by simp_all)) htail
    obtain ⟨-, rfl⟩ := scanFrom_eq_nil hp'
    exact ⟨p, s', by simp [bytes, ← ha], hp, hs'⟩

end TitanRobot.Utf8
