import TitanRobot.Bridge.State
import TitanRobot.Lib.Lines
import TitanRobot.Lib.Run
import TitanRobot.Lib.Text
import TitanRobot.Lib.Utf8

/-!
# Commands to the device

`cmdVelCallback` and `sendRestart` with writes that may raise after any prefix of their
bytes has been transmitted. Both log the failure and go on, so a fragment of a command
stays in the byte stream, in front of the next command.
-/
namespace TitanRobot.Bridge
open Effect Text

structure Twist where
  linearX : Double
  angularZ : Double
  deriving DecidableEq

/-- How `write` and `flush` end: a raise may come after some bytes were transmitted. -/
inductive WriteOutcome where
  | sent
  | raised (transmitted : ℕ)
  deriving DecidableEq

def WriteOutcome.sends : WriteOutcome → List UInt8 → List UInt8
  | .sent, bs => bs
  | .raised k, bs => bs.take k

/-- `self.ser.write(...)` and `self.ser.flush()`. -/
def serialWrite (bs : List UInt8) (w : WriteOutcome) : Py Unit := do
  setSer fun h => { h with sent := h.sent ++ w.sends bs }
  match w with
  | .sent => pure ()
  | .raised _ => throw .serialException

def cmdText (msg : Twist) : List Char :=
  format2f msg.linearX ++ ' ' :: format2f msg.angularZ ++ ['\n']

def restartText : List Char := ['R', 'E', 'S', 'T', 'A', 'R', 'T', '\n']

def cmdVelCallback (msg : Twist) (w : WriteOutcome) : Py Unit := do
  let n ← get
  if n.portOpen then
    tryCatch (serialWrite (Utf8.bytes (cmdText msg)) w) fun _ => pure ()
  else pure ()

def sendRestart (w : WriteOutcome) : Py Unit := do
  let n ← get
  if n.portOpen then
    tryCatch (serialWrite (Utf8.bytes restartText) w) fun _ => pure ()
  else pure ()

inductive Command where
  | cmdVel (msg : Twist)
  | restart
  deriving DecidableEq

def Command.bytes : Command → List UInt8
  | .cmdVel msg => Utf8.bytes (cmdText msg)
  | .restart => Utf8.bytes restartText

/-- A command as issued, with the outcome of its write. -/
structure Issue where
  command : Command
  outcome : WriteOutcome
  deriving DecidableEq

def Issue.perform (i : Issue) : Py Unit :=
  match i.command with
  | .cmdVel msg => cmdVelCallback msg i.outcome
  | .restart => sendRestart i.outcome

def issueAll (is : List Issue) (n : SerialBridgeNode) : SerialBridgeNode :=
  Run.run (fun i n => (exec (Issue.perform i) n).2) is n

def Issue.transmitted (i : Issue) : List UInt8 := i.outcome.sends i.command.bytes

/-! ## The transmitted stream -/

theorem exec_serialWrite_caught (bs : List UInt8) (w : WriteOutcome) (n : SerialBridgeNode) :
    exec (tryCatch (serialWrite bs w) fun _ => pure ()) n =
      (.ok (), { n with ser := n.ser.map fun h => { h with sent := h.sent ++ w.sends bs } }) := by
  cases w <;> simp [exec_tryCatch, exec_bind, serialWrite]

theorem exec_issue (i : Issue) {n : SerialBridgeNode} (hn : n.portOpen = true) :
    exec (Issue.perform i) n =
      (.ok (), { n with ser := n.ser.map fun h => { h with sent := h.sent ++ i.transmitted } }) := by
  obtain ⟨command, w⟩ := i
  cases command <;>
    simp [Issue.perform, cmdVelCallback, sendRestart, exec_bind, hn, exec_serialWrite_caught,
      Issue.transmitted, Command.bytes]

theorem exec_issue_closed (i : Issue) {n : SerialBridgeNode} (hn : n.portOpen = false) :
    exec (Issue.perform i) n = (.ok (), n) := by
  obtain ⟨command, w⟩ := i
  cases command <;> simp [Issue.perform, cmdVelCallback, sendRestart, exec_bind, hn]

theorem portOpen_map_sent (n : SerialBridgeNode) (f : Handle → List UInt8) :
    SerialBridgeNode.portOpen { n with ser := n.ser.map fun h => { h with sent := f h } } =
      n.portOpen := by
  cases h : n.ser <;> simp [SerialBridgeNode.portOpen, h]

theorem issueAll_ser (is : List Issue) {n : SerialBridgeNode} {h : Handle}
    (hser : n.ser = some h) (hopen : h.isOpen = true) :
    (issueAll is n).ser = some { h with sent := h.sent ++ is.flatMap Issue.transmitted } := by
  induction is generalizing n h with
  | nil => simpa [issueAll] using hser
  | cons i is ih =>
    have hn : n.portOpen = true := by simp [SerialBridgeNode.portOpen, hser, hopen]
    have hrest := ih (n := (exec (Issue.perform i) n).2)
      (h := { h with sent := h.sent ++ i.transmitted }) (by simp [exec_issue i hn, hser]) hopen
    simpa [issueAll] using hrest

/-! ## Command texts -/

def newline : UInt8 := 10

theorem printable_of_isFormatChar {c : Char} (h : isFormatChar c) :
    32 ≤ c.toNat ∧ c.toNat < 128 := by
  simp only [isFormatChar, Bool.or_eq_true, Char.isDigit, Bool.and_eq_true, decide_eq_true_eq,
    List.contains_eq_mem, List.mem_cons, List.not_mem_nil, or_false] at h
  rcases h with ⟨hlo, hhi⟩ | rfl | rfl | rfl | rfl | rfl | rfl <;> try decide
  have hlo' : 48 ≤ c.toNat := UInt32.le_iff_toNat_le.mp hlo
  have hhi' : c.toNat ≤ 57 := UInt32.le_iff_toNat_le.mp hhi
  omega

/-- A byte that stands for none of the characters is not among the bytes. -/
theorem not_mem_bytes {w : List Char} {b : UInt8}
    (h : ∀ c ∈ w, c.toNat < 128 ∧ c.toNat ≠ b.toNat) : b ∉ Utf8.bytes w := by
  intro hmem
  obtain ⟨c, hc, heq⟩ := List.mem_map.mp hmem
  have hn := congrArg UInt8.toNat heq
  rw [UInt8.toNat_ofNat'] at hn
  have := h c hc
  omega

theorem newline_not_mem_cmdBody (msg : Twist) :
    newline ∉ Utf8.bytes (format2f msg.linearX ++ ' ' :: format2f msg.angularZ) := by
  apply not_mem_bytes
  intro c hc
  have hprintable : 32 ≤ c.toNat ∧ c.toNat < 128 := by
    simp only [List.mem_append, List.mem_cons] at hc
    rcases hc with hc | rfl | hc
    · exact printable_of_isFormatChar (isFormatChar_format2f _ c hc)
    · decide
    · exact printable_of_isFormatChar (isFormatChar_format2f _ c hc)
  have hten : newline.toNat = 10 := rfl
  omega

/-- Every command is one line. -/
theorem Command.bytes_eq (c : Command) :
    ∃ body, c.bytes = body ++ [newline] ∧ newline ∉ body := by
  cases c with
  | cmdVel msg =>
    refine ⟨_, ?_, newline_not_mem_cmdBody msg⟩
    simp [Command.bytes, cmdText, Utf8.bytes, newline]
  | restart => exact ⟨Utf8.bytes (restartText.dropLast), by decide, by decide⟩

/-! ## Framing -/

/-- The newline of the command was transmitted, and with it the whole command. -/
def Issue.Complete (i : Issue) : Prop := i.transmitted = i.command.bytes

/-- A fragment of the command was transmitted, without its newline. -/
def Issue.Partial (i : Issue) : Prop := i.transmitted ≠ [] ∧ i.transmitted ≠ i.command.bytes

instance (i : Issue) : Decidable i.Complete := inferInstanceAs (Decidable (_ = _))

theorem Issue.transmitted_prefix (i : Issue) : i.transmitted <+: i.command.bytes := by
  unfold transmitted
  cases i.outcome with
  | sent => exact List.prefix_rfl
  | raised k => exact List.take_prefix ..

/-- What is transmitted of a command that is not complete has no newline. -/
theorem Issue.newline_not_mem {i : Issue} (h : ¬ i.Complete) : newline ∉ i.transmitted := by
  obtain ⟨body, hbytes, hbody⟩ := i.command.bytes_eq
  have hpre := i.transmitted_prefix
  rw [hbytes, List.prefix_concat_iff] at hpre
  rcases hpre with heq | hpre
  · exact absurd (heq.trans hbytes.symm) h
  · exact fun hmem => hbody (hpre.subset hmem)

/-- The texts of the commands whose newline was transmitted. -/
def completeTexts (is : List Issue) : List (List UInt8) :=
  (is.filter (·.Complete)).map (·.command.bytes)

/-- Every newline-terminated line is exactly one issued command, in order. -/
def Framed (is : List Issue) (stream : List UInt8) : Prop :=
  Lines.lines newline [] stream = completeTexts is

theorem completeTexts_cons (i : Issue) (is : List Issue) :
    completeTexts (i :: is) =
      if i.Complete then i.command.bytes :: completeTexts is else completeTexts is := by
  by_cases hi : i.Complete <;> simp [completeTexts, hi]

/-- Commands after a pending fragment `p` stay framed exactly if no fragment, `p` included,
is followed by a complete command. -/
theorem lines_pending_iff (is : List Issue) (p : List UInt8) :
    Lines.lines newline p (is.flatMap Issue.transmitted) = completeTexts is ↔
      is.Pairwise (fun i j => i.Partial → ¬ j.Complete) ∧ (p ≠ [] → ∀ i ∈ is, ¬ i.Complete) := by
  induction is generalizing p with
  | nil => simp [completeTexts, Lines.lines]
  | cons i is ih =>
    rw [List.flatMap_cons, Lines.lines_append, List.pairwise_cons, completeTexts_cons]
    by_cases hi : i.Complete
    · obtain ⟨body, hbytes, hbody⟩ := i.command.bytes_eq
      have hsent : i.transmitted = body ++ [newline] := hi.trans hbytes
      have hlines := Lines.lines_of_terminated hbody p
      have hwhole : ¬ i.Partial := fun h => h.2 hi
      rw [hsent, hlines.1, hlines.2, if_pos hi, hbytes, List.singleton_append,
        List.cons_eq_cons, ih]
      constructor
      · rintro ⟨hp, hpair, -⟩
        have hnil : p = [] := by simpa using hp
        exact ⟨⟨fun _ _ h => absurd h hwhole, hpair⟩, fun h => absurd hnil h⟩
      · rintro ⟨⟨-, hpair⟩, hp⟩
        have hnil : p = [] := by
          by_contra hne
          exact hp hne i (by simp) hi
        exact ⟨by simp [hnil], hpair, by simp⟩
    · obtain ⟨hlines, hpending⟩ := Lines.lines_of_not_mem (Issue.newline_not_mem hi) p
      rw [hlines, hpending, List.nil_append, if_neg hi, ih]
      have hcut : i.Partial ↔ i.transmitted ≠ [] := ⟨fun h => h.1, fun h => ⟨h, hi⟩⟩
      constructor
      · rintro ⟨hpair, hp⟩
        refine ⟨⟨fun j hj h => hp (by simp [hcut.mp h]) j hj, hpair⟩, fun hne j hj => ?_⟩
        rcases List.mem_cons.mp hj with rfl | hj
        · exact hi
        · exact hp (by simp [hne]) j hj
      · rintro ⟨⟨hfirst, hpair⟩, hp⟩
        refine ⟨hpair, fun hne j hj => ?_⟩
        rcases not_and_or.mp (mt List.append_eq_nil_iff.mpr hne) with h | h
        · exact hp h j (List.mem_cons_of_mem _ hj)
        · exact hfirst j hj (hcut.mpr h)

/-- When the commands on a freshly opened port stay framed: no write that failed with part of
its command transmitted is followed by a command that is transmitted to its end. -/
theorem issueAll_framed_iff (is : List Issue) (n : SerialBridgeNode) (id : ℕ) (i o : Bool) :
    (∃ h, (issueAll is { n with ser := some ⟨id, true, i, o, []⟩ }).ser = some h ∧
        Framed is h.sent) ↔
      is.Pairwise fun i j => i.Partial → ¬ j.Complete := by
  rw [issueAll_ser is rfl rfl]
  have hiff := lines_pending_iff is []
  simp only [ne_eq, not_true_eq_false, false_implies, and_true] at hiff
  simp [Framed, hiff]

/-- A velocity command cut after three bytes, and the restart that follows it. -/
def cutThenRestart : List Issue :=
  [⟨.cmdVel ⟨.finite (1 / 2), .finite 0⟩, .raised 3⟩, ⟨.restart, .sent⟩]

/-- The device reads `0.5RESTART`, which is no command that was issued. -/
theorem cutThenRestart_joined :
    ¬ ∀ (is : List Issue) (n : SerialBridgeNode) (h h' : Handle), n.ser = some h →
      h.isOpen = true → h.sent = [] → (issueAll is n).ser = some h' →
      ∀ line ∈ Lines.lines newline [] h'.sent, ∃ i ∈ is, line = i.command.bytes := by
  intro hall
  have hline := hall cutThenRestart
    { serialPort := "/dev/esp32", baudRate := 115200, ser := some ⟨0, true, true, true, []⟩ }
    _ _ rfl rfl rfl (issueAll_ser cutThenRestart rfl rfl)
  have hjoined : Utf8.bytes ['0', '.', '5', 'R', 'E', 'S', 'T', 'A', 'R', 'T', '\n'] ∈
      Lines.lines newline [] (cutThenRestart.flatMap Issue.transmitted) := by decide +kernel
  have hnone : ¬ ∃ i ∈ cutThenRestart,
      Utf8.bytes ['0', '.', '5', 'R', 'E', 'S', 'T', 'A', 'R', 'T', '\n'] = i.command.bytes := by
    decide +kernel
  exact hnone (hline _ hjoined)

end TitanRobot.Bridge
