import TitanRobot.Bridge.State

/-!
# Opening the port

`connectSerial` with its retries, over an arbitrary outcome of every call it makes.

A handle whose buffers cannot be reset stays in `self.ser`, open. The port is opened with
`exclusive=True`, so every later attempt of the same call then fails on the handle that the
call itself left open.
-/
namespace TitanRobot.Bridge
open Effect

/-- What one attempt meets: whether `serial.Serial` succeeds, given that this process holds
the port open or not, and whether the two resets succeed. -/
structure Attempt where
  opens : Bool → Bool
  resetInput : Bool
  resetOutput : Bool

/-- Opening a port that is held open with `exclusive=True` fails. -/
def Exclusive (env : ℕ → Attempt) : Prop := ∀ k, (env k).opens true = false

def openSerial (settings : Settings) (a : Attempt) : Py Unit := do
  let n ← get
  emit (.openPort settings n.ser)
  if a.opens n.portOpen then
    emit (.opened n.nextId)
    modify fun n => { n with ser := some ⟨n.nextId, true, false, false, []⟩,
                             nextId := n.nextId + 1 }
  else throw .serialException

def resetInputBuffer (a : Attempt) : Py Unit :=
  if a.resetInput then setSer fun h => { h with inputReset := true }
  else throw .serialException

def resetOutputBuffer (a : Attempt) : Py Unit :=
  if a.resetOutput then setSer fun h => { h with outputReset := true }
  else throw .serialException

/-- The `try` block of one attempt. -/
def attemptConnect (settings : Settings) (a : Attempt) : Py Unit := do
  openSerial settings a
  resetInputBuffer a
  resetOutputBuffer a

/-- The attempts from number `attempt` on, `left` of them. -/
def connectFrom (port : String) (baud retries : ℕ) (env : ℕ → Attempt) (attempt : ℕ) :
    ℕ → Py Unit
  | 0 => throw (.runtimeError s!"Failed to connect to {port} after {retries} attempts")
  | left + 1 =>
    tryCatch (attemptConnect { port, baudrate := baud } (env attempt)) fun e =>
      match e with
      | .serialException => connectFrom port baud retries env (attempt + 1) left
      | e => throw e

def connectSerial (port : String) (baud : ℕ) (env : ℕ → Attempt) (retries : ℕ) : Py Unit :=
  connectFrom port baud retries env 0 retries

/-- `retries=5`, the default that both callers use. -/
def defaultRetries : ℕ := 5

/-! ## One attempt -/

/-- The node after a successful `serial.Serial`. -/
def SerialBridgeNode.opened (n : SerialBridgeNode) (settings : Settings)
    (inputReset outputReset : Bool) : SerialBridgeNode :=
  { n with ser := some ⟨n.nextId, true, inputReset, outputReset, []⟩
           nextId := n.nextId + 1
           log := n.log ++ [.openPort settings n.ser, .opened n.nextId] }

/-- The node after a failed `serial.Serial`. -/
def SerialBridgeNode.refused (n : SerialBridgeNode) (settings : Settings) : SerialBridgeNode :=
  { n with log := n.log ++ [.openPort settings n.ser] }

@[simp] theorem portOpen_opened (n : SerialBridgeNode) (st : Settings) (i o : Bool) :
    (n.opened st i o).portOpen = true := rfl

@[simp] theorem portOpen_refused (n : SerialBridgeNode) (st : Settings) :
    (n.refused st).portOpen = n.portOpen := rfl

theorem exec_attemptConnect (st : Settings) (a : Attempt) (n : SerialBridgeNode) :
    exec (attemptConnect st a) n =
      if a.opens n.portOpen then
        if a.resetInput && a.resetOutput then (.ok (), n.opened st true true)
        else (.error .serialException, n.opened st a.resetInput false)
      else (.error .serialException, n.refused st) := by
  unfold attemptConnect openSerial resetInputBuffer resetOutputBuffer
  cases ho : a.opens n.portOpen <;> cases hi : a.resetInput <;> cases hr : a.resetOutput <;>
    simp [exec_bind, ho, SerialBridgeNode.opened, SerialBridgeNode.refused]

/-! ## All attempts of a call -/

section
variable (port : String) (baud retries : ℕ) (env : ℕ → Attempt)

theorem exec_connectFrom_succ (attempt left : ℕ) (n : SerialBridgeNode) :
    exec (connectFrom port baud retries env attempt (left + 1)) n =
      if (env attempt).opens n.portOpen then
        if (env attempt).resetInput && (env attempt).resetOutput then
          (.ok (), n.opened { port, baudrate := baud } true true)
        else exec (connectFrom port baud retries env (attempt + 1) left)
          (n.opened { port, baudrate := baud } (env attempt).resetInput false)
      else exec (connectFrom port baud retries env (attempt + 1) left)
        (n.refused { port, baudrate := baud }) := by
  rw [connectFrom, exec_tryCatch, exec_attemptConnect]
  split_ifs <;> rfl

theorem portFrame_opened (n : SerialBridgeNode) (st : Settings) (i o : Bool) :
    PortFrame n (n.opened st i o) :=
  .of_log rfl rfl (by simp [Event.isPort])

theorem portFrame_refused (n : SerialBridgeNode) (st : Settings) : PortFrame n (n.refused st) :=
  .of_log rfl rfl (by simp [Event.isPort])

@[simp] theorem newEvents_opened (n : SerialBridgeNode) (st : Settings) (i o : Bool) :
    newEvents n (n.opened st i o) = [.openPort st n.ser, .opened n.nextId] := newEvents_of_log rfl

@[simp] theorem newEvents_refused (n : SerialBridgeNode) (st : Settings) :
    newEvents n (n.refused st) = [.openPort st n.ser] := newEvents_of_log rfl

theorem connectFrom_frame (attempt left : ℕ) (n : SerialBridgeNode) :
    PortFrame n (exec (connectFrom port baud retries env attempt left) n).2 := by
  induction left generalizing attempt n with
  | zero => exact .refl n
  | succ left ih =>
    rw [exec_connectFrom_succ]
    split_ifs
    · exact portFrame_opened ..
    · exact (portFrame_opened ..).trans (ih _ _)
    · exact (portFrame_refused ..).trans (ih _ _)

/-- The call returns with an open port whose two buffers were reset, or raises RuntimeError. -/
theorem connectFrom_result (attempt left : ℕ) (n : SerialBridgeNode) :
    let r := exec (connectFrom port baud retries env attempt left) n
    (r.1 = .ok () ∧ ∃ h, r.2.ser = some h ∧ h.isOpen ∧ h.inputReset ∧ h.outputReset) ∨
      ∃ message, r.1 = .error (.runtimeError message) := by
  induction left generalizing attempt n with
  | zero => exact .inr ⟨_, rfl⟩
  | succ left ih =>
    rw [exec_connectFrom_succ]
    split_ifs
    · exact .inl ⟨rfl, _, rfl, rfl, rfl, rfl⟩
    · exact ih _ _
    · exact ih _ _

/-- The port is open after the call exactly if it was open before or some `serial.Serial`
of the call succeeded: no handle is closed again. -/
theorem connectFrom_portOpen (attempt left : ℕ) (n : SerialBridgeNode) :
    (exec (connectFrom port baud retries env attempt left) n).2.portOpen = true ↔
      n.portOpen = true ∨ ∃ k < left, (env (attempt + k)).opens false = true := by
  induction left generalizing attempt n with
  | zero => simp [connectFrom]
  | succ left ih =>
    have hfirst : (env attempt).opens n.portOpen = true → n.portOpen = true ∨
        ∃ k < left + 1, (env (attempt + k)).opens false = true := by
      intro ho
      cases hn : n.portOpen with
      | true => exact .inl rfl
      | false => exact .inr ⟨0, by omega, by simpa [hn] using ho⟩
    rw [exec_connectFrom_succ]
    split_ifs with ho hr
    · simpa using hfirst ho
    · rw [ih]
      simpa using hfirst ho
    · rw [ih]
      constructor
      · rintro (hn | ⟨k, hk, hopens⟩)
        · exact .inl hn
        · exact .inr ⟨k + 1, by omega, by rwa [show attempt + (k + 1) = attempt + 1 + k by omega]⟩
      · rintro (hn | ⟨k, hk, hopens⟩)
        · exact .inl hn
        · cases k with
          | zero =>
            cases hn : n.portOpen with
            | true => exact .inl hn
            | false => exact absurd (by simpa [hn] using hopens) ho
          | succ k =>
            exact .inr ⟨k, by omega, by rwa [show attempt + 1 + k = attempt + (k + 1) by omega]⟩

/-- A call with at least one attempt calls `serial.Serial`. -/
theorem connectFrom_opensPort (attempt left : ℕ) (n : SerialBridgeNode) :
    opensPort n (exec (connectFrom port baud retries env attempt (left + 1)) n).2 = true := by
  have hopened : ∀ st i o, opensPort n (n.opened st i o) = true := by
    intro st i o
    rw [opensPort, newEvents_opened]
    rfl
  have hrefused : ∀ st, opensPort n (n.refused st) = true := by
    intro st
    rw [opensPort, newEvents_refused]
    rfl
  have hrest := connectFrom_frame port baud retries env (attempt + 1) left
  rw [exec_connectFrom_succ]
  split_ifs
  · exact hopened ..
  · rw [opensPort_trans (portFrame_opened n _ _ _).extends (hrest _).extends, hopened, Bool.true_or]
  · rw [opensPort_trans (portFrame_refused n _).extends (hrest _).extends, hrefused, Bool.true_or]

/-! ## Clean connection attempts -/

/-- The handle is open and was opened by the call whose events these are. -/
def OpenedIn (evs : List Event) (ser : Option Handle) : Prop :=
  ∃ h, ser = some h ∧ h.isOpen = true ∧ .opened h.id ∈ evs

/-- A call that returns leaves an open handle with both buffers reset, no attempt opens the
port over a handle of an earlier attempt, and a call that raises leaves no handle of its own
open. -/
structure Clean (evs : List Event) (result : Except PyError Unit) (ser : Option Handle) :
    Prop where
  returned : result = .ok () →
    ∃ h, ser = some h ∧ h.isOpen ∧ h.inputReset ∧ h.outputReset
  attempts : ∀ pre st held post, evs = pre ++ .openPort st held :: post → ¬ OpenedIn pre held
  raised : ∀ message, result = .error (.runtimeError message) → ¬ OpenedIn evs ser

/-- The first attempt that opens the port, if any does, also resets both buffers. -/
def FirstOpenResets (attempt left : ℕ) : Prop :=
  ∀ k < left, (∀ j < k, (env (attempt + j)).opens false = false) →
    (env (attempt + k)).opens false = true →
    (env (attempt + k)).resetInput = true ∧ (env (attempt + k)).resetOutput = true

/-- While the port is held every attempt fails and `self.ser` stays as it is. -/
theorem exec_connectFrom_held (excl : Exclusive env) (attempt left : ℕ) {n : SerialBridgeNode}
    (hn : n.portOpen = true) :
    (exec (connectFrom port baud retries env attempt left) n).2 =
      { n with log := n.log ++
                 List.replicate left (.openPort { port, baudrate := baud } n.ser) } := by
  induction left generalizing attempt n with
  | zero => simp [connectFrom]
  | succ left ih =>
    rw [exec_connectFrom_succ, if_neg (by simp [hn, excl attempt]),
      ih (attempt + 1) (n := n.refused _) hn]
    simp [SerialBridgeNode.refused, List.replicate_succ]

theorem OpenedIn.cons_openPort {st : Settings} {held : Option Handle} {evs : List Event}
    {ser : Option Handle} : OpenedIn (.openPort st held :: evs) ser ↔ OpenedIn evs ser := by
  simp [OpenedIn]

/-- A failed open over a port that is not open changes nothing about the rest of the call. -/
theorem clean_cons_openPort {st : Settings} {held : Option Handle} {evs : List Event}
    {result : Except PyError Unit} {ser : Option Handle} :
    Clean (.openPort st held :: evs) result ser ↔ Clean evs result ser := by
  constructor
  · rintro ⟨hret, hatt, hraise⟩
    refine ⟨hret, ?_, fun message hm => OpenedIn.cons_openPort.not.mp (hraise message hm)⟩
    intro pre st' held' post heq
    exact OpenedIn.cons_openPort.not.mp (hatt (.openPort st held :: pre) st' held' post (by simp [heq]))
  · rintro ⟨hret, hatt, hraise⟩
    refine ⟨hret, ?_, fun message hm => OpenedIn.cons_openPort.not.mpr (hraise message hm)⟩
    intro pre st' held' post heq
    cases pre with
    | nil => simp [OpenedIn]
    | cons e pre =>
      obtain ⟨rfl, htail⟩ := List.cons_eq_cons.mp heq
      exact OpenedIn.cons_openPort.not.mpr (hatt pre st' held' post htail)

theorem firstOpenResets_succ_of_not_opens {attempt left : ℕ}
    (h : (env attempt).opens false = false) :
    FirstOpenResets env attempt (left + 1) ↔ FirstOpenResets env (attempt + 1) left := by
  constructor
  · intro hfirst k hk hbefore hopens
    have hidx : attempt + 1 + k = attempt + (k + 1) := by omega
    rw [hidx] at hopens ⊢
    refine hfirst (k + 1) (by omega) ?_ hopens
    intro j hj
    cases j with
    | zero => exact h
    | succ j => rw [show attempt + (j + 1) = attempt + 1 + j by omega]; exact hbefore j (by omega)
  · intro hfirst k hk hbefore hopens
    cases k with
    | zero => exact absurd hopens (by simp [h])
    | succ k =>
      have hidx : attempt + (k + 1) = attempt + 1 + k := by omega
      rw [hidx] at hopens ⊢
      refine hfirst k (by omega) (fun j hj => ?_) hopens
      rw [show attempt + 1 + j = attempt + (j + 1) by omega]
      exact hbefore (j + 1) (by omega)

/-- A handle opened but not reset stays in `self.ser` while the remaining attempts fail on it,
and is still open when the call raises. -/
theorem not_clean_of_leak (excl : Exclusive env) (attempt left : ℕ) (n : SerialBridgeNode)
    (i : Bool) :
    let r := exec (connectFrom port baud retries env attempt left)
      (n.opened { port, baudrate := baud } i false)
    ¬ Clean (newEvents n r.2) r.1 r.2.ser := by
  have hopened := portFrame_opened n { port, baudrate := baud } i false
  have hrest := connectFrom_frame port baud retries env attempt left
    (n.opened { port, baudrate := baud } i false)
  have hheld := exec_connectFrom_held port baud retries env excl attempt left
    (portOpen_opened n { port, baudrate := baud } i false)
  intro r hclean
  have hser : r.2.ser = some ⟨n.nextId, true, i, false, []⟩ := by simp only [r, hheld]; rfl
  rcases connectFrom_result port baud retries env attempt left
    (n.opened { port, baudrate := baud } i false) with hok | ⟨message, herr⟩
  · obtain ⟨-, h, hser', -, -, hout⟩ := hok
    obtain rfl := Option.some.inj (hser.symm.trans hser')
    simp at hout
  · refine hclean.raised message herr ⟨_, hser, rfl, ?_⟩
    rw [hopened.newEvents_trans hrest, newEvents_opened]
    simp

theorem connectFrom_clean_iff (excl : Exclusive env) (attempt left : ℕ) {n : SerialBridgeNode}
    (hn : n.portOpen = false) :
    let r := exec (connectFrom port baud retries env attempt left) n
    Clean (newEvents n r.2) r.1 r.2.ser ↔ FirstOpenResets env attempt left := by
  induction left generalizing attempt n with
  | zero =>
    simp only [connectFrom, exec_throw, newEvents, List.drop_length]
    exact ⟨fun _ k hk => absurd hk (by omega), fun _ => ⟨by simp, by simp, by simp [OpenedIn]⟩⟩
  | succ left ih =>
    rw [exec_connectFrom_succ, hn]
    split_ifs with ho hr
    · simp only [Bool.and_eq_true] at hr
      refine iff_of_true ?_ ?_
      · rw [newEvents_opened, clean_cons_openPort]
        exact ⟨fun _ => ⟨_, rfl, rfl, rfl, rfl⟩, by simp [List.singleton_eq_append_iff], by simp⟩
      · intro k _ hbefore _
        cases k with
        | zero => exact hr
        | succ k => exact absurd ho (by simpa using hbefore 0 (by omega))
    · refine iff_of_false (not_clean_of_leak port baud retries env excl (attempt + 1) left n _) ?_
      intro hfirst
      have hresets := hfirst 0 (by omega) (by omega) ho
      exact hr (by simpa using hresets)
    · have hrefused := portFrame_refused n { port, baudrate := baud }
      have hrest := connectFrom_frame port baud retries env (attempt + 1) left
        (n.refused { port, baudrate := baud })
      dsimp only
      rw [hrefused.newEvents_trans hrest, newEvents_refused, List.singleton_append,
        clean_cons_openPort, firstOpenResets_succ_of_not_opens env (by simpa using ho)]
      exact ih (attempt + 1) hn

/-- When a call of `connect_serial` is clean: the first attempt that opens the port, if any
does, also resets both buffers, or the port is held open when the call begins. -/
theorem connectSerial_clean_iff (excl : Exclusive env) (n : SerialBridgeNode) :
    let r := exec (connectSerial port baud env retries) n
    Clean (newEvents n r.2) r.1 r.2.ser ↔
      (n.portOpen = false → FirstOpenResets env 0 retries) := by
  intro r
  cases hn : n.portOpen with
  | false =>
    simp only [forall_const]
    exact connectFrom_clean_iff port baud retries env excl 0 retries hn
  | true =>
    have hheld := exec_connectFrom_held port baud retries env excl 0 retries hn
    have hevs : newEvents n r.2 =
        List.replicate retries (.openPort { port, baudrate := baud } n.ser) :=
      newEvents_of_log (by simp only [r, connectSerial, hheld])
    have hnone : ∀ id, Event.opened id ∉ newEvents n r.2 := by
      intro id hmem
      rw [hevs] at hmem
      exact absurd (List.eq_of_mem_replicate hmem) (by simp)
    refine iff_of_true ⟨?_, ?_, ?_⟩ (by simp)
    · intro hok
      rcases connectFrom_result port baud retries env 0 retries n with h | ⟨message, herr⟩
      · exact h.2
      · rw [show r.1 = _ from herr] at hok
        simp at hok
    · rintro pre st held post heq ⟨h, -, -, hmem⟩
      exact hnone h.id (by rw [heq]; simp [hmem])
    · rintro message - ⟨h, -, -, hmem⟩
      exact hnone h.id hmem

end

/-! ## A leaked handle -/

/-- Every `serial.Serial` succeeds unless the port is held; the first input reset fails. -/
def firstResetFails : ℕ → Attempt
  | 0 => ⟨fun held => !held, false, true⟩
  | _ => ⟨fun held => !held, true, true⟩

theorem firstResetFails_exclusive : Exclusive firstResetFails := by
  intro k
  cases k <;> rfl

/-- The first attempt leaves its handle open, and the four that follow fail on it. -/
theorem connectSerial_leaks :
    ¬ ∀ (port : String) (baud retries : ℕ) (env : ℕ → Attempt), Exclusive env →
      ∀ n : SerialBridgeNode, n.portOpen = false →
        let r := exec (connectSerial port baud env retries) n
        Clean (newEvents n r.2) r.1 r.2.ser := by
  intro hclean
  have hc := hclean "/dev/esp32" 115200 defaultRetries firstResetFails firstResetFails_exclusive
    { serialPort := "/dev/esp32", baudRate := 115200 } rfl
  have hfirst := (connectFrom_clean_iff _ _ _ _ firstResetFails_exclusive 0 _ rfl).mp hc
  exact absurd (hfirst 0 (by decide) (by omega) rfl).1 (by decide)

/-- The condition met by a call whose first open succeeds and is reset. -/
theorem connectSerial_clean_at_once :
    let r := exec (connectSerial "/dev/esp32" 115200 (fun _ => ⟨fun held => !held, true, true⟩)
      defaultRetries) { serialPort := "/dev/esp32", baudRate := 115200 }
    Clean (newEvents { serialPort := "/dev/esp32", baudRate := 115200 } r.2) r.1 r.2.ser :=
  (connectSerial_clean_iff _ _ _ _ (fun _ => rfl) _).mpr fun _ _ _ _ _ => ⟨rfl, rfl⟩

end TitanRobot.Bridge
