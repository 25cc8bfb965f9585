import TitanRobot.Bridge.Odometry

/-!
# Lines read in pieces

A line that is slow to arrive reaches `read_serial` in pieces, each processed as if it were a
line. A piece that ends inside the last numeral of a report still matches `pos_re` and is
published with the numeral cut short; so is a second report of the line that a cut has parted
from the first.
-/
namespace TitanRobot.Bridge
open Effect Regex Run

/-- The text of a piece before it is stripped. -/
def text (raw : List UInt8) : List Char := Utf8.decodeIgnore raw

/-- The report found in `piece`, after `pre` and before `post`, is the first of the line, and
the line does not go on with its last numeral where the piece ends. -/
structure Uncut (before piece after : List UInt8) (pre post : List Char) : Prop where
  first : ∀ a b, text (before ++ piece ++ after) = a ++ b →
    a.length + (text (piece ++ after)).length <
      (text (before ++ piece ++ after)).length + pre.length → matchAt posRe b = none
  ended : post = [] → ∀ c ∈ ((text (piece ++ after)).drop (text piece).length).head?,
    isNumeralChar c = false

/-- Every piece that is read as a report holds the first report of its line uncut. -/
def ReadsUncut (libm : Libm) (pieces : List (List UInt8)) : Prop :=
  ∀ before piece after, pieces = before ++ piece :: after → (poseOf libm piece).isSome →
    ∀ pre u gs post, FirstMatch posRe (text piece) pre u gs post →
      Uncut before.flatten piece after.flatten pre post

theorem text_append (a b : List UInt8) : ∃ c, text (a ++ b) = text a ++ c ++ text b :=
  Utf8.decodeIgnore_append a b

/-- The report of an uncut piece is matched in the whole line, where it stands. -/
theorem Uncut.matchAt {before piece after : List UInt8} {pre u post : List Char}
    {gs : List (List Char)} (h : Uncut before piece after pre post)
    (hm : FirstMatch posRe (text piece) pre u gs post) :
    ∃ a b rest, text (before ++ piece ++ after) = a ++ b ∧ matchAt posRe b = some (gs, rest) ∧
      a.length + (text (piece ++ after)).length =
        (text (before ++ piece ++ after)).length + pre.length ∧
      (text after).length < b.length := by
  obtain ⟨w, hw⟩ := text_append piece after
  obtain ⟨z, hz⟩ := text_append before (piece ++ after)
  rw [← List.append_assoc] at hz
  have hpiece := hm.text
  have hended := h.ended
  rw [hw, List.append_assoc, List.drop_left] at hended
  have hstop : Stops posRe (post ++ (w ++ text after)) := by
    rw [stops_posRe]
    cases post with
    | nil => exact hended rfl
    | cons c post => exact stops_posRe.mp hm.stops
  have hu : u ≠ [] := by
    have hread : Reads (posReHead ++ [.group isNumeralChar]) u gs := hm.reads
    obtain ⟨v, c, rfl, -⟩ := hread.getLast_group
    simp
  refine ⟨text before ++ z ++ pre, u ++ (post ++ (w ++ text after)), _, ?_,
    (matchAt_eq_some_iff deterministic_posRe).mpr ⟨u, rfl, hm.reads, hstop⟩, ?_, ?_⟩
  · rw [hz, hw, hpiece]
    simp
  · rw [hz]
    simp
    omega
  · have := List.length_pos_iff.mpr hu
    simp
    omega

/-- A line with an uncut piece reports what the piece reports. -/
theorem Uncut.poseOf_line (libm : Libm) {before piece after : List UInt8} {pre u post : List Char}
    {gs : List (List Char)} (h : Uncut before piece after pre post)
    (hm : FirstMatch posRe (text piece) pre u gs post) :
    poseOf libm (before ++ piece ++ after) = poseOf libm piece := by
  have hpiece : search posRe (text piece) = some gs :=
    (search_eq_some_iff_firstMatch deterministic_posRe).mpr ⟨pre, u, post, hm⟩
  obtain ⟨a, b, rest, hab, hmatch, hlen, -⟩ := h.matchAt hm
  have hline : search posRe (text (before ++ piece ++ after)) = some gs :=
    search_eq_some_iff.mpr ⟨a, b, rest, hab, hmatch, fun a' b' heq hlt =>
      h.first a' b' heq (by omega)⟩
  simp only [text] at hpiece hline
  rw [poseOf, poseOf, hline, hpiece]

/-- Two pieces of one line cannot both hold its first report uncut. -/
theorem not_uncut_twice {before piece between piece' after : List UInt8}
    {pre u post pre' post' : List Char} {gs : List (List Char)}
    (h : Uncut before piece (between ++ piece' ++ after) pre post)
    (hm : FirstMatch posRe (text piece) pre u gs post)
    (h' : Uncut (before ++ piece ++ between) piece' after pre' post') : False := by
  obtain ⟨a, b, rest, hab, hmatch, -, hlt⟩ := h.matchAt hm
  obtain ⟨c, hc⟩ := text_append between (piece' ++ after)
  have hline : before ++ piece ++ (between ++ piece' ++ after) =
      before ++ piece ++ between ++ piece' ++ after := by simp
  rw [hline] at hab
  have hnone := h'.first a b hab (by
    rw [List.append_assoc, hc] at hlt
    rw [hab]
    simp at hlt ⊢
    omega)
  rw [hmatch] at hnone
  simp at hnone

/-- Where every report is read uncut, the pieces of a line are published as its pose, once at
most. -/
theorem poses_of_pieces (libm : Libm) {pieces : List (List UInt8)} (h : ReadsUncut libm pieces) :
    (pieces.filterMap (poseOf libm)).Sublist (poseOf libm pieces.flatten).toList := by
  have hfound : ∀ {piece p}, poseOf libm piece = some p →
      ∃ pre u gs post, FirstMatch posRe (text piece) pre u gs post := by
    intro piece p hp
    obtain ⟨gs, hs, -⟩ := Option.bind_eq_some_iff.mp hp
    obtain ⟨pre, u, post, hm⟩ := (search_eq_some_iff_firstMatch deterministic_posRe).mp hs
    exact ⟨pre, u, gs, post, hm⟩
  cases hposes : pieces.filterMap (poseOf libm) with
  | nil => exact List.nil_sublist _
  | cons p ps =>
    obtain ⟨before, piece, rest, rfl, -, hp, hrest⟩ := List.filterMap_eq_cons_iff.mp hposes
    obtain ⟨pre, u, gs, post, hm⟩ := hfound hp
    have huncut := h before piece rest rfl (by simp [hp]) pre u gs post hm
    cases ps with
    | nil =>
      have hline := huncut.poseOf_line libm hm
      rw [hp, List.append_assoc] at hline
      simp [hline]
    | cons p' ps =>
      obtain ⟨between, piece', after, rfl, -, hp', -⟩ := List.filterMap_eq_cons_iff.mp hrest
      obtain ⟨pre', u', gs', post', hm'⟩ := hfound hp'
      have huncut' := h (before ++ piece :: between) piece' after (by simp) (by simp [hp'])
        pre' u' gs' post' hm'
      simp only [List.flatten_append, List.flatten_cons, ← List.append_assoc] at huncut huncut'
      exact (not_uncut_twice huncut hm huncut').elim

/-- A line read in one piece is read uncut. -/
theorem readsUncut_whole (libm : Libm) (raw : List UInt8) : ReadsUncut libm [raw] := by
  intro before piece after heq _ pre u gs post hm
  obtain ⟨rfl, rfl, rfl⟩ : before = [] ∧ piece = raw ∧ after = [] := by
    simpa [List.singleton_eq_append_iff] using heq
  refine ⟨fun a b hab hlt => ?_, ?_⟩
  · simp only [List.flatten_nil, List.nil_append, List.append_nil] at hab hlt
    exact hm.first a b hab (by omega)
  · simp

/-- A line none of whose pieces is read as a report is read uncut. -/
theorem readsUncut_of_quiet {libm : Libm} {pieces : List (List UInt8)}
    (h : ∀ piece ∈ pieces, poseOf libm piece = none) : ReadsUncut libm pieces := by
  rintro before piece after rfl hp
  rw [h piece (by simp)] at hp
  simp at hp

/-! ## A stream of lines -/

/-- The poses published among the events of a run. -/
def posesOf (evs : List Event) : List Pose :=
  evs.filterMap fun e =>
    match e with
    | .publish m => some ⟨m.position.x, m.position.y, m.orientation⟩
    | _ => none

theorem posesOf_messages (evs : List Event) : posesOf (messages evs) = posesOf evs := by
  induction evs with
  | nil => rfl
  | cons e evs ih =>
    cases e <;> simp_all [messages, posesOf, Event.isPort]

theorem posesOf_lineMessages (libm : Libm) (now : Stamp) (raw : List UInt8) :
    posesOf (lineMessages libm now raw) = (poseOf libm raw).toList := by
  unfold lineMessages
  cases poseOf libm raw with
  | none => rfl
  | some p => rfl

/-- The poses that a run publishes are those of the lines it handles. -/
theorem run_poses (libm : Libm) {n : SerialBridgeNode} (is : List Input) (ready : Ready n) :
    posesOf (newEvents n (run (step libm) is n)) =
      ((handled libm is n).map Line.raw).filterMap (poseOf libm) := by
  rw [← posesOf_messages, run_publishes libm is ready]
  induction handled libm is n with
  | nil => rfl
  | cons l ls ih =>
    rw [List.flatMap_cons, posesOf, List.filterMap_append, List.map_cons]
    simp only [posesOf] at ih
    rw [ih, ← posesOf, posesOf_lineMessages, List.filterMap_cons]
    cases poseOf libm l.raw <;> rfl

/-- Where every report of a stream is read uncut, however timeouts cut its lines and however
much of it has been read, a run has published for each line its pose or nothing, in the order
of the lines. -/
theorem published_of_stream (libm : Libm) {attempts : ℕ → Attempt} {restart : WriteOutcome}
    {n₀ n : SerialBridgeNode} (h : exec (construct attempts restart) n₀ = (.ok (), n))
    (is : List Input) (lines : List (List (List UInt8)))
    (hread : (handled libm is n).map Line.raw <+: lines.flatten)
    (huncut : ∀ pieces ∈ lines, ReadsUncut libm pieces) :
    ∃ published : List (List Pose),
      posesOf (newEvents n (run (step libm) is n)) = published.flatten ∧
      List.Forall₂ (fun pieces poses => poses.Sublist (poseOf libm pieces.flatten).toList)
        lines published := by
  obtain ⟨read, hflat, hparts⟩ := Lines.prefix_flatten hread
  refine ⟨read.map (List.filterMap (poseOf libm)), ?_, ?_⟩
  · rw [run_poses libm is (construct_started h).ready, hflat, List.filterMap_flatten]
  · rw [List.forall₂_map_right_iff]
    refine ((List.forall₂_and_left lines read).mpr ⟨huncut, hparts.flip⟩).imp ?_
    rintro pieces part ⟨hpieces, hpart : part <+: pieces⟩
    exact (hpart.sublist.filterMap _).trans (poses_of_pieces libm hpieces)

/-- A report read whole, and then a report cut after its first numeral. -/
theorem whole_then_cut_published :
    ∃ published : List (List Pose),
      posesOf (newEvents startedNode (run (step straight)
        ([reportLine, reportLine.take 10, reportLine.drop 10].map fun raw =>
          .pass ⟨true, .ok 1, .ok raw, ⟨0, 0⟩, working⟩) startedNode)) = published.flatten ∧
      List.Forall₂ (fun pieces poses =>
          poses.Sublist (poseOf straight pieces.flatten).toList)
        [[reportLine], [reportLine.take 10, reportLine.drop 10]] published := by
  refine published_of_stream straight startedNode_constructed _ _ (by decide +kernel) ?_
  intro pieces hpieces
  simp only [List.mem_cons, List.not_mem_nil, or_false] at hpieces
  rcases hpieces with rfl | rfl
  · exact readsUncut_whole straight reportLine
  · exact readsUncut_of_quiet (by decide +kernel)

/-- A line of the device. -/
def IsLine (raw : List UInt8) : Prop := ∃ body, raw = body ++ [newline] ∧ newline ∉ body

/-- Exact at zero and at a quarter, to the nearest double. -/
def quarter : Libm :=
  ⟨fun q => if q = 0 then 0 else 8913667029669239 / 36028797018963968,
   fun q => if q = 0 then 1 else 8727187242741409 / 9007199254740992⟩

/-- `POS: x = 1 y = 2 theta = 0` arrives before the timeout, `.5` and the newline after it. -/
def cutReport : List (List UInt8) :=
  [reportLine.dropLast, Utf8.bytes ['.', '5', '\n']]

/-- The fragment is published with a heading of zero, the heading of no line. -/
theorem cutReport_misread :
    ¬ ∀ (libm : Libm) (attempts : ℕ → Attempt) (restart : WriteOutcome)
        (n₀ n : SerialBridgeNode), exec (construct attempts restart) n₀ = (.ok (), n) →
      ∀ (is : List Input) (lines : List (List (List UInt8))),
        (∀ pieces ∈ lines, IsLine pieces.flatten) →
        (handled libm is n).map Line.raw = lines.flatten →
        (posesOf (newEvents n (run (step libm) is n))).Sublist
          (lines.filterMap fun pieces => poseOf libm pieces.flatten) := by
  intro hall
  have hsub := hall quarter _ _ _ _ startedNode_constructed
    (cutReport.map fun raw => .pass ⟨true, .ok 1, .ok raw, ⟨0, 0⟩, working⟩) [cutReport]
    (by
      intro pieces hpieces
      obtain rfl := List.mem_singleton.mp hpieces
      exact ⟨cutReport.flatten.dropLast, by decide +kernel, by decide +kernel⟩) (by decide +kernel)
  exact absurd hsub (by decide +kernel)

end TitanRobot.Bridge
