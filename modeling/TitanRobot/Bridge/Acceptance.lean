import TitanRobot.Bridge.Fragments

/-!
# Accepted reports

A complete report stands in the bytes of a line without a gap, its three fields are decimal
numerals, and no letter goes on from the last one. `pos_re` is searched in the decoded text
instead, where dropped bytes leave no gap, and what follows a match is not looked at.
-/
namespace TitanRobot.Bridge
open Effect Regex Run Text

/-! ## Reports and numerals -/

/-- The pose that three numerals denote, unless the yaw is beyond the range of a double. -/
def reported (libm : Libm) (X Y T : Numeral) : Option Pose :=
  (yawToQuaternion libm (.ofRat T.value)).toOption.map fun q => ⟨.ofRat X.value, .ofRat Y.value, q⟩

/-- Numerals denote a pose if the yaw is within the range of a double. -/
theorem reported_of_finite (libm : Libm) (X Y : Numeral) {T : Numeral} {q : ℚ}
    (h : Double.ofRat T.value = .finite q) : ∃ p, reported libm X Y T = some p := by
  obtain ⟨r, hr⟩ := Double.half_finite h
  simp [reported, yawToQuaternion, h, hr, mathCall, bind, Except.bind, pure, Except.pure,
    Except.toOption]

theorem pyFloat_text (n : Numeral) : pyFloat n.text = .ok (.ofRat n.value) :=
  pyFloat_eq_ok_iff.mpr ⟨n, rfl, rfl⟩

theorem floats_texts (X Y T : Numeral) :
    floats [X.text, Y.text, T.text] = .ok (.ofRat X.value, .ofRat Y.value, .ofRat T.value) := by
  simp only [floats, pyFloat_text]
  rfl

/-- Groups that convert are the texts of numerals. -/
theorem texts_of_floats {gs : List (List Char)} {v : Double × Double × Double}
    (h : floats gs = .ok v) : ∃ X Y T : Numeral, gs = [X.text, Y.text, T.text] := by
  unfold floats at h
  split at h
  · rename_i gx gy gtheta
    cases hx : pyFloat gx with
    | error e => simp [hx, bind, Except.bind] at h
    | ok x =>
      cases hy : pyFloat gy with
      | error e => simp [hx, hy, bind, Except.bind] at h
      | ok y =>
        cases ht : pyFloat gtheta with
        | error e => simp [hx, hy, ht, bind, Except.bind] at h
        | ok theta =>
          obtain ⟨X, rfl, -⟩ := pyFloat_eq_ok_iff.mp hx
          obtain ⟨Y, rfl, -⟩ := pyFloat_eq_ok_iff.mp hy
          obtain ⟨T, rfl, -⟩ := pyFloat_eq_ok_iff.mp ht
          exact ⟨X, Y, T, rfl⟩
  · simp at h

theorem groupsPose_texts (libm : Libm) (X Y T : Numeral) :
    (groupsPose libm [X.text, Y.text, T.text]).toOption = reported libm X Y T := by
  simp only [groupsPose, floats_texts, reported]
  cases hq : yawToQuaternion libm (.ofRat T.value) <;>
    simp [hq, bind, Except.bind, pure, Except.pure, Except.toOption]

theorem groupsPose_eq_some_iff {libm : Libm} {gs : List (List Char)} {p : Pose} :
    (groupsPose libm gs).toOption = some p ↔
      ∃ X Y T : Numeral, gs = [X.text, Y.text, T.text] ∧ reported libm X Y T = some p := by
  constructor
  · intro h
    cases hf : floats gs with
    | error e => simp [groupsPose, hf, bind, Except.bind, Except.toOption] at h
    | ok v =>
      obtain ⟨X, Y, T, rfl⟩ := texts_of_floats hf
      rw [groupsPose_texts] at h
      exact ⟨X, Y, T, rfl, h⟩
  · rintro ⟨X, Y, T, rfl, h⟩
    rw [groupsPose_texts, h]

/-! ## Complete reports -/

def posWord : List Char := ['P', 'O', 'S', ':']

/-- `POS:` stands at most once in the bytes. -/
def AtMostOnce (raw : List UInt8) : Prop :=
  ∀ p s p' s', raw = p ++ Utf8.bytes posWord ++ s → raw = p' ++ Utf8.bytes posWord ++ s' → p = p'

/-- `w` is decoded, after `pre`, from bytes that stand next to each other. -/
def Contiguous (raw : List UInt8) (pre w : List Char) : Prop :=
  ∃ l r, Utf8.scan raw = l ++ w.map some ++ r ∧ l.reduceOption = pre

/-- The line contains the report with these numerals, no undecodable byte inside it, and
neither a character of a numeral nor a letter after it. -/
def Complete (letter : Char → Bool) (raw : List UInt8) (X Y T : Numeral) : Prop :=
  ∃ l u r, Utf8.scan raw = l ++ u.map some ++ r ∧ Reads posRe u [X.text, Y.text, T.text] ∧
    ∀ c ∈ r.reduceOption.head?, isNumeralChar c = false ∧ letter c = false

theorem reads_literal {w u : List Char} {gs : List (List Char)} (h : Reads (w.map char) u gs) :
    u = w := by
  induction w generalizing u gs with
  | nil => cases h; rfl
  | cons a w ih =>
    cases h with
    | one hc h => rw [ih h, beq_iff_eq.mp hc]

theorem reads_posWord {u : List Char} {gs : List (List Char)} (h : Reads posRe u gs) :
    ∃ v, u = posWord ++ v := by
  have hword : posRe = posWord.map char ++ posRe.drop 4 := rfl
  rw [hword] at h
  obtain ⟨w, v, gs₁, gs₂, rfl, -, hw, -⟩ := reads_append.mp h
  exact ⟨v, by rw [reads_literal hw]⟩

theorem scan_posWord {raw : List UInt8} {l r : List (Option Char)} {v : List Char}
    (h : Utf8.scan raw = l ++ (posWord ++ v).map some ++ r) :
    Utf8.scan raw = l ++ posWord.map some ++ (v.map some ++ r) := by
  rw [h, List.map_append, List.append_assoc, List.append_assoc, List.append_assoc]

theorem contiguous_unique {raw : List UInt8} (once : AtMostOnce raw)
    {l l' r r' : List (Option Char)} (h : Utf8.scan raw = l ++ posWord.map some ++ r)
    (h' : Utf8.scan raw = l' ++ posWord.map some ++ r') : l = l' := by
  have hascii : Utf8.IsAscii posWord := by simp [Utf8.IsAscii, posWord]
  obtain ⟨p, s, hp, rfl, -⟩ := Utf8.scan_split_bytes hascii h
  obtain ⟨p', s', hp', rfl, -⟩ := Utf8.scan_split_bytes hascii h'
  rw [once p s p' s' hp hp']

/-! ## What the search finds -/

theorem reduceOption_map_some {α : Type} (u : List α) : (u.map some).reduceOption = u := by
  rw [List.reduceOption, List.filterMap_map]
  exact List.filterMap_some

/-- A complete report is matched where it stands. -/
theorem matchAt_complete {raw : List UInt8} {l r : List (Option Char)} {u : List Char}
    {gs : List (List Char)} (hscan : Utf8.scan raw = l ++ u.map some ++ r)
    (hu : Reads posRe u gs) (hr : ∀ c ∈ r.reduceOption.head?, isNumeralChar c = false) :
    text raw = l.reduceOption ++ (u ++ r.reduceOption) ∧
      matchAt posRe (u ++ r.reduceOption) = some (gs, r.reduceOption) := by
  refine ⟨?_, (matchAt_eq_some_iff deterministic_posRe).mpr ⟨u, rfl, hu, stops_posRe.mpr hr⟩⟩
  simp [text, Utf8.decodeIgnore, hscan, List.reduceOption_append, reduceOption_map_some]

/-- The first match and a complete report with the same `POS:` are the same report. -/
theorem complete_of_first {raw : List UInt8} (once : AtMostOnce raw) {pre u post : List Char}
    {gs : List (List Char)} (hm : FirstMatch posRe (text raw) pre u gs post)
    (hpos : Contiguous raw pre posWord) {letter : Char → Bool} {X Y T : Numeral}
    (h : Complete letter raw X Y T) :
    gs = [X.text, Y.text, T.text] ∧ Contiguous raw pre u ∧
      ∀ c ∈ post.head?, letter c = false := by
  obtain ⟨l, u', r, hscan, hu', hr⟩ := h
  obtain ⟨v, rfl⟩ := reads_posWord hu'
  obtain ⟨l₀, r₀, hscan₀, rfl⟩ := hpos
  obtain rfl : l₀ = l := contiguous_unique once hscan₀ (scan_posWord hscan)
  obtain ⟨htext, hmatch⟩ := matchAt_complete hscan hu' fun c hc => (hr c hc).1
  have hfirst := hm.matchAt deterministic_posRe
  have hsuffix : u ++ post = posWord ++ v ++ r.reduceOption := by
    have heq := hm.text.symm.trans htext
    rw [List.append_assoc] at heq
    exact List.append_cancel_left heq
  rw [hsuffix, hmatch] at hfirst
  obtain ⟨rfl, rfl⟩ := Prod.mk.inj (Option.some.inj hfirst)
  obtain rfl : u = posWord ++ v := List.append_cancel_right hsuffix
  exact ⟨rfl, ⟨l₀, r, hscan, rfl⟩, fun c hc => (hr c hc).2⟩

/-- A line holds one complete report at most. -/
theorem complete_unique {raw : List UInt8} (once : AtMostOnce raw) {letter : Char → Bool}
    {X Y T X' Y' T' : Numeral} (h : Complete letter raw X Y T)
    (h' : Complete letter raw X' Y' T') : X = X' ∧ Y = Y' ∧ T = T' := by
  obtain ⟨l, u, r, hscan, hu, hr⟩ := h
  obtain ⟨v, rfl⟩ := reads_posWord hu
  obtain ⟨l', u', r', hscan', hu', hr'⟩ := h'
  obtain ⟨v', rfl⟩ := reads_posWord hu'
  obtain rfl : l = l' := contiguous_unique once (scan_posWord hscan) (scan_posWord hscan')
  obtain ⟨htext, hmatch⟩ := matchAt_complete hscan hu fun c hc => (hr c hc).1
  obtain ⟨htext', hmatch'⟩ := matchAt_complete hscan' hu' fun c hc => (hr' c hc).1
  rw [List.append_cancel_left (htext.symm.trans htext'), hmatch'] at hmatch
  have hgs := (Prod.mk.inj (Option.some.inj hmatch)).1
  simp only [List.cons.injEq, and_true] at hgs
  exact ⟨(Numeral.text_injective hgs.1).symm, (Numeral.text_injective hgs.2.1).symm,
    (Numeral.text_injective hgs.2.2).symm⟩

/-- A whole first match with numerals in its groups is a complete report. -/
theorem complete_of_contiguous {raw : List UInt8} {pre u post : List Char} {X Y T : Numeral}
    (hm : FirstMatch posRe (text raw) pre u [X.text, Y.text, T.text] post)
    (hu : Contiguous raw pre u) {letter : Char → Bool} (hpost : ∀ c ∈ post.head?, letter c = false) :
    Complete letter raw X Y T := by
  obtain ⟨l, r, hscan, rfl⟩ := hu
  obtain rfl : post = r.reduceOption := by
    have htext := hm.text
    rw [text, Utf8.decodeIgnore, hscan] at htext
    simp only [List.reduceOption_append, reduceOption_map_some] at htext
    exact (List.append_cancel_left htext).symm
  exact ⟨l, u, r, hscan, hm.reads, fun c hc => ⟨stops_posRe.mp hm.stops c hc, hpost c hc⟩⟩

/-! ## Exact acceptance -/

variable (libm : Libm) (letter : Char → Bool)

/-- The published poses are those of the complete reports of the line. -/
def AcceptsExactly (raw : List UInt8) (published : List Pose) : Prop :=
  ∀ p, p ∈ published ↔ ∃ X Y T, Complete letter raw X Y T ∧ reported libm X Y T = some p

/-- If the match that `pos_re` finds in the decoded text is read as a report, no byte was
dropped inside it and no letter follows it. Where a byte was dropped inside its `POS:`, it is
rejected on a line without a complete report, or it happens to say the same as the complete
report of the line. -/
structure FirstWhole (raw : List UInt8) (pre u : List Char) (gs : List (List Char))
    (post : List Char) : Prop where
  whole : Contiguous raw pre posWord → (groupsPose libm gs).toOption.isSome →
    Contiguous raw pre u ∧ ∀ c ∈ post.head?, letter c = false
  shadow : ¬ Contiguous raw pre posWord →
    ((groupsPose libm gs).toOption = none ∧
        ∀ X Y T, Complete letter raw X Y T → reported libm X Y T = none) ∨
      ∃ X Y T X' Y' T' p, gs = [X'.text, Y'.text, T'.text] ∧ reported libm X' Y' T' = some p ∧
        Complete letter raw X Y T ∧ reported libm X Y T = some p

/-- A match that does not stand in the bytes of the line is published as it should be exactly
if it is rejected for no report, or says the same as the report. -/
theorem accepts_iff_shadow {raw : List UInt8} (once : AtMostOnce raw) {gs : List (List Char)} :
    (∀ p, (groupsPose libm gs).toOption = some p ↔
        ∃ X Y T, Complete letter raw X Y T ∧ reported libm X Y T = some p) ↔
      ((groupsPose libm gs).toOption = none ∧
          ∀ X Y T, Complete letter raw X Y T → reported libm X Y T = none) ∨
        ∃ X Y T X' Y' T' p, gs = [X'.text, Y'.text, T'.text] ∧ reported libm X' Y' T' = some p ∧
          Complete letter raw X Y T ∧ reported libm X Y T = some p := by
  constructor
  · intro h
    cases hg : (groupsPose libm gs).toOption with
    | none =>
      refine .inl ⟨rfl, fun X Y T hcomplete => ?_⟩
      by_contra hne
      obtain ⟨p, hp⟩ := Option.ne_none_iff_exists'.mp hne
      have hsome := (h p).mpr ⟨X, Y, T, hcomplete, hp⟩
      simp [hg] at hsome
    | some p =>
      obtain ⟨X', Y', T', hgs, hread⟩ := groupsPose_eq_some_iff.mp hg
      obtain ⟨X, Y, T, hcomplete, hrep⟩ := (h p).mp hg
      exact .inr ⟨X, Y, T, X', Y', T', p, hgs, hread, hcomplete, hrep⟩
  · rintro (⟨hnone, hquiet⟩ | ⟨X, Y, T, X', Y', T', p, rfl, hread, hcomplete, hrep⟩) q
    · refine iff_of_false (by simp [hnone]) ?_
      rintro ⟨X, Y, T, hcomplete, hrep⟩
      simp [hquiet X Y T hcomplete] at hrep
    · rw [groupsPose_texts, hread]
      constructor
      · intro hpq
        exact ⟨X, Y, T, hcomplete, hrep.trans hpq⟩
      · rintro ⟨X₁, Y₁, T₁, hcomplete₁, hrep₁⟩
        obtain ⟨rfl, rfl, rfl⟩ := complete_unique once hcomplete hcomplete₁
        exact hrep.symm.trans hrep₁

theorem accepts_iff_of_first {raw : List UInt8} (once : AtMostOnce raw) {pre u post : List Char}
    {gs : List (List Char)} (hm : FirstMatch posRe (text raw) pre u gs post) :
    AcceptsExactly libm letter raw (poseOf libm raw).toList ↔
      FirstWhole libm letter raw pre u gs post := by
  have hsearch : search posRe (text raw) = some gs :=
    (search_eq_some_iff_firstMatch deterministic_posRe).mpr ⟨pre, u, post, hm⟩
  have hpose : poseOf libm raw = (groupsPose libm gs).toOption := by
    simp only [text] at hsearch
    simp [poseOf, hsearch]
  simp only [AcceptsExactly, Option.mem_toList, hpose]
  by_cases hpos : Contiguous raw pre posWord
  · constructor
    · intro h
      refine ⟨fun _ hsome => ?_, fun hno => absurd hpos hno⟩
      obtain ⟨p, hp⟩ := Option.isSome_iff_exists.mp hsome
      obtain ⟨X, Y, T, hcomplete, -⟩ := (h p).mp hp
      exact (complete_of_first once hm hpos hcomplete).2
    · rintro ⟨hwhole, -⟩ p
      constructor
      · intro hp
        obtain ⟨hu, hpost⟩ := hwhole hpos (by simp [hp])
        obtain ⟨X, Y, T, rfl, hrep⟩ := groupsPose_eq_some_iff.mp hp
        exact ⟨X, Y, T, complete_of_contiguous hm hu hpost, hrep⟩
      · rintro ⟨X, Y, T, hcomplete, hrep⟩
        exact groupsPose_eq_some_iff.mpr
          ⟨X, Y, T, (complete_of_first once hm hpos hcomplete).1, hrep⟩
  · constructor
    · intro h
      exact ⟨fun hyes => absurd hyes hpos, fun _ => (accepts_iff_shadow libm letter once).mp h⟩
    · intro h
      exact (accepts_iff_shadow libm letter once).mpr (h.shadow hpos)

/-- A line without a match has no complete report. -/
theorem accepts_of_no_match {raw : List UInt8} (hsearch : search posRe (text raw) = none) :
    AcceptsExactly libm letter raw (poseOf libm raw).toList := by
  have hpose : poseOf libm raw = none := by
    simp only [text] at hsearch
    simp [poseOf, hsearch]
  intro p
  rw [hpose]
  refine iff_of_false (by simp) ?_
  rintro ⟨X, Y, T, ⟨l, u, r, hscan, hu, hr⟩, -⟩
  obtain ⟨htext, hmatch⟩ := matchAt_complete hscan hu fun c hc => (hr c hc).1
  have hnone := search_eq_none_iff.mp hsearch _ _ htext
  rw [hmatch] at hnone
  simp at hnone

theorem afterLine_poses {n : SerialBridgeNode} (now : Stamp) (raw : List UInt8) (ready : Ready n) :
    posesOf (newEvents n (n.afterLine libm now raw)) = (poseOf libm raw).toList := by
  rw [newEvents_of_log (afterLine_effect libm now raw ready).log, posesOf_lineMessages]

theorem atMostOnce_of_at {raw : List UInt8} (k : ℕ)
    (h : ∀ i < raw.length + 1, (Utf8.bytes posWord).isPrefixOf (raw.drop i) = true → i = k) :
    AtMostOnce raw := by
  have hat : ∀ p s, raw = p ++ Utf8.bytes posWord ++ s → p.length = k := by
    rintro p s hraw
    refine h p.length (by rw [hraw]; simp) ?_
    rw [hraw, List.append_assoc, List.drop_left, List.isPrefixOf_iff_prefix]
    exact List.prefix_append ..
  intro p s p' s' hp hp'
  have hlen : p.length = p'.length := (hat p s hp).trans (hat p' s' hp').symm
  have heq := hp.symm.trans hp'
  rw [List.append_assoc, List.append_assoc] at heq
  exact (List.append_inj heq hlen).1

/-- `POS: x = 1 y = 2 theta = 1.5e3` -/
def exponentLine : List UInt8 :=
  reportLine.dropLast.dropLast ++ Utf8.bytes ['1', '.', '5', 'e', '3', '\n']

end TitanRobot.Bridge
