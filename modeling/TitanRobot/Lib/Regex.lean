import Mathlib

/-!
# Sequential patterns with greedy runs

A pattern is a sequence of items: one character of a class, a run of a class, or a
captured non-empty run. `matchAt` is the backtracking matcher of a regular expression
engine: a run takes as much as it can and gives characters back while the rest fails.
`Reads` is the language of a pattern. Where each run is followed by an item that refuses
its class, no character is ever given back, and `matchAt_eq_some_iff` says that the
matcher finds exactly the readings whose last run is taken to its end.
-/
namespace TitanRobot.Regex

variable {α β : Type}

inductive Item (α : Type) where
  | one (p : α → Bool)
  | star (p : α → Bool)
  | group (p : α → Bool)

/-- The longest run first, then one character less each time the continuation fails. -/
def greedy (p : α → Bool) (k : List α → List α → Option β) (run : List α) : List α → Option β
  | [] => k run []
  | c :: s => if p c then (greedy p k (run ++ [c]) s).or (k run (c :: s)) else k run (c :: s)

/-- The captured groups and the text after the match. -/
def matchAt : List (Item α) → List α → Option (List (List α) × List α)
  | [], s => some ([], s)
  | .one _ :: _, [] => none
  | .one p :: is, c :: s => if p c then matchAt is s else none
  | .star p :: is, s => greedy p (fun _ rest => matchAt is rest) [] s
  | .group p :: is, s =>
    greedy p (fun run rest =>
      if run.isEmpty then none else (matchAt is rest).map fun m => (run :: m.1, m.2)) [] s

/-- The groups of the leftmost match. -/
def search (is : List (Item α)) : List α → Option (List (List α))
  | [] => (matchAt is []).map Prod.fst
  | c :: s =>
    match matchAt is (c :: s) with
    | some m => some m.1
    | none => search is s

inductive Reads : List (Item α) → List α → List (List α) → Prop where
  | nil : Reads [] [] []
  | one {p is c u gs} : p c → Reads is u gs → Reads (.one p :: is) (c :: u) gs
  | star {p is run u gs} : (∀ c ∈ run, p c) → Reads is u gs →
      Reads (.star p :: is) (run ++ u) gs
  | group {p is run u gs} : run ≠ [] → (∀ c ∈ run, p c) → Reads is u gs →
      Reads (.group p :: is) (run ++ u) (run :: gs)

/-- No match of `is` begins with a character of the class. -/
def Refuses (p : α → Bool) : List (Item α) → Prop
  | [] => False
  | .one q :: _ => ∀ c, p c → q c = false
  | .star q :: is => (∀ c, p c → q c = false) ∧ Refuses p is
  | .group q :: _ => ∀ c, p c → q c = false

def Deterministic : List (Item α) → Prop
  | [] => True
  | .one _ :: is => Deterministic is
  | .star p :: is => (is = [] ∨ Refuses p is) ∧ Deterministic is
  | .group p :: is => (is = [] ∨ Refuses p is) ∧ Deterministic is

/-- A run at the very end of the pattern is not followed by more of its class. -/
def Stops : List (Item α) → List α → Prop
  | [], _ => True
  | .one _ :: is, rest => Stops is rest
  | .star p :: is, rest => (is = [] → ∀ c ∈ rest.head?, p c = false) ∧ Stops is rest
  | .group p :: is, rest => (is = [] → ∀ c ∈ rest.head?, p c = false) ∧ Stops is rest

/-! ## Greedy runs -/

theorem greedy_exact {p : α → Bool} {k : List α → List α → Option β}
    (hk : ∀ run c s, p c → k run (c :: s) = none) (run s : List α) :
    greedy p k run s = k (run ++ s.takeWhile p) (s.dropWhile p) := by
  induction s generalizing run with
  | nil => simp [greedy]
  | cons c s ih =>
    by_cases hc : p c
    · simp [greedy, hc, ih, hk run c s hc]
    · simp [greedy, hc]

theorem greedy_longest {p : α → Bool} {k : List α → List α → Option β} {run s : List α}
    (hk : (k (run ++ s.takeWhile p) (s.dropWhile p)).isSome) :
    greedy p k run s = k (run ++ s.takeWhile p) (s.dropWhile p) := by
  induction s generalizing run with
  | nil => simp [greedy]
  | cons c s ih =>
    by_cases hc : p c
    · have hrest : greedy p k (run ++ [c]) s =
          k (run ++ [c] ++ s.takeWhile p) (s.dropWhile p) := ih (by simpa [hc] using hk)
      simp only [hc, List.takeWhile_cons_of_pos, List.dropWhile_cons_of_pos] at hk
      rw [greedy, if_pos hc, hrest, Option.or_of_isSome (by simpa using hk)]
      simp [hc]
    · simp [greedy, hc]

theorem greedy_refused {p : α → Bool} {k : List α → List α → Option β} {c : α} {s : List α}
    (hc : p c = false) (run : List α) : greedy p k run (c :: s) = k run (c :: s) := by
  simp [greedy, hc]

theorem matchAt_refused {p : α → Bool} {is : List (Item α)} (h : Refuses p is) {c : α}
    (hc : p c) (s : List α) : matchAt is (c :: s) = none := by
  induction is with
  | nil => exact h.elim
  | cons i is ih =>
    cases i with
    | one q => simp [matchAt, h c hc]
    | star q => simp only [matchAt, greedy_refused (h.1 c hc), ih h.2]
    | group q => simp [matchAt, greedy_refused (h c hc)]

theorem matchAt_star {p : α → Bool} {is : List (Item α)} (h : is = [] ∨ Refuses p is)
    (s : List α) : matchAt (.star p :: is) s = matchAt is (s.dropWhile p) := by
  rcases h with rfl | h
  · exact greedy_longest (by simp [matchAt])
  · exact greedy_exact (fun run c t hc => matchAt_refused h hc t) [] s

theorem matchAt_group {p : α → Bool} {is : List (Item α)} (h : is = [] ∨ Refuses p is)
    (s : List α) :
    matchAt (.group p :: is) s = if (s.takeWhile p).isEmpty then none
      else (matchAt is (s.dropWhile p)).map fun m => (s.takeWhile p :: m.1, m.2) := by
  rcases h with rfl | h
  · cases s with
    | nil => simp [matchAt, greedy]
    | cons c s =>
      by_cases hc : p c
      · exact greedy_longest (by simp [matchAt, hc])
      · simp [matchAt, greedy, hc]
  · refine greedy_exact (fun run c t hc => ?_) [] s
    simp [matchAt_refused h hc t]

/-! ## The matcher finds the language -/

theorem head_not_of_next {p : α → Bool} {is : List (Item α)} {s rest : List α}
    {gs : List (List α)} (h : is = [] ∨ Refuses p is) (hs : matchAt is s = some (gs, rest))
    (hstop : is = [] → ∀ c ∈ rest.head?, p c = false) : ∀ c ∈ s.head?, p c = false := by
  intro c hc
  rcases h with rfl | h
  · simp only [matchAt, Option.some.injEq, Prod.mk.injEq] at hs
    exact hstop rfl c (hs.2 ▸ hc)
  · cases s with
    | nil => simp at hc
    | cons d s =>
      obtain rfl : d = c := by simpa using hc
      by_contra hp
      rw [matchAt_refused h (by simpa using hp)] at hs
      simp at hs

theorem dropWhile_of_head {p : α → Bool} {s : List α} (h : ∀ c ∈ s.head?, p c = false) :
    s.dropWhile p = s ∧ s.takeWhile p = [] := by
  cases s with
  | nil => simp
  | cons c s => simp [h c (by simp)]

theorem dropWhile_head {p : α → Bool} (s : List α) :
    ∀ c ∈ (s.dropWhile p).head?, p c = false := by
  intro c hc
  have h := List.head?_dropWhile_not p s
  rwa [Option.mem_def.mp hc] at h

theorem matchAt_eq_some_iff {is : List (Item α)} (det : Deterministic is) {s rest : List α}
    {gs : List (List α)} :
    matchAt is s = some (gs, rest) ↔ ∃ u, s = u ++ rest ∧ Reads is u gs ∧ Stops is rest := by
  induction is generalizing s gs with
  | nil =>
    simp only [matchAt, Option.some.injEq, Prod.mk.injEq]
    constructor
    · rintro ⟨rfl, rfl⟩
      exact ⟨[], rfl, .nil, trivial⟩
    · rintro ⟨_, rfl, ⟨⟩, -⟩
      exact ⟨rfl, rfl⟩
  | cons i is ih =>
    cases i with
    | one p =>
      constructor
      · intro h
        cases s with
        | nil => simp [matchAt] at h
        | cons c s =>
          simp only [matchAt, Option.ite_none_right_eq_some] at h
          obtain ⟨u, rfl, hu, hstop⟩ := (ih det).mp h.2
          exact ⟨c :: u, rfl, .one h.1 hu, hstop⟩
      · rintro ⟨_, rfl, hu, hstop⟩
        cases hu with
        | one hc hu => simpa [matchAt, hc] using (ih det).mpr ⟨_, rfl, hu, hstop⟩
    | star p =>
      rw [matchAt_star det.1]
      constructor
      · intro h
        obtain ⟨u, hu, hr, hstop⟩ := (ih det.2).mp h
        refine ⟨s.takeWhile p ++ u, ?_, .star (fun c => List.mem_takeWhile_imp) hr, ?_, hstop⟩
        · rw [List.append_assoc, ← hu, List.takeWhile_append_dropWhile]
        · rintro rfl
          cases hr
          rw [List.nil_append] at hu
          exact hu ▸ dropWhile_head s
      · rintro ⟨_, rfl, hu, hlast, hstop⟩
        cases hu with
        | star hrun hu =>
          have hm := (ih det.2).mpr ⟨_, rfl, hu, hstop⟩
          have hhead := dropWhile_of_head (head_not_of_next det.1 hm hlast)
          rw [List.append_assoc, List.dropWhile_append_of_pos hrun, hhead.1, hm]
    | group p =>
      rw [matchAt_group det.1]
      constructor
      · intro h
        split at h
        · simp at h
        · rename_i hne
          obtain ⟨⟨gs', _⟩, hm, heq⟩ := Option.map_eq_some_iff.mp h
          obtain ⟨rfl, rfl⟩ := Prod.mk.inj heq
          obtain ⟨u, hu, hr, hstop⟩ := (ih det.2).mp hm
          refine ⟨s.takeWhile p ++ u, ?_, .group (by simpa using hne)
            (fun c => List.mem_takeWhile_imp) hr, ?_, hstop⟩
          · rw [List.append_assoc, ← hu, List.takeWhile_append_dropWhile]
          · rintro rfl
            cases hr
            rw [List.nil_append] at hu
            exact hu ▸ dropWhile_head s
      · rintro ⟨_, rfl, hu, hlast, hstop⟩
        cases hu with
        | group hne hrun hu =>
          have hm := (ih det.2).mpr ⟨_, rfl, hu, hstop⟩
          have hhead := dropWhile_of_head (head_not_of_next det.1 hm hlast)
          rw [List.append_assoc, List.dropWhile_append_of_pos hrun,
            List.takeWhile_append_of_pos hrun, hhead.1, hhead.2, hm]
          simpa using hne

/-! ## Readings -/

theorem reads_append {is js : List (Item α)} {u : List α} {gs : List (List α)} :
    Reads (is ++ js) u gs ↔ ∃ u₁ u₂ gs₁ gs₂, u = u₁ ++ u₂ ∧ gs = gs₁ ++ gs₂ ∧
      Reads is u₁ gs₁ ∧ Reads js u₂ gs₂ := by
  constructor
  · intro h
    induction is generalizing u gs with
    | nil => exact ⟨[], u, [], gs, rfl, rfl, .nil, h⟩
    | cons i is ih =>
      cases h with
      | @one _ _ c _ _ hc h =>
        obtain ⟨u₁, u₂, gs₁, gs₂, rfl, rfl, h₁, h₂⟩ := ih h
        exact ⟨c :: u₁, u₂, gs₁, gs₂, rfl, rfl, .one hc h₁, h₂⟩
      | @star _ _ run _ _ hrun h =>
        obtain ⟨u₁, u₂, gs₁, gs₂, rfl, rfl, h₁, h₂⟩ := ih h
        exact ⟨run ++ u₁, u₂, gs₁, gs₂, by simp, rfl, .star hrun h₁, h₂⟩
      | @group _ _ run _ _ hne hrun h =>
        obtain ⟨u₁, u₂, gs₁, gs₂, rfl, rfl, h₁, h₂⟩ := ih h
        exact ⟨run ++ u₁, u₂, run :: gs₁, gs₂, by simp, rfl, .group hne hrun h₁, h₂⟩
  · rintro ⟨u₁, u₂, gs₁, gs₂, rfl, rfl, h₁, h₂⟩
    induction h₁ with
    | nil => exact h₂
    | one hc _ ih => exact .one hc ih
    | star hrun _ ih => rw [List.append_assoc]; exact .star hrun ih
    | group hne hrun _ ih => rw [List.append_assoc]; exact .group hne hrun ih

/-- The number of captured groups. -/
def groups : List (Item α) → ℕ
  | [] => 0
  | .one _ :: is => groups is
  | .star _ :: is => groups is
  | .group _ :: is => groups is + 1

theorem Reads.length_groups {is : List (Item α)} {u : List α} {gs : List (List α)}
    (h : Reads is u gs) : gs.length = groups is := by
  induction h with
  | nil => rfl
  | one _ _ ih => exact ih
  | star _ _ ih => exact ih
  | group _ _ _ ih => simp [groups, ih]

/-! ## Search -/

/-- The leftmost match, and where it stands. -/
theorem search_eq_some_iff {is : List (Item α)} {s : List α} {gs : List (List α)} :
    search is s = some gs ↔ ∃ pre t rest, s = pre ++ t ∧ matchAt is t = some (gs, rest) ∧
      ∀ pre' t', s = pre' ++ t' → pre'.length < pre.length → matchAt is t' = none := by
  induction s with
  | nil =>
    simp only [search, Option.map_eq_some_iff, Prod.exists, exists_and_right, exists_eq_right]
    constructor
    · rintro ⟨rest, h⟩
      exact ⟨[], [], rest, rfl, h, by simp⟩
    · rintro ⟨pre, t, rest, hs, h, -⟩
      obtain ⟨-, rfl⟩ := List.append_eq_nil_iff.mp hs.symm
      exact ⟨rest, h⟩
  | cons c s ih =>
    simp only [search]
    split
    · rename_i m hm
      constructor
      · intro h
        exact ⟨[], c :: s, m.2, rfl, by rw [hm, ← Option.some.inj h], by simp⟩
      · rintro ⟨pre, t, rest, hs, h, hfirst⟩
        cases pre with
        | nil => rw [List.nil_append] at hs; subst hs; rw [hm] at h; simp_all
        | cons d pre =>
          have hnone := hfirst [] (c :: s) rfl (by simp)
          rw [hm] at hnone
          simp at hnone
    · rename_i hm
      rw [ih]
      constructor
      · rintro ⟨pre, t, rest, rfl, h, hfirst⟩
        refine ⟨c :: pre, t, rest, rfl, h, ?_⟩
        intro pre' t' hs hlt
        cases pre' with
        | nil => rw [List.nil_append] at hs; exact hs ▸ hm
        | cons d pre' =>
          obtain ⟨-, hs⟩ := List.cons_eq_cons.mp hs
          exact hfirst pre' t' hs (by simpa using hlt)
      · rintro ⟨pre, t, rest, hs, h, hfirst⟩
        cases pre with
        | nil => rw [List.nil_append] at hs; subst hs; rw [hm] at h; simp at h
        | cons d pre =>
          obtain ⟨rfl, rfl⟩ := List.cons_eq_cons.mp hs
          refine ⟨pre, t, rest, rfl, h, ?_⟩
          intro pre' t' hs' hlt
          exact hfirst (c :: pre') t' (congrArg (c :: ·) hs') (by simpa using hlt)

theorem search_eq_none_iff {is : List (Item α)} {s : List α} :
    search is s = none ↔ ∀ pre t, s = pre ++ t → matchAt is t = none := by
  induction s with
  | nil => simp [search, List.append_eq_nil_iff]
  | cons c s ih =>
    simp only [search]
    split
    · rename_i m hm
      simp only [reduceCtorEq, false_iff, not_forall]
      exact ⟨[], c :: s, rfl, by simp [hm]⟩
    · rename_i hm
      rw [ih]
      constructor
      · intro h pre t hs
        cases pre with
        | nil => rw [List.nil_append] at hs; exact hs ▸ hm
        | cons d pre => exact h pre t (List.cons_eq_cons.mp hs).2
      · intro h pre t hs
        exact h (c :: pre) t (by simp [hs])

/-- The leftmost match of the pattern: the text before it, the text matched, and the rest. -/
structure FirstMatch (is : List (Item α)) (s pre u : List α) (gs : List (List α))
    (rest : List α) : Prop where
  text : s = pre ++ u ++ rest
  reads : Reads is u gs
  stops : Stops is rest
  first : ∀ a b, s = a ++ b → a.length < pre.length → matchAt is b = none

theorem FirstMatch.matchAt {is : List (Item α)} (det : Deterministic is) {s pre u rest : List α}
    {gs : List (List α)} (h : FirstMatch is s pre u gs rest) :
    matchAt is (u ++ rest) = some (gs, rest) :=
  (matchAt_eq_some_iff det).mpr ⟨u, rfl, h.reads, h.stops⟩

theorem search_eq_some_iff_firstMatch {is : List (Item α)} (det : Deterministic is)
    {s : List α} {gs : List (List α)} :
    search is s = some gs ↔ ∃ pre u rest, FirstMatch is s pre u gs rest := by
  rw [search_eq_some_iff]
  constructor
  · rintro ⟨pre, t, rest, hs, hm, hfirst⟩
    obtain ⟨u, rfl, hu, hstop⟩ := (matchAt_eq_some_iff det).mp hm
    exact ⟨pre, u, rest, ⟨by rw [hs, List.append_assoc], hu, hstop, hfirst⟩⟩
  · rintro ⟨pre, u, rest, h⟩
    exact ⟨pre, u ++ rest, rest, by rw [h.text, List.append_assoc], h.matchAt det, h.first⟩

/-- A match at the very front is the first. -/
theorem firstMatch_of_matchAt {is : List (Item α)} (det : Deterministic is) {s rest : List α}
    {gs : List (List α)} (h : Regex.matchAt is s = some (gs, rest)) :
    ∃ u, FirstMatch is s [] u gs rest := by
  obtain ⟨u, hs, hu, hstop⟩ := (matchAt_eq_some_iff det).mp h
  exact ⟨u, hs, hu, hstop, fun a b _ hlt => absurd hlt (by simp)⟩

theorem FirstMatch.eq_of_matchAt {is : List (Item α)} (det : Deterministic is)
    {s pre u rest rest' : List α} {gs gs' : List (List α)} (h : FirstMatch is s pre u gs rest)
    (hs : Regex.matchAt is s = some (gs', rest')) : pre = [] ∧ gs = gs' ∧ rest = rest' := by
  have hpre : pre = [] := by
    by_contra hne
    have hnone := h.first [] s rfl (by simpa [List.length_pos_iff] using hne)
    rw [hs] at hnone
    simp at hnone
  have hm := h.matchAt det
  have htext := h.text
  rw [hpre, List.nil_append] at htext
  rw [← htext, hs] at hm
  obtain ⟨rfl, rfl⟩ := Prod.mk.inj (Option.some.inj hm)
  exact ⟨hpre, rfl, rfl⟩

/-! ## Characters around the text -/

/-- Characters that cannot begin a match may be cut from the front of the text. -/
theorem search_dropWhile {p q : α → Bool} {is : List (Item α)} (h : ∀ c, q c → p c = false)
    (s : List α) : search (.one p :: is) (s.dropWhile q) = search (.one p :: is) s := by
  induction s with
  | nil => rfl
  | cons c s ih =>
    by_cases hc : q c
    · rw [List.dropWhile_cons_of_pos hc, ih]
      simp [search, matchAt, h c hc]
    · simp [hc]

/-- A reading that ends in a captured run ends in a character of its class. -/
theorem Reads.getLast_group {is : List (Item α)} {q : α → Bool} {u : List α}
    {gs : List (List α)} (h : Reads (is ++ [.group q]) u gs) : ∃ v c, u = v ++ [c] ∧ q c := by
  induction is generalizing u gs with
  | nil =>
    cases h with
    | @group _ _ run _ _ hne hrun hu =>
      cases hu
      refine ⟨run.dropLast, run.getLast hne, ?_, hrun _ (List.getLast_mem hne)⟩
      rw [List.append_nil, List.dropLast_concat_getLast]
  | cons i is ih =>
    cases h with
    | @one _ _ c _ _ hc hu =>
      obtain ⟨v, d, rfl, hd⟩ := ih hu
      exact ⟨c :: v, d, rfl, hd⟩
    | @star _ _ run _ _ hrun hu =>
      obtain ⟨v, d, rfl, hd⟩ := ih hu
      exact ⟨run ++ v, d, by simp, hd⟩
    | @group _ _ run _ _ hne hrun hu =>
      obtain ⟨v, d, rfl, hd⟩ := ih hu
      exact ⟨run ++ v, d, by simp, hd⟩

theorem stops_group {is : List (Item α)} {q : α → Bool} {rest : List α} :
    Stops (is ++ [.group q]) rest ↔ ∀ c ∈ rest.head?, q c = false := by
  induction is with
  | nil => simp [Stops]
  | cons i is ih => cases i <;> simp [Stops, ih]

theorem matchAt_append {is : List (Item α)} {q : α → Bool}
    (det : Deterministic (is ++ [.group q])) {w : List α} (hw : ∀ c ∈ w, q c = false)
    (t : List α) :
    (matchAt (is ++ [.group q]) (t ++ w)).map Prod.fst =
      (matchAt (is ++ [.group q]) t).map Prod.fst := by
  ext gs
  simp only [Option.map_eq_some_iff, Prod.exists, exists_and_right, exists_eq_right,
    matchAt_eq_some_iff det, stops_group]
  constructor
  · rintro ⟨rest, u, heq, hu, hstop⟩
    obtain ⟨v, c, rfl, hc⟩ := hu.getLast_group
    rcases List.append_eq_append_iff.mp heq with ⟨w₁, hl, hr⟩ | ⟨rest', hl, hr⟩
    · rcases List.eq_nil_or_concat w₁ with rfl | ⟨w₂, d, rfl⟩
      · exact ⟨[], _, by simpa using hl.symm, hu, by simp⟩
      · have hd : c = d := by
          rw [List.concat_eq_append, ← List.append_assoc] at hl
          simpa using (List.append_inj' hl rfl).2
        have hcw := hw c (by simp [hr, hd])
        rw [hcw] at hc
        simp at hc
    · refine ⟨rest', _, hl, hu, ?_⟩
      intro c hc
      exact hstop c (by cases rest' <;> simp_all)
  · rintro ⟨rest, u, rfl, hu, hstop⟩
    refine ⟨rest ++ w, u, by simp, hu, ?_⟩
    intro c hc
    cases rest with
    | nil => exact hw c (List.mem_of_mem_head? hc)
    | cons d rest => exact hstop c (by simpa using hc)

/-- Characters outside the last captured class may be cut from the end of the text. -/
theorem search_append {is : List (Item α)} {q : α → Bool}
    (det : Deterministic (is ++ [.group q])) {w : List α} (hw : ∀ c ∈ w, q c = false)
    (s : List α) : search (is ++ [.group q]) (s ++ w) = search (is ++ [.group q]) s := by
  induction s with
  | nil =>
    have hnone : ∀ w', w' <:+ w → matchAt (is ++ [.group q]) w' = none := by
      intro w' hsuf
      have h := matchAt_append det (w := w') (fun c hc => hw c (hsuf.mem hc)) []
      have hnil : matchAt (is ++ [.group q]) [] = none := by
        rw [Option.eq_none_iff_forall_ne_some]
        rintro ⟨gs, rest⟩ hm
        obtain ⟨u, hu, hr, -⟩ := (matchAt_eq_some_iff det).mp hm
        obtain ⟨v, c, rfl, -⟩ := hr.getLast_group
        simp at hu
      simpa [hnil] using h
    have hleft : search (is ++ [.group q]) w = none :=
      search_eq_none_iff.mpr fun pre t hs => hnone t ⟨pre, hs.symm⟩
    simp [hleft, search, hnone [] (List.nil_suffix)]
  | cons c s ih =>
    have h := matchAt_append det hw (c :: s)
    simp only [List.cons_append] at h ⊢
    simp only [search, ih]
    cases hm : matchAt (is ++ [.group q]) (c :: s) <;>
      cases hm' : matchAt (is ++ [.group q]) (c :: (s ++ w)) <;> simp_all

end TitanRobot.Regex
