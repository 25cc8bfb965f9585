import Mathlib

/-!
# Grids in row-major memory

A grid of width `w` is a list in which the cell `(x, y)` has the number `y * w + x`. A loop over
the rows of a rectangle, or over the cells of a row, is told by what becomes of each element: those
of the rectangle are rewritten, the others stay. `none` is an access outside the memory.
-/
namespace TitanRobot.Grid

variable {α : Type}

/-- The `n` elements from number `d` on. -/
def Span (d n j : ℕ) : Prop := d ≤ j ∧ j < d + n

instance (d n j : ℕ) : Decidable (Span d n j) := inferInstanceAs (Decidable (_ ∧ _))

/-- The elements of a rectangle of `n` columns and `m` rows with the corner `(x, y)`. -/
def Rect (w x y n m j : ℕ) : Prop := Span x n (j % w) ∧ Span y m (j / w)

instance (w x y n m j : ℕ) : Decidable (Rect w x y n m j) := inferInstanceAs (Decidable (_ ∧ _))

/-- `memcpy` of `n` elements; copying nothing touches no memory. -/
def memcpy (dest : List α) (d : ℕ) (src : List α) (s n : ℕ) : Option (List α) :=
  if n = 0 ∨ d + n ≤ dest.length ∧ s + n ≤ src.length then
    some (dest.take d ++ (src.drop s).take n ++ dest.drop (d + n))
  else none

/-- `memset` of `n` elements. -/
def memset (dest : List α) (d : ℕ) (v : α) (n : ℕ) : Option (List α) :=
  if n = 0 ∨ d + n ≤ dest.length then
    some (dest.take d ++ List.replicate n v ++ dest.drop (d + n))
  else none

/-- An assignment to one element. -/
def assign (dest : List α) (d : ℕ) (f : α → α) : Option (List α) :=
  if d < dest.length then some (dest.modify d f) else none

/-! ## What becomes of each element -/

/-- The span of a row, told by columns and rows. -/
theorem span_row_iff {w x n y j : ℕ} (h : x + n ≤ w) :
    Span (y * w + x) n j ↔ Span x n (j % w) ∧ j / w = y := by
  have hdiv := Nat.div_add_mod j w
  rw [mul_comm] at hdiv
  have hrow : Span (y * w + x) n j → j / w = y := by
    rintro ⟨hlo, hhi⟩
    refine Nat.div_eq_of_lt_le (by omega) ?_
    rw [Nat.succ_mul]
    omega
  constructor
  · intro hspan
    obtain ⟨hlo, hhi⟩ := hspan
    have hy := hrow ⟨hlo, hhi⟩
    rw [hy] at hdiv
    exact ⟨⟨by omega, by omega⟩, hy⟩
  · rintro ⟨⟨hlo, hhi⟩, rfl⟩
    exact ⟨by omega, by omega⟩

/-- The number of a cell tells its column and its row. -/
theorem number_mod {w x y : ℕ} (h : x < w) : (y * w + x) % w = x := by
  rw [Nat.mul_add_mod_self_right, Nat.mod_eq_of_lt h]

theorem number_div {w x y : ℕ} (h : x < w) : (y * w + x) / w = y :=
  Nat.div_eq_of_lt_le (by omega) (by rw [Nat.succ_mul]; omega)

theorem number_lt {w h x y : ℕ} (hx : x < w) (hy : y < h) : y * w + x < w * h := by
  have hle : (y + 1) * w ≤ h * w := Nat.mul_le_mul_right w hy
  rw [Nat.succ_mul, mul_comm h] at hle
  omega

/-- Each row of a rectangle lies in memory that has its last one. -/
theorem row_le {x y w n k len : ℕ} (hx : x + n ≤ w) (hy : (y + k) * w ≤ len) :
    ∀ i < k, (y + i) * w + x + n ≤ len := by
  intro i hi
  have hle : (y + i + 1) * w ≤ (y + k) * w := Nat.mul_le_mul_right w (by omega)
  rw [Nat.succ_mul] at hle
  omega

/-- The pieces of a list around a span, with something of the same length in between. -/
theorem splice_eq {dest mid : List α} {d : ℕ} (hd : d + mid.length ≤ dest.length) :
    dest.take d ++ mid ++ dest.drop (d + mid.length) =
      dest.mapIdx fun j a => if Span d mid.length j then (mid[j - d]?).getD a else a := by
  apply List.ext_getElem?
  intro j
  have htake : (dest.take d).length = d := List.length_take_of_le (by omega)
  rw [List.append_assoc, List.getElem?_mapIdx]
  rcases lt_or_ge j d with hj | hj
  · rw [List.getElem?_append_left (by omega), List.getElem?_take_of_lt hj]
    simp [Span, not_le.mpr hj]
  · rw [List.getElem?_append_right (by omega), htake]
    rcases lt_or_ge (j - d) mid.length with hm | hm
    · have hlt : j < dest.length := by omega
      rw [List.getElem?_append_left hm]
      simp [Span, hj, show j < d + mid.length by omega, hm, hlt]
    · rw [List.getElem?_append_right hm, List.getElem?_drop]
      have hsum : d + mid.length + (j - d - mid.length) = j := by omega
      simp [Span, hsum, show ¬ j < d + mid.length by omega]

theorem memcpy_eq {dest src : List α} {d s n : ℕ} (hd : d + n ≤ dest.length)
    (hs : s + n ≤ src.length) :
    memcpy dest d src s n =
      some (dest.mapIdx fun j a => if Span d n j then (src[s + (j - d)]?).getD a else a) := by
  have hlen : ((src.drop s).take n).length = n := by
    simp
    omega
  have hsplice := @splice_eq α dest ((src.drop s).take n) d (by omega)
  rw [hlen] at hsplice
  rw [memcpy, if_pos (Or.inr ⟨hd, hs⟩), hsplice]
  congr 2
  funext j a
  split_ifs with hj
  · rw [List.getElem?_take_of_lt (by unfold Span at hj; omega), List.getElem?_drop]
  · rfl

theorem memset_eq {dest : List α} {d n : ℕ} {v : α} (hd : d + n ≤ dest.length) :
    memset dest d v n = some (dest.mapIdx fun j a => if Span d n j then v else a) := by
  have hsplice := @splice_eq α dest (List.replicate n v) d (by simpa using hd)
  rw [List.length_replicate] at hsplice
  rw [memset, if_pos (Or.inr hd), hsplice]
  congr 2
  funext j a
  split_ifs with hj
  · rw [List.getElem?_replicate_of_lt (by unfold Span at hj; omega)]
    rfl
  · rfl

theorem assign_eq {dest : List α} {d : ℕ} {f : α → α} (hd : d < dest.length) :
    assign dest d f = some (dest.mapIdx fun j a => if j = d then f a else a) := by
  rw [assign, if_pos hd]
  congr 1
  apply List.ext_getElem?
  intro j
  rw [List.getElem?_mapIdx, List.getElem?_modify]
  grind

/-! ## Loops -/

/-- A loop each step of which rewrites the elements that no other step touches. -/
theorem foldlM_mapIdx {body : List α → ℕ → Option (List α)} {P : ℕ → ℕ → Prop}
    [∀ i j, Decidable (P i j)] {v : ℕ → ℕ → α → α} {l : List α} {m : ℕ}
    (hbody : ∀ i < m, ∀ l' : List α, l'.length = l.length →
      body l' i = some (l'.mapIdx fun j a => if P i j then v i j a else a))
    (row : ℕ → ℕ) (hrow : ∀ i < m, ∀ j, P i j → row j = i) :
    (List.range m).foldlM body l =
      some (l.mapIdx fun j a => if row j < m ∧ P (row j) j then v (row j) j a else a) := by
  induction m with
  | zero =>
    have hid : (l.mapIdx fun j a => if row j < 0 ∧ P (row j) j then v (row j) j a else a) = l := by
      apply List.ext_getElem?
      simp
    rw [hid]
    rfl
  | succ m ih =>
    rw [List.range_succ, List.foldlM_append, ih (fun i hi => hbody i (by omega))
      (fun i hi => hrow i (by omega))]
    simp only [List.foldlM_cons, List.foldlM_nil, Option.bind_eq_bind, Option.bind_some]
    rw [hbody m (by omega) _ (by simp), Option.bind_some, List.mapIdx_mapIdx]
    change some _ = some _
    congr 2
    funext j a
    by_cases hm : P m j
    · obtain hj := hrow m (by omega) j hm
      simp [hj, hm]
    · have hiff : (row j < m + 1 ∧ P (row j) j) ↔ (row j < m ∧ P (row j) j) := by
        refine and_congr_left fun hp => ?_
        have hne : row j ≠ m := fun heq => hm (heq ▸ hp)
        omega
      rw [Function.comp_apply, if_neg hm, if_congr hiff rfl rfl]

/-- A loop over the rows of a rectangle: what the body does to a span of one row, the loop does to
the rectangle. -/
theorem foldlM_rows {body : List α → ℕ → Option (List α)} {v : ℕ → ℕ → α → α} {l : List α}
    {w x y n m : ℕ} (hx : x + n ≤ w)
    (hbody : ∀ i < m, ∀ l' : List α, l'.length = l.length → body l' i =
      some (l'.mapIdx fun j a => if Span ((y + i) * w + x) n j then v i j a else a)) :
    (List.range m).foldlM body l =
      some (l.mapIdx fun j a => if Rect w x y n m j then v (j / w - y) j a else a) := by
  rw [foldlM_mapIdx hbody (fun j => j / w - y)]
  · congr 2
    funext j a
    refine if_congr ?_ rfl rfl
    rw [span_row_iff hx]
    simp only [Rect, Span]
    omega
  · intro i _ j hj
    have := ((span_row_iff hx).mp hj).2
    omega

/-- A loop over the elements of a span. -/
theorem foldlM_span {body : List α → ℕ → Option (List α)} {v : ℕ → ℕ → α → α} {l : List α}
    {d n : ℕ} (hbody : ∀ i < n, ∀ l' : List α, l'.length = l.length → body l' i =
      some (l'.mapIdx fun j a => if j = d + i then v i j a else a)) :
    (List.range n).foldlM body l =
      some (l.mapIdx fun j a => if Span d n j then v (j - d) j a else a) := by
  rw [foldlM_mapIdx hbody (fun j => j - d)]
  · congr 2
    funext j a
    refine if_congr ?_ rfl rfl
    simp only [Span]
    omega
  · intro i _ j hj
    omega

/-! ## Lengths -/

theorem length_memcpy {dest src l : List α} {d s n : ℕ} (h : memcpy dest d src s n = some l) :
    l.length = dest.length := by
  unfold memcpy at h
  split_ifs at h with hn
  obtain rfl := Option.some.inj h
  simp only [List.length_append, List.length_take, List.length_drop]
  omega

theorem length_memset {dest l : List α} {d n : ℕ} {v : α} (h : memset dest d v n = some l) :
    l.length = dest.length := by
  unfold memset at h
  split_ifs at h with hn
  obtain rfl := Option.some.inj h
  simp only [List.length_append, List.length_take, List.length_drop, List.length_replicate]
  omega

theorem length_assign {dest l : List α} {d : ℕ} {f : α → α} (h : assign dest d f = some l) :
    l.length = dest.length := by
  unfold assign at h
  split_ifs at h with hd
  obtain rfl := Option.some.inj h
  simp

theorem length_foldlM {ι : Type} {body : List α → ι → Option (List α)}
    (hbody : ∀ i l l', body l i = some l' → l'.length = l.length) {is : List ι} {l l' : List α}
    (h : is.foldlM body l = some l') : l'.length = l.length := by
  induction is generalizing l with
  | nil =>
    obtain rfl := Option.some.inj h
    rfl
  | cons i is ih =>
    obtain ⟨mid, hmid, hrest⟩ := Option.bind_eq_some_iff.mp (List.foldlM_cons.symm.trans h)
    exact (ih hrest).trans (hbody i l mid hmid)

/-- A loop with steps that keep the length is defined if each of them is. -/
theorem foldlM_isSome_iff {ι : Type} {body : List α → ι → Option (List α)} {D : ι → ℕ → Prop}
    (hbody : ∀ i l, (body l i).isSome ↔ D i l.length)
    (hlen : ∀ i l l', body l i = some l' → l'.length = l.length) {is : List ι} {l : List α} :
    (is.foldlM body l).isSome ↔ ∀ i ∈ is, D i l.length := by
  induction is generalizing l with
  | nil => simp
  | cons i is ih =>
    rw [List.foldlM_cons, List.forall_mem_cons, ← hbody i l]
    cases hstep : body l i with
    | none => simp
    | some l' =>
      rw [← hlen i l l' hstep]
      simpa using ih

/-! ## Rectangles filled from elsewhere -/

/-- The loops that fill a rectangle with what is read from elsewhere. -/
def fill (read : ℕ → ℕ → Option α) (number : ℕ → ℕ → ℕ) (n m : ℕ) (dest : List α) :
    Option (List α) :=
  (List.range m).foldlM (fun dest i => (List.range n).foldlM (fun dest j => do
    let v ← read i j
    assign dest (number i j) fun _ => v) dest) dest

section
variable {read : ℕ → ℕ → Option α} {number : ℕ → ℕ → ℕ} {n m : ℕ} {dest : List α}

theorem length_fill {l : List α} (h : fill read number n m dest = some l) :
    l.length = dest.length := by
  refine length_foldlM (fun _ _ _ => length_foldlM fun _ _ _ hstep => ?_) h
  obtain ⟨v, -, hassign⟩ := Option.bind_eq_some_iff.mp hstep
  exact length_assign hassign

theorem fill_empty (h : n = 0 ∨ m = 0) : fill read number n m dest = some dest := by
  rcases h with rfl | rfl
  · have hskip : ∀ is : List ℕ, is.foldlM (fun dest i => (List.range 0).foldlM (fun dest j => do
        let v ← read i j
        assign dest (number i j) fun _ => v) dest) dest = some dest := by
      intro is
      induction is with
      | nil => rfl
      | cons i is ih => exact ih
    exact hskip (List.range m)
  · rfl

/-- The loops are defined if everything that they read and write is there. -/
theorem fill_isSome_iff : (fill read number n m dest).isSome ↔
    ∀ i < m, ∀ j < n, (read i j).isSome ∧ number i j < dest.length := by
  have hcell : ∀ i j (l : List α),
      (read i j >>= fun v => assign l (number i j) fun _ => v).isSome ↔
        (read i j).isSome ∧ number i j < l.length := by
    intro i j l
    cases hread : read i j <;> simp [assign]
  have hlen : ∀ i j (l l' : List α),
      (read i j >>= fun v => assign l (number i j) fun _ => v) = some l' →
        l'.length = l.length := by
    intro i j l l' hstep
    obtain ⟨v, -, hassign⟩ := Option.bind_eq_some_iff.mp hstep
    exact length_assign hassign
  have hrow : ∀ i (l : List α), ((List.range n).foldlM (fun l j => do
      let v ← read i j
      assign l (number i j) fun _ => v) l).isSome ↔
        ∀ j ∈ List.range n, (read i j).isSome ∧ number i j < l.length :=
    fun i l => foldlM_isSome_iff (D := fun j len => (read i j).isSome ∧ number i j < len)
      (hcell i) (hlen i)
  rw [fill, foldlM_isSome_iff
    (D := fun i len => ∀ j ∈ List.range n, (read i j).isSome ∧ number i j < len) hrow
    fun i l l' => length_foldlM fun j l l' => hlen i j l l']
  simp only [List.mem_range]

/-- What is read fills the rectangle. -/
theorem fill_eq {w x y : ℕ} {v : ℕ → ℕ → α} (hx : x + n ≤ w) (hy : (y + m) * w ≤ dest.length)
    (hread : ∀ i < m, ∀ j < n, read i j = some (v i j))
    (hnumber : ∀ i < m, ∀ j < n, number i j = (y + i) * w + x + j) :
    fill read number n m dest = some (dest.mapIdx fun k a =>
      if Rect w x y n m k then v (k / w - y) (k % w - x) else a) := by
  have hloop := @foldlM_rows α (fun dest i => (List.range n).foldlM (fun dest j => do
      let v ← read i j
      assign dest (number i j) fun _ => v) dest)
    (fun i k _ => v i (k - ((y + i) * w + x))) dest w x y n m hx ?_
  · rw [fill, hloop]
    congr 2
    funext k a
    split_ifs with hk
    · obtain ⟨⟨hlo, -⟩, hrow, -⟩ := hk
      have hdiv := Nat.div_add_mod k w
      rw [mul_comm] at hdiv
      rw [Nat.add_sub_cancel' hrow]
      congr 1
      omega
    · rfl
  · intro i hi l hl
    refine foldlM_span (v := fun j _ _ => v i j) fun j hj l' hl' => ?_
    have hmem := row_le hx hy i hi
    rw [hread i hi j hj, hnumber i hi j hj]
    exact assign_eq (by omega)

/-- A whole grid filled from another one. -/
theorem fill_grid [Inhabited α] {β : Type} {f : β → α} {src : List β} {w h : ℕ}
    (hsrc : src.length = w * h) (hdest : dest.length = w * h) :
    fill (fun i j => (src[i * w + j]?).map f) (fun i j => i * w + j) w h dest =
      some (src.map f) := by
  rw [fill_eq (x := 0) (y := 0) (w := w)
    (v := fun i j => ((src[i * w + j]?).map f).getD default) (by omega)
    (by rw [hdest, Nat.zero_add, mul_comm])]
  · congr 1
    apply List.ext_getElem?
    intro k
    rw [List.getElem?_mapIdx, List.getElem?_map]
    rcases lt_or_ge k (w * h) with hk | hk
    · have hw : 0 < w := Nat.pos_of_mul_pos_right (Nat.zero_lt_of_lt hk)
      have hx := Nat.mod_lt k hw
      have hy := Nat.div_lt_of_lt_mul hk
      have hnumber : k / w * w + k % w = k := by
        rw [mul_comm]
        exact Nat.div_add_mod k w
      have hrect : Rect w 0 0 w h k :=
        ⟨⟨Nat.zero_le _, by rwa [Nat.zero_add]⟩, Nat.zero_le _, by rwa [Nat.zero_add]⟩
      have hk' : k < dest.length := by omega
      have hk'' : k < src.length := by omega
      rw [List.getElem?_eq_getElem hk', Option.map_some, if_pos hrect, Nat.sub_zero, Nat.sub_zero,
        hnumber, List.getElem?_eq_getElem hk'']
      rfl
    · have hk' : dest.length ≤ k := by omega
      have hk'' : src.length ≤ k := by omega
      rw [List.getElem?_eq_none hk', List.getElem?_eq_none hk'']
      rfl
  · intro i hi j hj
    have hread := number_lt hj hi
    rw [List.getElem?_eq_getElem (by omega)]
    rfl
  · intro i hi j hj
    rw [Nat.zero_add, Nat.add_zero]

end

/-! ## Rows put together -/

theorem mapM_eq_some {β : Type} {f : α → Option β} {g : α → β} {l : List α} (h : ∀ a ∈ l, f a = some (g a)) :
    l.mapM f = some (l.map g) := by
  induction l with
  | nil => rfl
  | cons a l ih =>
    obtain ⟨ha, hl⟩ := List.forall_mem_cons.mp h
    rw [List.mapM_cons, ha, ih hl]
    rfl

/-- Rows of equal length, one after the other, are a grid. -/
theorem getElem?_rows (f : ℕ → ℕ → α) {w h x y : ℕ} (hx : x < w) (hy : y < h) :
    ((List.range h).map fun j => (List.range w).map (f j)).flatten[y * w + x]? = some (f y x) := by
  have hlength : ∀ h, ((List.range h).map fun j => (List.range w).map (f j)).flatten.length =
      h * w := by
    intro h
    simp [List.length_flatten, Function.comp_def]
  induction h with
  | zero => omega
  | succ h ih =>
    rw [List.range_succ, List.map_append, List.flatten_append]
    rcases Nat.lt_succ_iff_lt_or_eq.mp hy with hlt | rfl
    · have hnumber := number_lt hx hlt
      rw [List.getElem?_append_left (by rw [hlength]; exact hnumber.trans_eq (mul_comm w h))]
      exact ih hlt
    · rw [List.getElem?_append_right (by rw [hlength]; omega), hlength]
      simp [hx]

end TitanRobot.Grid
