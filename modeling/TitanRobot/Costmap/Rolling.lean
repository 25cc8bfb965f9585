import TitanRobot.Costmap.Map

/-!
# The rolling window

`updateOrigin` moves the map over the world by whole cells. The costs of the places that stay on
the map move with them in memory, those of all others are forgotten, and this is so over any number
of moves and writes.
-/
namespace TitanRobot.Costmap
open Floating Arithmetic Grid

/-- `std::min(std::max(n, 0), size)` -/
def clamp (n : ℤ) (size : ℕ) : ℤ := min (max n 0) size

section
variable {cell : ℤ} {size : ℕ}

theorem signed_clamp (hsize : size < 2 ^ 31) (hlow : -2 ^ 31 < cell) (hhigh : cell + size < 2 ^ 31) :
    signed (cell + size) = some (cell + size) ∧
      signed (clamp cell size - cell) = some (clamp cell size - cell) := by
  unfold signed clamp
  constructor
  · rw [if_pos (by omega)]
  · rw [if_pos (by omega)]

theorem range_of_signed {up start : ℤ} (hup : signed (cell + size) = some up)
    (hstart : signed (clamp cell size - cell) = some start) :
    -2 ^ 31 < cell ∧ cell + size < 2 ^ 31 := by
  unfold signed at *
  unfold clamp at hstart
  split_ifs at hup hstart
  omega

/-- The columns that are kept, in the old map. -/
theorem kept_le (hsize : size < 2 ^ 31) :
    unsigned (clamp cell size) + unsigned (clamp (cell + size) size - clamp cell size) ≤ size := by
  unfold unsigned clamp
  omega

/-- The columns that are kept, in the new map. -/
theorem put_le (hsize : size < 2 ^ 31) (hlow : -2 ^ 31 < cell) (hhigh : cell + size < 2 ^ 31)
    (hkept : 0 < unsigned (clamp (cell + size) size - clamp cell size)) :
    unsigned (clamp cell size - cell) +
      unsigned (clamp (cell + size) size - clamp cell size) ≤ size := by
  unfold unsigned clamp at *
  omega

/-- A column is one of those kept if the old map has it, and then it is read there. -/
theorem span_kept_iff (hsize : size < 2 ^ 31) (hlow : -2 ^ 31 < cell)
    (hhigh : cell + size < 2 ^ 31) {i : ℤ} (h0 : 0 ≤ i) (hi : i < size) :
    (0 < unsigned (clamp (cell + size) size - clamp cell size) ∧
      Span (unsigned (clamp cell size - cell))
        (unsigned (clamp (cell + size) size - clamp cell size)) i.toNat) ↔
      0 ≤ i + cell ∧ i + cell < size := by
  unfold unsigned clamp Span
  omega

theorem column_kept (hsize : size < 2 ^ 31) (hlow : -2 ^ 31 < cell)
    (hhigh : cell + size < 2 ^ 31) {i : ℤ} (h0 : 0 ≤ i) (hi : i < size)
    (hin : 0 ≤ i + cell ∧ i + cell < size) :
    i.toNat - unsigned (clamp cell size - cell) + unsigned (clamp cell size) =
      (i + cell).toNat := by
  unfold unsigned clamp
  omega

end

namespace Costmap2D

section
variable {α : Type} (m : Costmap2D α)

/-- The costs copied to the local map and from there to their new place. -/
theorem copy_there_and_back {lx ly sx sy n r : ℕ} {buffer reset : List UInt8}
    (hlx : lx + n ≤ m.sizeX) (hly : ly + r ≤ m.sizeY) (hsx : sx + n ≤ m.sizeX)
    (hsy : sy + r ≤ m.sizeY) (hbuffer : buffer.length = n * r)
    (hreset : reset.length = m.costmap.length) :
    ∃ l, copyMapRegion m.costmap lx ly m.sizeX buffer 0 0 n n r = some l ∧
      copyMapRegion l 0 0 n reset sx sy m.sizeX n r = some (reset.mapIdx fun j a =>
        if Rect m.sizeX sx sy n r j then
          (m.costmap[(j / m.sizeX - sy + ly) * m.sizeX + (j % m.sizeX - sx + lx)]?).getD a
        else a) := by
  have hcells := m.cells_lt
  have hlen := m.length_costmap
  have hrows : ∀ {y : ℕ}, y + r ≤ m.sizeY → (y + r) * m.sizeX ≤ m.costmap.length := by
    intro y hy
    rw [hlen, mul_comm]
    exact Nat.mul_le_mul_left _ hy
  have hsmall : n * r ≤ m.sizeX * m.sizeY := Nat.mul_le_mul (by omega) (by omega)
  have hlocal := @copyMapRegion_eq UInt8 m.costmap buffer lx ly m.sizeX 0 0 n n r
    hlx (hrows hly) (Nat.zero_add n).le (by rw [hbuffer, Nat.zero_add, mul_comm]) (by omega)
    (by omega)
  refine ⟨_, hlocal, ?_⟩
  rw [copyMapRegion_eq (Nat.zero_add n).le (by simp [hbuffer, mul_comm]) hsx
    (hreset ▸ hrows hsy) (by simp; omega) (by omega)]
  congr 2
  funext j a
  split_ifs with hj
  · obtain ⟨⟨hx, hxn⟩, hy, hyn⟩ := hj
    have hcol : j % m.sizeX - sx < n := by omega
    have hrow : j / m.sizeX - sy < r := by omega
    have hnumber := number_lt hcol hrow
    have hrect : Rect n 0 0 n r ((j / m.sizeX - sy) * n + (j % m.sizeX - sx)) := by
      rw [Rect, number_mod hcol, number_div hcol]
      exact ⟨⟨Nat.zero_le _, by omega⟩, Nat.zero_le _, by omega⟩
    have hread : (j / m.sizeX - sy + ly) * m.sizeX + (j % m.sizeX - sx + lx) <
        m.costmap.length := by
      rw [hlen]
      exact Grid.number_lt (by omega) (by omega)
    rw [← hbuffer] at hnumber
    simp [hrect, number_mod hcol, number_div hcol, hread, hnumber]
  · rfl

/-- The new memory, cell by cell. -/
theorem kept_costs {cx cy : ℤ} (hlx : -2 ^ 31 < cx) (hhx : cx + m.sizeX < 2 ^ 31)
    (hly : -2 ^ 31 < cy) (hhy : cy + m.sizeY < 2 ^ 31) {n r : ℕ}
    (hn : n = unsigned (clamp (cx + m.sizeX) m.sizeX - clamp cx m.sizeX))
    (hr : r = unsigned (clamp (cy + m.sizeY) m.sizeY - clamp cy m.sizeY)) :
    ∃ l g,
      copyMapRegion m.costmap (unsigned (clamp cx m.sizeX)) (unsigned (clamp cy m.sizeY)) m.sizeX
        (List.replicate (n * r) 0) 0 0 n n r = some l ∧
      copyMapRegion l 0 0 n m.resetMaps.costmap (unsigned (clamp cx m.sizeX - cx))
        (unsigned (clamp cy m.sizeY - cy)) m.sizeX n r = some (m.resetMaps.costmap.mapIdx g) ∧
      ∀ c, m.Inside c → g (m.number c) m.defaultValue = m.cost (c + (cx, cy)) := by
  have hsx := m.sizeX_lt
  have hsy := m.sizeY_lt
  have hplace : ∀ c, m.Inside c → (m.Inside (c + (cx, cy)) ↔
      (0 < n ∧ Span (unsigned (clamp cx m.sizeX - cx)) n c.1.toNat) ∧
      (0 < r ∧ Span (unsigned (clamp cy m.sizeY - cy)) r c.2.toNat)) := by
    rintro c ⟨hx0, hx, hy0, hy⟩
    rw [hn, hr, span_kept_iff hsx hlx hhx hx0 hx, span_kept_iff hsy hly hhy hy0 hy]
    exact and_assoc.symm
  by_cases hkept : 0 < n ∧ 0 < r
  · obtain ⟨l, hl, hback⟩ := @copy_there_and_back α m _ _ _ _ n r (List.replicate (n * r) 0)
      m.resetMaps.costmap (hn ▸ kept_le hsx) (hr ▸ kept_le hsy)
      (hn ▸ put_le hsx hlx hhx (hn ▸ hkept.1)) (hr ▸ put_le hsy hly hhy (hr ▸ hkept.2))
      List.length_replicate List.length_replicate
    refine ⟨l, _, hl, hback, ?_⟩
    intro c hc
    have hin : Rect m.sizeX (unsigned (clamp cx m.sizeX - cx)) (unsigned (clamp cy m.sizeY - cy))
        n r (m.number c) ↔ m.Inside (c + (cx, cy)) := by
      rw [Rect, hc.number_mod, hc.number_div, hplace c hc]
      simp only [hkept.1, hkept.2, true_and]
    change (if Rect _ _ _ _ _ _ then _ else _) = _
    rw [if_congr hin rfl rfl, hc.number_mod, hc.number_div]
    split_ifs with hmem
    · obtain ⟨hx0, hx, hy0, hy⟩ := hc
      obtain ⟨hmx, hmy⟩ := and_assoc.mpr hmem
      rw [column_kept hsx hlx hhx hx0 hx hmx, column_kept hsy hly hhy hy0 hy hmy]
      exact congrArg (·.getD m.defaultValue) hmem.getElem?_number
    · exact (cost_of_not_inside hmem).symm
  · have hempty : n = 0 ∨ r = 0 := by omega
    refine ⟨_, fun _ a => a, copyMapRegion_empty hempty, ?_, ?_⟩
    · rw [copyMapRegion_empty hempty]
      congr 1
      apply List.ext_getElem?
      simp
    · intro c hc
      have hout : ¬ m.Inside (c + (cx, cy)) := by
        rw [hplace c hc]
        exact fun hin => hkept ⟨hin.1.1, hin.2.1⟩
      exact (cost_of_not_inside hout).symm

end

section
variable {α : Type} [Arithmetic α] (m : Costmap2D α)

def updateOrigin (newOriginX newOriginY : α) : Option (Costmap2D α) := do
  let cellOx ← toInt (div (sub newOriginX m.originX) m.resolution)
  let cellOy ← toInt (div (sub newOriginY m.originY) m.resolution)
  let newGridOx := add m.originX (mul (ofInt cellOx) m.resolution)
  let newGridOy := add m.originY (mul (ofInt cellOy) m.resolution)
  let lowerLeftX := clamp cellOx m.sizeX
  let lowerLeftY := clamp cellOy m.sizeY
  let upperRightX := clamp (← signed (cellOx + m.sizeX)) m.sizeX
  let upperRightY := clamp (← signed (cellOy + m.sizeY)) m.sizeY
  let cellSizeX := unsigned (upperRightX - lowerLeftX)
  let cellSizeY := unsigned (upperRightY - lowerLeftY)
  -- the new memory is written before it is read, whatever it holds
  let localMap ← copyMapRegion m.costmap (unsigned lowerLeftX) (unsigned lowerLeftY) m.sizeX
    (List.replicate (cellSizeX * cellSizeY) 0) 0 0 cellSizeX cellSizeX cellSizeY
  let moved := { m.resetMaps with originX := newGridOx, originY := newGridOy }
  let startX ← signed (lowerLeftX - cellOx)
  let startY ← signed (lowerLeftY - cellOy)
  (copyMapRegion localMap 0 0 cellSizeX moved.costmap (unsigned startX) (unsigned startY) m.sizeX
    cellSizeX cellSizeY).pmap moved.withCostmap fun _ => length_copyMapRegion

/-- The move by `k` cells that a new origin stands for, where its arithmetic is defined. -/
structure Moves (x y : α) (k : ℤ × ℤ) : Prop where
  cellX : toInt (div (sub x m.originX) m.resolution) = some k.1
  cellY : toInt (div (sub y m.originY) m.resolution) = some k.2
  rangeX : -2 ^ 31 < k.1 ∧ k.1 + m.sizeX < 2 ^ 31
  rangeY : -2 ^ 31 < k.2 ∧ k.2 + m.sizeY < 2 ^ 31

/-- The map after a move by `k` cells: every cell has the cost of its place. -/
structure Moved (m m' : Costmap2D α) (k : ℤ × ℤ) : Prop where
  sizeX : m'.sizeX = m.sizeX
  sizeY : m'.sizeY = m.sizeY
  resolution : m'.resolution = m.resolution
  defaultValue : m'.defaultValue = m.defaultValue
  originX : m'.originX = add m.originX (mul (ofInt k.1) m.resolution)
  originY : m'.originY = add m.originY (mul (ofInt k.2) m.resolution)
  cost_eq : ∀ c, m'.Inside c → m'.cost c = m.cost (c + k)

variable {m} {x y : α} {k : ℤ × ℤ}

theorem Moves.updateOrigin_eq (h : m.Moves x y k) :
    ∃ m', m.updateOrigin x y = some m' ∧ Moved m m' k := by
  obtain ⟨cx, cy⟩ := k
  obtain ⟨hcx, hcy, ⟨hlx, hhx⟩, hly, hhy⟩ := h
  have hsx := m.sizeX_lt
  have hsy := m.sizeY_lt
  simp only at hcx hcy hlx hhx hly hhy
  obtain ⟨hupx, hstx⟩ := signed_clamp hsx hlx hhx
  obtain ⟨hupy, hsty⟩ := signed_clamp hsy hly hhy
  obtain ⟨l, g, hthere, hback, hkept⟩ := m.kept_costs hlx hhx hly hhy rfl rfl
  simp only [updateOrigin, hcx, hcy, hupx, hupy, hstx, hsty, hthere, Option.bind_eq_bind,
    Option.bind_some]
  obtain ⟨m', hm', ⟨l', hl', rfl⟩, hcost⟩ := repainted_of_mapIdx
    (m := { m.resetMaps with
      originX := add m.originX (mul (ofInt cx) m.resolution)
      originY := add m.originY (mul (ofInt cy) m.resolution) }) hback
    fun _ => length_copyMapRegion
  refine ⟨_, hm', rfl, rfl, rfl, rfl, rfl, rfl, fun c hc => ?_⟩
  rw [hcost c hc, ← hkept c hc]
  exact congrArg (g (m.number c)) ((resetMaps_repainted (m := m)).cost_eq c hc)

/-- No copy ever leaves its memory: the only undefined moves are those whose numbers of cells are
not `int` values. -/
theorem updateOrigin_isSome_iff : (m.updateOrigin x y).isSome ↔ ∃ k, m.Moves x y k := by
  constructor
  · intro h
    obtain ⟨m', hm'⟩ := Option.isSome_iff_exists.mp h
    unfold updateOrigin at hm'
    obtain ⟨cx, hcx, hm'⟩ := Option.bind_eq_some_iff.mp hm'
    obtain ⟨cy, hcy, hm'⟩ := Option.bind_eq_some_iff.mp hm'
    obtain ⟨ux, hux, hm'⟩ := Option.bind_eq_some_iff.mp hm'
    obtain ⟨uy, huy, hm'⟩ := Option.bind_eq_some_iff.mp hm'
    obtain ⟨l, -, hm'⟩ := Option.bind_eq_some_iff.mp hm'
    obtain ⟨sx, hsx, hm'⟩ := Option.bind_eq_some_iff.mp hm'
    obtain ⟨sy, hsy, -⟩ := Option.bind_eq_some_iff.mp hm'
    exact ⟨(cx, cy), hcx, hcy, range_of_signed hux hsx, range_of_signed huy hsy⟩
  · rintro ⟨k, hk⟩
    obtain ⟨m', hm', -⟩ := hk.updateOrigin_eq
    exact Option.isSome_of_eq_some hm'

theorem moved_of_updateOrigin {m' : Costmap2D α} (h : m.updateOrigin x y = some m') :
    ∃ k, m.Moves x y k ∧ Moved m m' k := by
  obtain ⟨k, hk⟩ := updateOrigin_isSome_iff.mp (Option.isSome_of_eq_some h)
  obtain ⟨m₁, hm₁, hmoved⟩ := hk.updateOrigin_eq
  obtain rfl := Option.some.inj (hm₁.symm.trans h)
  exact ⟨k, hk, hmoved⟩

end

end Costmap2D

/-! ## Runs -/

inductive MapOp (α : Type) where
  | updateOrigin (newOriginX newOriginY : α)
  | resetMapToValue (x0 y0 xn yn : ℕ) (value : UInt8)
  | setCost (mx my : ℕ) (cost : UInt8)
  | resetMaps

namespace MapOp
open Costmap2D
variable {α : Type} [Arithmetic α] (m : Costmap2D α)

def step (m : Costmap2D α) : MapOp α → Option (Costmap2D α)
  | updateOrigin x y => m.updateOrigin x y
  | resetMapToValue x0 y0 xn yn value => m.resetMapToValue x0 y0 xn yn value
  | setCost mx my cost => m.setCost mx my cost
  | resetMaps => some m.resetMaps

/-- The cells named by an operation are on the map. -/
def Fits : MapOp α → Prop
  | resetMapToValue x0 y0 xn yn _ => x0 ≤ xn ∧ xn ≤ m.sizeX ∧ y0 ≤ yn ∧ yn ≤ m.sizeY
  | setCost mx my _ => mx < m.sizeX ∧ my < m.sizeY
  | _ => True

/-- The cells that the map moves by. -/
def shift : MapOp α → ℤ × ℤ
  | updateOrigin x y =>
    ((toInt (div (sub x m.originX) m.resolution)).getD 0,
      (toInt (div (sub y m.originY) m.resolution)).getD 0)
  | _ => 0

/-- The cost that an operation leaves on a place, if it does not keep the one it finds. A move
leaves the default on every place that is not on the map before and after it. -/
def leaves (c : ℤ × ℤ) : MapOp α → Option UInt8
  | op@(updateOrigin _ _) =>
    if m.Inside c ∧ m.Inside (c - shift m op) then none else some m.defaultValue
  | resetMapToValue x0 y0 xn yn value => if InWindow x0 y0 xn yn c then some value else none
  | setCost mx my cost => if c = ((mx : ℤ), (my : ℤ)) then some cost else none
  | resetMaps => some m.defaultValue

variable {m} {m' : Costmap2D α}

theorem shift_eq {x y : α} {k : ℤ × ℤ} (h : m.Moves x y k) : (updateOrigin x y).shift m = k := by
  simp [shift, h.cellX, h.cellY]

/-- One operation: the size stays, and a place has the cost left on it, or the one it had. -/
theorem cost_step {op : MapOp α} (hfits : op.Fits m) (h : op.step m = some m') :
    m'.sizeX = m.sizeX ∧ m'.sizeY = m.sizeY ∧ m'.defaultValue = m.defaultValue ∧
      ∀ c, m'.cost (c - op.shift m) = (op.leaves m c).getD (m.cost c) := by
  have hpainted : ∀ {costs : ℤ × ℤ → UInt8} {m₁ : Costmap2D α}, Repainted m m₁ costs → m₁ = m' →
      (∀ c, ¬ m.Inside c → costs c = m.cost c) →
      m'.sizeX = m.sizeX ∧ m'.sizeY = m.sizeY ∧ m'.defaultValue = m.defaultValue ∧
        ∀ c, m'.cost (c - 0) = costs c := by
    rintro costs m₁ hpaint rfl hout
    have hcost := fun c => hpaint.cost_eq_of (hout c)
    obtain ⟨l, hl, rfl⟩ := hpaint.same
    exact ⟨rfl, rfl, rfl, fun c => by rw [sub_zero]; exact hcost c⟩
  cases op with
  | updateOrigin x y =>
    obtain ⟨k, hk, hmoved⟩ := moved_of_updateOrigin h
    refine ⟨hmoved.sizeX, hmoved.sizeY, hmoved.defaultValue, fun c => ?_⟩
    rw [leaves, shift_eq hk]
    have hinside : m'.Inside (c - k) ↔ m.Inside (c - k) := by
      simp [Inside, hmoved.sizeX, hmoved.sizeY]
    split_ifs with hboth
    · simpa using hmoved.cost_eq (c - k) (hinside.mpr hboth.2)
    · by_cases hin : m'.Inside (c - k)
      · have hout : ¬ m.Inside c := fun hc => hboth ⟨hc, hinside.mp hin⟩
        simpa [cost_of_not_inside hout] using hmoved.cost_eq (c - k) hin
      · simpa [hmoved.defaultValue] using cost_of_not_inside hin
  | resetMapToValue x0 y0 xn yn value =>
    obtain ⟨hx, hxn, hy, hyn⟩ := hfits
    obtain ⟨m₁, hm₁, hpaint⟩ := resetMapToValue_eq hx hxn hy hyn value
    obtain ⟨hsx, hsy, hd, hcost⟩ := hpainted hpaint (Option.some.inj (hm₁.symm.trans h))
      fun c hc => if_neg fun hwin => hc (inside_of_inWindow hwin hxn hyn)
    refine ⟨hsx, hsy, hd, fun c => (hcost c).trans ?_⟩
    simp only [leaves]
    split_ifs <;> rfl
  | setCost mx my value =>
    obtain ⟨hx, hy⟩ := hfits
    obtain ⟨m₁, hm₁, hpaint⟩ := setCost_eq hx hy value
    obtain ⟨hsx, hsy, hd, hcost⟩ := hpainted hpaint (Option.some.inj (hm₁.symm.trans h))
      fun c hc => if_neg fun heq => hc (by subst heq; unfold Inside; omega)
    refine ⟨hsx, hsy, hd, fun c => (hcost c).trans ?_⟩
    simp only [leaves]
    split_ifs <;> rfl
  | resetMaps =>
    obtain ⟨hsx, hsy, hd, hcost⟩ := hpainted resetMaps_repainted (Option.some.inj h)
      fun c hc => (cost_of_not_inside hc).symm
    exact ⟨hsx, hsy, hd, hcost⟩

omit [Arithmetic α] in
theorem fits_congr {op : MapOp α} (hx : m'.sizeX = m.sizeX) (hy : m'.sizeY = m.sizeY) :
    op.Fits m' ↔ op.Fits m := by
  cases op <;> simp [Fits, hx, hy]

/-- The costs left on a place by the operations of a run, in order. -/
def history : List (MapOp α) → Costmap2D α → ℤ × ℤ → List UInt8
  | [], _, _ => []
  | op :: ops, m, c =>
    (op.leaves m c).toList ++
      (op.step m).elim [] fun m' => history ops m' (c - op.shift m)

/-- The cells that a run moves the map by. -/
def travel : List (MapOp α) → Costmap2D α → ℤ × ℤ
  | [], _ => 0
  | op :: ops, m => op.shift m + (op.step m).elim 0 (travel ops)

/-- After any run a place has the cost that was left on it last. -/
theorem run_cost {ops : List (MapOp α)} (hfits : ∀ op ∈ ops, op.Fits m)
    (h : ops.foldlM step m = some m') (c : ℤ × ℤ) :
    m'.cost (c - travel ops m) = ((history ops m c).getLast?).getD (m.cost c) := by
  induction ops generalizing m c with
  | nil =>
    obtain rfl := Option.some.inj h
    simp [travel, history]
  | cons op ops ih =>
    obtain ⟨hop, hops⟩ := List.forall_mem_cons.mp hfits
    obtain ⟨m₁, hm₁, hrest⟩ := Option.bind_eq_some_iff.mp (List.foldlM_cons.symm.trans h)
    obtain ⟨hsx, hsy, -, hcost⟩ := cost_step hop hm₁
    have hfits₁ : ∀ op ∈ ops, op.Fits m₁ := fun op' hop' => (fits_congr hsx hsy).mpr (hops op' hop')
    have hlast := ih hfits₁ hrest (c - op.shift m)
    rw [travel, history, hm₁, Option.elim_some, Option.elim_some, ← sub_sub, hlast, hcost c]
    cases op.leaves m c with
    | none => rfl
    | some v =>
      rw [List.getLast?_append]
      cases (history ops m₁ (c - op.shift m)).getLast? <;> rfl

end MapOp

end TitanRobot.Costmap
