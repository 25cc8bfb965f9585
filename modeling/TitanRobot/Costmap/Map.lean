import TitanRobot.Lib.Arithmetic
import TitanRobot.Lib.Grid

/-!
# The costmap

`Costmap2D`: costs in row-major memory, and the place of the map in the world. An operation returns
nothing where the C++ program has no defined behaviour: an access outside the memory, a conversion
or a sum out of the range of its type.
-/
namespace TitanRobot.Costmap
open Floating Arithmetic Grid

def noInformation : UInt8 := 255
def lethalObstacle : UInt8 := 254
def inscribedInflatedObstacle : UInt8 := 253
def freeSpace : UInt8 := 0

structure Costmap2D (α : Type) where
  sizeX : ℕ
  sizeY : ℕ
  resolution : α
  originX : α
  originY : α
  costmap : List UInt8
  defaultValue : UInt8
  length_costmap : costmap.length = sizeX * sizeY
  sizeX_lt : sizeX < 2 ^ 31
  sizeY_lt : sizeY < 2 ^ 31
  /-- The cells of the map, and those of one row more, have `unsigned int` numbers. -/
  cells_lt : sizeX * sizeY + sizeX < 2 ^ 32

/-- The result of an operation on `int`; overflow is undefined. -/
def signed (n : ℤ) : Option ℤ := if -2 ^ 31 ≤ n ∧ n < 2 ^ 31 then some n else none

/-- The conversion of an `int` to `unsigned int`. -/
def unsigned (n : ℤ) : ℕ := (n % 2 ^ 32).toNat

section
variable {β : Type}

def copyMapRegion (source : List β) (smLowerLeftX smLowerLeftY smSizeX : ℕ)
    (dest : List β) (dmLowerLeftX dmLowerLeftY dmSizeX regionSizeX regionSizeY : ℕ) :
    Option (List β) :=
  let smIndex := (smLowerLeftY * smSizeX + smLowerLeftX) % 2 ^ 32
  let dmIndex := (dmLowerLeftY * dmSizeX + dmLowerLeftX) % 2 ^ 32
  (List.range regionSizeY).foldlM
    (fun dest i => memcpy dest (dmIndex + i * dmSizeX) source (smIndex + i * smSizeX) regionSizeX)
    dest

variable {source dest l : List β} {sx sy sw dx dy dw n k : ℕ}

theorem length_copyMapRegion
    (h : copyMapRegion source sx sy sw dest dx dy dw n k = some l) : l.length = dest.length :=
  length_foldlM (fun _ _ _ => length_memcpy) h

theorem copyMapRegion_empty (h : n = 0 ∨ k = 0) :
    copyMapRegion source sx sy sw dest dx dy dw n k = some dest := by
  rcases h with rfl | rfl
  · have hskip : ∀ is : List ℕ, is.foldlM (fun dest i => memcpy dest
        ((dy * dw + dx) % 2 ^ 32 + i * dw) source ((sy * sw + sx) % 2 ^ 32 + i * sw) 0) dest =
          some dest := by
      intro is
      induction is with
      | nil => rfl
      | cons i is ih => simpa [memcpy] using ih
    exact hskip (List.range k)
  · rfl

/-- The cells of the region come from the source, the others stay. -/
theorem copyMapRegion_eq (hsx : sx + n ≤ sw) (hsy : (sy + k) * sw ≤ source.length)
    (hdx : dx + n ≤ dw) (hdy : (dy + k) * dw ≤ dest.length)
    (hs : source.length < 2 ^ 32) (hd : dest.length < 2 ^ 32) :
    copyMapRegion source sx sy sw dest dx dy dw n k = some (dest.mapIdx fun j a =>
      if Rect dw dx dy n k j then
        (source[(j / dw - dy + sy) * sw + (j % dw - dx + sx)]?).getD a else a) := by
  by_cases hempty : n = 0 ∨ k = 0
  · rw [copyMapRegion_empty hempty]
    congr 1
    apply List.ext_getElem?
    intro j
    have hrect : ¬ Rect dw dx dy n k j := by
      unfold Rect Span
      omega
    simp [hrect]
  · have hfirst : 0 < n ∧ 0 < k := by omega
    have hsrc := row_le hsx hsy
    have hdst := row_le hdx hdy
    have hsi : (sy * sw + sx) % 2 ^ 32 = sy * sw + sx := by
      have hzero := hsrc 0 hfirst.2
      exact Nat.mod_eq_of_lt (by rw [Nat.add_zero] at hzero; omega)
    have hdi : (dy * dw + dx) % 2 ^ 32 = dy * dw + dx := by
      have hzero := hdst 0 hfirst.2
      exact Nat.mod_eq_of_lt (by rw [Nat.add_zero] at hzero; omega)
    rw [copyMapRegion, hsi, hdi]
    refine (foldlM_rows (y := dy) hdx (v := fun i j a =>
      (source[sy * sw + sx + i * sw + (j - ((dy + i) * dw + dx))]?).getD a) ?_).trans ?_
    · intro i hi l' hl'
      have hsrow := hsrc i hi
      have hdrow := hdst i hi
      rw [Nat.add_mul] at hsrow hdrow
      rw [show dy * dw + dx + i * dw = (dy + i) * dw + dx by ring]
      rw [memcpy_eq (by rw [Nat.add_mul]; omega) (by omega)]
    · congr 2
      funext j a
      split_ifs with hj
      · obtain ⟨⟨hx, -⟩, hy, -⟩ := hj
        have hdiv := Nat.div_add_mod j dw
        rw [mul_comm] at hdiv
        have hrow : (dy + (j / dw - dy)) * dw = j / dw * dw := by rw [Nat.add_sub_cancel' hy]
        congr 2
        rw [hrow, Nat.add_mul]
        omega
      · rfl

end

/-- A rectangle of cells, without the last column and row named. -/
def InWindow (x0 y0 xn yn : ℕ) (c : ℤ × ℤ) : Prop :=
  x0 ≤ c.1 ∧ c.1 < xn ∧ y0 ≤ c.2 ∧ c.2 < yn

instance (x0 y0 xn yn : ℕ) (c : ℤ × ℤ) : Decidable (InWindow x0 y0 xn yn c) :=
  inferInstanceAs (Decidable (_ ∧ _))

namespace Costmap2D
variable {α : Type} (m : Costmap2D α)

def getIndex (mx my : ℕ) : ℕ := my * m.sizeX + mx

def getCost (mx my : ℕ) : Option UInt8 := m.costmap[m.getIndex mx my]?

/-- The map with other costs in its memory. -/
def withCostmap (costmap : List UInt8) (h : costmap.length = m.costmap.length) : Costmap2D α :=
  { m with costmap, length_costmap := h.trans m.length_costmap }

def setCost (mx my : ℕ) (cost : UInt8) : Option (Costmap2D α) :=
  (assign m.costmap (m.getIndex mx my) fun _ => cost).pmap m.withCostmap fun _ => length_assign

def resetMaps : Costmap2D α :=
  m.withCostmap (List.replicate m.costmap.length m.defaultValue) List.length_replicate

/-- The rows are counted by the numbers of their first cells. -/
def resetMapToValue (x0 y0 xn yn : ℕ) (value : UInt8) : Option (Costmap2D α) :=
  ((List.range ((yn * m.sizeX - y0 * m.sizeX) / m.sizeX)).foldlM
    (fun costmap i => memset costmap ((y0 + i) * m.sizeX + x0) value (unsigned (xn - x0)))
    m.costmap).pmap m.withCostmap fun _ => length_foldlM fun _ _ _ => length_memset

def resetMap (x0 y0 xn yn : ℕ) : Option (Costmap2D α) :=
  m.resetMapToValue x0 y0 xn yn m.defaultValue

/-- Nothing is copied from a window that does not fit; the copy then returns `false`. -/
def copyWindow (source : Costmap2D α) (sx0 sy0 sxn syn dx0 dy0 : ℕ) :
    Option (Option (Costmap2D α)) :=
  let szX := unsigned (sxn - sx0)
  let szY := unsigned (syn - sy0)
  if source.sizeX < sxn ∨ source.sizeY < syn then some none
  else if m.sizeX < (dx0 + szX) % 2 ^ 32 ∨ m.sizeY < (dy0 + szY) % 2 ^ 32 then some none
  else
    ((copyMapRegion source.costmap sx0 sy0 source.sizeX m.costmap dx0 dy0 m.sizeX szX szY).pmap
      m.withCostmap fun _ => length_copyMapRegion).map some

/-! ## The cost of a place -/

/-- The cells of the map, among all places counted from its corner. -/
def Inside (c : ℤ × ℤ) : Prop := 0 ≤ c.1 ∧ c.1 < m.sizeX ∧ 0 ≤ c.2 ∧ c.2 < m.sizeY

instance (c : ℤ × ℤ) : Decidable (m.Inside c) := inferInstanceAs (Decidable (_ ∧ _))

def number (c : ℤ × ℤ) : ℕ := m.getIndex c.1.toNat c.2.toNat

/-- The cost of a place, the default where the map has none. -/
def cost (c : ℤ × ℤ) : UInt8 :=
  if m.Inside c then (m.costmap[m.number c]?).getD m.defaultValue else m.defaultValue

variable {m} {c : ℤ × ℤ}

theorem cost_of_not_inside (h : ¬ m.Inside c) : m.cost c = m.defaultValue := if_neg h

theorem Inside.number_lt (h : m.Inside c) : m.number c < m.costmap.length := by
  obtain ⟨hx, hw, hy, hh⟩ := h
  rw [m.length_costmap]
  exact Grid.number_lt (by omega) (by omega)

theorem Inside.number_mod (h : m.Inside c) : m.number c % m.sizeX = c.1.toNat := by
  obtain ⟨hx, hw, -⟩ := h
  exact Grid.number_mod (by omega)

theorem Inside.number_div (h : m.Inside c) : m.number c / m.sizeX = c.2.toNat := by
  obtain ⟨hx, hw, -⟩ := h
  exact Grid.number_div (by omega)

theorem Inside.getElem?_number (h : m.Inside c) : m.costmap[m.number c]? = some (m.cost c) := by
  rw [cost, if_pos h, List.getElem?_eq_getElem h.number_lt]
  rfl

/-- Every element of the memory is that of a cell. -/
theorem exists_number {j : ℕ} (h : j < m.costmap.length) : ∃ c, m.Inside c ∧ m.number c = j := by
  rw [m.length_costmap, mul_comm] at h
  have hw : 0 < m.sizeX := Nat.pos_of_ne_zero fun hzero => by simp [hzero] at h
  have hx := Nat.mod_lt j hw
  have hy := Nat.div_lt_of_lt_mul ((mul_comm _ _).trans_gt h)
  refine ⟨(↑(j % m.sizeX), ↑(j / m.sizeX)), ?_, ?_⟩
  · exact ⟨Int.natCast_nonneg _, Int.ofNat_lt.mpr hx, Int.natCast_nonneg _, Int.ofNat_lt.mpr hy⟩
  · rw [number, getIndex, Int.toNat_natCast, Int.toNat_natCast, mul_comm]
    exact Nat.div_add_mod j m.sizeX

/-- Reading a cell of the map. -/
theorem getCost_eq {x y : ℕ} (hx : x < m.sizeX) (hy : y < m.sizeY) :
    m.getCost x y = some (m.cost (x, y)) := by
  have h : m.Inside (x, y) := ⟨by simp, by simpa using hx, by simp, by simpa using hy⟩
  simpa [number, getCost] using h.getElem?_number

/-- The cost of a cell after its memory is rewritten. -/
theorem cost_withCostmap {g : ℕ → UInt8 → UInt8} {costmap : List UInt8}
    (hg : costmap = m.costmap.mapIdx g) (hl : costmap.length = m.costmap.length)
    (h : m.Inside c) : (m.withCostmap costmap hl).cost c = g (m.number c) (m.cost c) := by
  subst hg
  have hin : (m.withCostmap (m.costmap.mapIdx g) hl).Inside c := h
  have hget := hin.getElem?_number
  rw [show (m.withCostmap (m.costmap.mapIdx g) hl).number c = m.number c from rfl] at hget
  rw [withCostmap, List.getElem?_mapIdx, h.getElem?_number] at hget
  exact (Option.some.inj hget).symm

/-! ## What the operations leave -/

theorem unsigned_of_lt {n : ℕ} (h : n < 2 ^ 32) : unsigned n = n := by
  unfold unsigned
  omega

/-- A map of the same size and place, with new costs for its cells. -/
structure Repainted (m m' : Costmap2D α) (costs : ℤ × ℤ → UInt8) : Prop where
  same : ∃ l h, m' = m.withCostmap l h
  cost_eq : ∀ c, m.Inside c → m'.cost c = costs c

theorem Repainted.refl (m : Costmap2D α) : Repainted m m m.cost :=
  ⟨⟨m.costmap, rfl, rfl⟩, fun _ _ => rfl⟩

namespace Repainted
variable {m' : Costmap2D α} {costs : ℤ × ℤ → UInt8} (h : Repainted m m' costs)
include h

theorem sizeX_eq : m'.sizeX = m.sizeX := by obtain ⟨_, _, rfl⟩ := h.same; rfl

theorem sizeY_eq : m'.sizeY = m.sizeY := by obtain ⟨_, _, rfl⟩ := h.same; rfl

theorem defaultValue_eq : m'.defaultValue = m.defaultValue := by obtain ⟨_, _, rfl⟩ := h.same; rfl

theorem inside_iff : m'.Inside c ↔ m.Inside c := by simp [Inside, h.sizeX_eq, h.sizeY_eq]

/-- Painting over a painted map. -/
theorem trans {m₂ : Costmap2D α} {costs' : ℤ × ℤ → UInt8} (h' : Repainted m' m₂ costs') :
    Repainted m m₂ costs' := by
  refine ⟨?_, fun c hc => h'.cost_eq c (h.inside_iff.mpr hc)⟩
  obtain ⟨l, hl, rfl⟩ := h.same
  obtain ⟨l', hl', rfl⟩ := h'.same
  exact ⟨l', hl'.trans hl, rfl⟩

end Repainted

theorem inside_of_inWindow {x0 y0 xn yn : ℕ} (h : InWindow x0 y0 xn yn c) (hx : xn ≤ m.sizeX)
    (hy : yn ≤ m.sizeY) : m.Inside c := by
  unfold InWindow at h
  unfold Inside
  omega

/-- What is not repainted keeps its cost, on the map or off it. -/
theorem Repainted.cost_eq_of {m' : Costmap2D α} {costs : ℤ × ℤ → UInt8} (h : Repainted m m' costs)
    (hout : ¬ m.Inside c → costs c = m.cost c) : m'.cost c = costs c := by
  by_cases hin : m.Inside c
  · exact h.cost_eq c hin
  · obtain ⟨l, hl, rfl⟩ := h.same
    rw [hout hin, cost_of_not_inside hin]
    exact cost_of_not_inside (m := m.withCostmap l hl) hin

/-- The elements of a rectangle are those of its cells. -/
theorem Inside.rect_iff (h : m.Inside c) {x0 y0 xn yn : ℕ} (hx : x0 ≤ xn) (hy : y0 ≤ yn) :
    Rect m.sizeX x0 y0 (xn - x0) (yn - y0) (m.number c) ↔ InWindow x0 y0 xn yn c := by
  rw [Rect, h.number_mod, h.number_div]
  obtain ⟨hx0, -, hy0, -⟩ := h
  simp only [Span, InWindow]
  omega

theorem repainted_of_mapIdx {f : Option (List UInt8)} {g : ℕ → UInt8 → UInt8}
    (hf : f = some (m.costmap.mapIdx g)) (hl : ∀ l, f = some l → l.length = m.costmap.length) :
    ∃ m', f.pmap m.withCostmap hl = some m' ∧
      Repainted m m' fun c => g (m.number c) (m.cost c) := by
  subst hf
  exact ⟨_, rfl, ⟨_, _, rfl⟩, fun c hc => cost_withCostmap rfl (by simp) hc⟩

theorem resetMapToValue_eq {x0 y0 xn yn : ℕ} (hx : x0 ≤ xn) (hxn : xn ≤ m.sizeX) (hy : y0 ≤ yn)
    (hyn : yn ≤ m.sizeY) (value : UInt8) :
    ∃ m', m.resetMapToValue x0 y0 xn yn value = some m' ∧
      Repainted m m' fun c => if InWindow x0 y0 xn yn c then value else m.cost c := by
  have hlen : unsigned ((xn : ℤ) - x0) = xn - x0 := by
    have hlt := m.sizeX_lt
    unfold unsigned
    omega
  have hrows : (yn * m.sizeX - y0 * m.sizeX) / m.sizeX = yn - y0 ∨ m.sizeX = 0 := by
    rcases Nat.eq_zero_or_pos m.sizeX with h | h
    · exact Or.inr h
    · rw [← Nat.sub_mul]
      exact Or.inl (Nat.mul_div_cancel _ h)
  have hloop : (List.range ((yn * m.sizeX - y0 * m.sizeX) / m.sizeX)).foldlM
      (fun costmap i => memset costmap ((y0 + i) * m.sizeX + x0) value (unsigned (xn - x0)))
      m.costmap = some (m.costmap.mapIdx fun j a =>
        if Rect m.sizeX x0 y0 (xn - x0) (yn - y0) j then value else a) := by
    have hmem : (y0 + (yn - y0)) * m.sizeX ≤ m.costmap.length := by
      rw [m.length_costmap, Nat.add_sub_cancel' hy, mul_comm]
      exact Nat.mul_le_mul_left _ hyn
    rcases hrows with hrows | hzero
    · rw [hrows, hlen]
      refine foldlM_rows (v := fun _ _ _ => value) (by omega) fun i hi l hl => ?_
      refine memset_eq ?_
      rw [hl]
      exact row_le (by omega) hmem i hi
    · have hnil : m.costmap = [] := List.length_eq_zero_iff.mp (by simp [m.length_costmap, hzero])
      simp [hzero, hnil]
  obtain ⟨m', hm', hpaint⟩ := repainted_of_mapIdx hloop fun _ =>
    length_foldlM fun _ _ _ => length_memset
  refine ⟨m', hm', hpaint.same, fun c hc => ?_⟩
  rw [hpaint.cost_eq c hc, if_congr (hc.rect_iff hx hy) rfl rfl]

theorem setCost_eq {x y : ℕ} (hx : x < m.sizeX) (hy : y < m.sizeY) (value : UInt8) :
    ∃ m', m.setCost x y value = some m' ∧
      Repainted m m' fun c => if c = ((x : ℤ), (y : ℤ)) then value else m.cost c := by
  have hin : m.Inside (x, y) := ⟨by simp, by simpa using hx, by simp, by simpa using hy⟩
  have hnumber : m.number (x, y) = m.getIndex x y := by simp [number]
  have hassign := assign_eq (f := fun _ => value) (hnumber ▸ hin.number_lt)
  obtain ⟨m', hm', hpaint⟩ := repainted_of_mapIdx hassign fun _ => length_assign
  refine ⟨m', hm', hpaint.same, fun c hc => ?_⟩
  rw [hpaint.cost_eq c hc]
  refine if_congr ?_ rfl rfl
  rw [← hnumber]
  constructor
  · intro heq
    have hmod := congrArg (· % m.sizeX) heq
    have hdiv := congrArg (· / m.sizeX) heq
    simp only [hc.number_mod, hc.number_div, hin.number_mod, hin.number_div] at hmod hdiv
    obtain ⟨hx0, -, hy0, -⟩ := hc
    apply Prod.ext
    · simp only [Int.toNat_natCast] at hmod ⊢
      omega
    · simp only [Int.toNat_natCast] at hdiv ⊢
      omega
  · rintro rfl
    rfl

theorem resetMaps_repainted : Repainted m m.resetMaps fun _ => m.defaultValue := by
  refine ⟨⟨_, _, rfl⟩, fun c hc => ?_⟩
  refine cost_withCostmap (g := fun _ _ => m.defaultValue) ?_ List.length_replicate hc
  apply List.ext_getElem?
  intro j
  rw [List.getElem?_mapIdx, List.getElem?_replicate]
  split_ifs with hj
  · simp [hj]
  · simp [hj]

/-- The window of a map of the same size is copied to the same cells. -/
theorem copyWindow_eq {source : Costmap2D α} {x0 y0 xn yn : ℕ} (hsx : source.sizeX = m.sizeX)
    (hsy : source.sizeY = m.sizeY) (hx : x0 ≤ xn) (hxn : xn ≤ m.sizeX) (hy : y0 ≤ yn)
    (hyn : yn ≤ m.sizeY) :
    ∃ m', m.copyWindow source x0 y0 xn yn x0 y0 = some (some m') ∧ Repainted m m' fun c =>
      if InWindow x0 y0 xn yn c then source.cost c else m.cost c := by
  have hlx := m.sizeX_lt
  have hly := m.sizeY_lt
  have hcells := m.cells_lt
  have hlen := m.length_costmap
  have hlen' : source.costmap.length = m.costmap.length := by
    rw [source.length_costmap, hlen, hsx, hsy]
  have hszX : unsigned ((xn : ℤ) - x0) = xn - x0 := by
    unfold unsigned
    omega
  have hszY : unsigned ((yn : ℤ) - y0) = yn - y0 := by
    unfold unsigned
    omega
  have hrows : (y0 + (yn - y0)) * m.sizeX ≤ m.costmap.length := by
    rw [hlen, Nat.add_sub_cancel' hy, mul_comm]
    exact Nat.mul_le_mul_left _ hyn
  have hcopy := @copyMapRegion_eq UInt8 source.costmap m.costmap x0 y0 m.sizeX x0 y0 m.sizeX
    (xn - x0) (yn - y0)
    (by omega) (by omega) (by omega) hrows (by omega) (by omega)
  obtain ⟨m', hm', hpaint⟩ := repainted_of_mapIdx hcopy fun _ => length_copyMapRegion
  refine ⟨m', ?_, hpaint.same, fun c hc => ?_⟩
  · unfold copyWindow
    simp only [hszX, hszY]
    rw [if_neg (by omega), if_neg (by omega)]
    simp only [hsx]
    exact congrArg (Option.map some) hm'
  · have hc' : source.Inside c := by
      unfold Inside at *
      omega
    have hget := hc'.getElem?_number
    have hnumber : source.number c = m.number c := by simp [number, getIndex, hsx]
    rw [hpaint.cost_eq c hc, if_congr (hc.rect_iff hx hy) rfl rfl]
    refine ite_congr rfl (fun hwin => ?_) fun _ => rfl
    have hback : (m.number c / m.sizeX - y0 + y0) * m.sizeX + (m.number c % m.sizeX - x0 + x0) =
        m.number c := by
      rw [hc.number_div, hc.number_mod]
      unfold InWindow at hwin
      rw [show c.2.toNat - y0 + y0 = c.2.toNat by omega,
        show c.1.toNat - x0 + x0 = c.1.toNat by omega]
      rfl
    rw [hback, ← hnumber, hget]
    rfl

end Costmap2D

end TitanRobot.Costmap
