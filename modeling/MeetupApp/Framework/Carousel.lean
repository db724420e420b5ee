import Mathlib.Algebra.Order.Group.Int
import Mathlib.Data.Int.ModEq
import Mathlib.Data.List.Rotate

/-! # Turning through a cycle of positions

    A carousel of `k` items stands at a position `0 ≤ i < k`.  `next` and `prev`
    move it by one and wrap around by comparing with the last and the first
    position; over any number of turns they are addition modulo `k`.

    Positions are integers, as array indices are in languages that check the
    subscript when it is used (`at?`). -/

namespace Carousel

/-! ## Section 1: One turn -/

/-- The position after `i`, the first one after the last. -/
def next (k i : Int) : Int := if k - 1 = i then 0 else i + 1

/-- The position before `i`, the last one before the first. -/
def prev (k i : Int) : Int := if i = 0 then k - 1 else i - 1

section turn
variable {k i : Int} (h0 : 0 ≤ i) (hk : i < k)
include h0 hk

/-- Wrapping at the end is reduction modulo `k`. -/
theorem next_eq : next k i = (i + 1) % k := by
  unfold next
  split
  · next hlast =>
    have hsum : i + 1 = k := by omega
    rw [hsum, Int.emod_self]
  · rw [Int.emod_eq_of_lt (by omega) (by omega)]

theorem prev_eq : prev k i = (i - 1) % k := by
  unfold prev
  split
  · next hfirst =>
    -- One before the first position is `-1`, which is `k - 1` modulo `k`.
    have hwrap : (i - 1) % k = (i - 1 + k) % k := by rw [Int.add_emod_right]
    rw [hwrap, Int.emod_eq_of_lt (by omega) (by omega)]
    omega
  · rw [Int.emod_eq_of_lt (by omega) (by omega)]

end turn

theorem emod_nonneg {k : Int} (hk : 0 < k) (i : Int) : 0 ≤ i % k :=
  Int.emod_nonneg i (by omega)

theorem emod_lt {k : Int} (hk : 0 < k) (i : Int) : i % k < k :=
  Int.emod_lt_of_pos i hk

/-! ## Section 2: Reading an item -/

variable {α : Type*}

/-- A checked subscript: `none` where the index is out of range. -/
def at? (xs : List α) (i : Int) : Option α :=
  if 0 ≤ i then xs[i.toNat]? else none

@[simp] theorem at?_natCast (xs : List α) (i : Nat) : at? xs (i : Int) = xs[i]? := by
  simp [at?]

/-- A position of the carousel has an item. -/
theorem at?_isSome {xs : List α} {i : Int} : (at? xs i).isSome ↔ 0 ≤ i ∧ i < xs.length := by
  unfold at?
  split
  · simp
    omega
  · next h => simp [h]

/-! ## Section 3: A full turn -/

/-- `k` positions in a row, wherever they start, are all positions, each once. -/
theorem positions_perm {k : Nat} (hk : 0 < k) (i : Int) :
    ((List.range k).map (fun (j : Nat) => (i + j) % (k : Int))).Perm
      ((List.range k).map (fun (j : Nat) => (j : Int))) := by
  -- The start is a position `m`, and the window is the list of positions rotated by `m`.
  obtain ⟨m, hm⟩ := Int.eq_ofNat_of_zero_le (emod_nonneg (k := k) (by omega) i)
  have hwindow : (List.range k).map (fun (j : Nat) => (i + j) % (k : Int))
      = ((List.range k).rotate m).map (fun (j : Nat) => (j : Int)) := by
    apply List.ext_getElem
    · simp
    · intro j hj hj'
      rw [List.getElem_map, List.getElem_map, List.getElem_rotate, List.getElem_range,
        List.getElem_range, List.length_range, ← Int.emod_add_emod, hm]
      push_cast
      rw [Int.add_comm]
  rw [hwindow]
  exact (List.rotate_perm (List.range k) m).map _

/-- The items at `k` positions in a row are all items, each once. -/
theorem items_perm {xs : List α} (hxs : xs ≠ []) (i : Int) :
    ((List.range xs.length).map (fun (j : Nat) => at? xs ((i + j) % (xs.length : Int)))).Perm
      (xs.map some) := by
  have hpositions := (positions_perm (List.length_pos_iff.mpr hxs) i).map (at? xs)
  rw [List.map_map, List.map_map] at hpositions
  have hall : (List.range xs.length).map (at? xs ∘ fun (j : Nat) => (j : Int)) = xs.map some := by
    apply List.ext_getElem
    · simp
    · intro j hj hj'
      simp
  rw [hall] at hpositions
  exact hpositions

end Carousel
