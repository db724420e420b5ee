import Mathlib.Data.Fintype.Card
import Mathlib.Data.Fintype.EquivFin
import Mathlib.Data.List.Nodup

/-! # Collecting distinct draws

    Values are drawn one after the other from a finite type, and a value that was
    drawn before is thrown away.

    * The collection has no duplicates, and holds exactly what was drawn.
    * It never outgrows the type, and while it has not reached that size some value
      is missing from it.
    * If every value keeps being drawn, the collection reaches every size up to
      that of the type. -/

namespace Collecting

variable {α : Type*} [DecidableEq α]

/-- Append `x` unless it is there already. -/
def add (seen : List α) (x : α) : List α :=
  if x ∈ seen then seen else seen ++ [x]

/-- What is collected in the first `t` draws of `d`, in the order of the draws. -/
def distinct (d : Nat → α) : Nat → List α
  | 0 => []
  | t + 1 => add (distinct d t) (d t)

/-! ## Section 1: One draw -/

theorem mem_add {seen : List α} {x y : α} : y ∈ add seen x ↔ y ∈ seen ∨ y = x := by
  unfold add
  split
  · next hx =>
    constructor
    · exact Or.inl
    · intro h
      rcases h with hy | rfl
      · exact hy
      · exact hx
  · simp

theorem nodup_add {seen : List α} (h : seen.Nodup) (x : α) : (add seen x).Nodup := by
  unfold add
  split
  · exact h
  · next hx => exact List.nodup_append.mpr ⟨h, List.nodup_singleton x, by
      intro a ha b hb
      rw [List.mem_singleton.mp hb]
      rintro rfl
      exact hx ha⟩

theorem length_add_le (seen : List α) (x : α) : (add seen x).length ≤ seen.length + 1 := by
  unfold add
  split <;> simp

/-- A value that is missing is progress. -/
theorem length_add_of_notMem {seen : List α} {x : α} (h : x ∉ seen) :
    (add seen x).length = seen.length + 1 := by
  rw [add, if_neg h, List.length_append, List.length_singleton]

/-! ## Section 2: Many draws -/

theorem nodup_distinct (d : Nat → α) (t : Nat) : (distinct d t).Nodup := by
  induction t with
  | zero => exact List.nodup_nil
  | succ t ih => exact nodup_add ih (d t)

theorem mem_distinct {d : Nat → α} {t : Nat} {x : α} :
    x ∈ distinct d t ↔ ∃ i < t, d i = x := by
  induction t with
  | zero => simp [distinct]
  | succ t ih =>
    rw [distinct, mem_add, ih]
    constructor
    · intro h
      rcases h with ⟨i, hi, rfl⟩ | rfl
      · exact ⟨i, by omega, rfl⟩
      · exact ⟨t, by omega, rfl⟩
    · intro h
      rcases h with ⟨i, hi, rfl⟩
      by_cases hlast : i = t
      · exact Or.inr (by rw [hlast])
      · exact Or.inl ⟨i, by omega, rfl⟩

section finite
variable [Fintype α]

theorem length_distinct_le_card (d : Nat → α) (t : Nat) :
    (distinct d t).length ≤ Fintype.card α :=
  (nodup_distinct d t).length_le_card

/-- **Pigeonhole.**  Some value is missing from a short list. -/
theorem exists_missing {seen : List α} (h : seen.length < Fintype.card α) : ∃ x, x ∉ seen := by
  by_contra hall
  have hcard : Fintype.card α ≤ seen.toFinset.card := by
    rw [← Finset.card_univ]
    refine Finset.card_le_card ?_
    intro x _
    by_contra hx
    exact hall ⟨x, fun hmem => hx (List.mem_toFinset.mpr hmem)⟩
  have hlen := seen.toFinset_card_le
  omega

/-- **Recurrence fills the collection.**  If every value is drawn again and again, every
    size up to that of the type is reached. -/
theorem exists_length_ge {d : Nat → α} (hrec : ∀ x t, ∃ i, t ≤ i ∧ d i = x) {n : Nat}
    (hn : n ≤ Fintype.card α) : ∃ t, n ≤ (distinct d t).length := by
  induction n with
  | zero => exact ⟨0, Nat.zero_le _⟩
  | succ n ih =>
    obtain ⟨t, ht⟩ := ih (by omega)
    by_cases hmore : n + 1 ≤ (distinct d t).length
    · exact ⟨t, hmore⟩
    · -- Some value is missing after `t` draws; once it is drawn there is one more.
      have hshort : (distinct d t).length < Fintype.card α := by omega
      obtain ⟨x, hx⟩ := exists_missing hshort
      obtain ⟨i, hi, hdraw⟩ := hrec x t
      have hnodup : (x :: distinct d t).Nodup := List.nodup_cons.mpr ⟨hx, nodup_distinct d t⟩
      have hsub : x :: distinct d t ⊆ distinct d (i + 1) := by
        intro y hy
        rcases List.mem_cons.mp hy with rfl | hy
        · exact mem_distinct.mpr ⟨i, by omega, hdraw⟩
        · obtain ⟨j, hj, hjy⟩ := mem_distinct.mp hy
          exact mem_distinct.mpr ⟨j, by omega, hjy⟩
      have hlen := (hnodup.subperm hsub).length_le
      rw [List.length_cons] at hlen
      exact ⟨i + 1, by omega⟩

end finite

end Collecting
