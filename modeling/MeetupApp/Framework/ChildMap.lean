import Mathlib.Data.List.Nodup
import Mathlib.Data.List.Perm.Basic
import Mathlib.Order.Compare
import Mathlib.Order.Defs.LinearOrder
import Mathlib.Order.Lattice
import Std.Data.ExtTreeMap

/-! # Maps from keys to children, enumerated in key order

    The children of a node of a key-ordered store: a finite map that is
    determined by its lookups (`Std.ExtTreeMap`) and whose `toList` is sorted
    by key.  `put` writes one child and removes it when there is nothing to
    write, as stores do that keep no empty nodes. -/

/-- Children by key, over any linear order of keys. -/
abbrev ChildMap (K V : Type*) [LinearOrder K] := Std.ExtTreeMap K V compare

namespace ChildMap

variable {K V : Type*} [LinearOrder K]

/-- Keys that compare as equal are equal; stated for every linear order, so that
    maps keyed by lexicographic pairs find it as well. -/
instance lawfulEqCmp {A : Type*} [LinearOrder A] :
    Std.LawfulEqCmp (compare : A → A → Ordering) where
  eq_of_compare := compare_eq_iff_eq.mp

/-- The comparison of a linear order is transitive; named, so that every map finds it
    under one name. -/
instance transCmp {A : Type*} [LinearOrder A] : Std.TransCmp (compare : A → A → Ordering) :=
  inferInstance

/-! ## Section 1: Writing one child -/

/-- Replace the child at `k`; `none` removes it. -/
def put (m : ChildMap K V) (k : K) (v : Option V) : ChildMap K V :=
  m.alter k (fun _ => v)

theorem getElem?_put (m : ChildMap K V) (k a : K) (v : Option V) :
    (m.put k v)[a]? = if k = a then v else m[a]? := by
  unfold put
  rw [Std.ExtTreeMap.getElem?_alter]
  simp

@[simp] theorem getElem?_put_self (m : ChildMap K V) (k : K) (v : Option V) :
    (m.put k v)[k]? = v := by
  simp [getElem?_put]

theorem getElem?_put_of_ne (m : ChildMap K V) {k a : K} (v : Option V) (h : k ≠ a) :
    (m.put k v)[a]? = m[a]? := by
  simp [getElem?_put, h]

/-- Keep the children whose key satisfies `p`. -/
def keep (m : ChildMap K V) (p : K → Bool) : ChildMap K V :=
  m.filter (fun k _ => p k)

theorem getElem?_keep (m : ChildMap K V) (p : K → Bool) (a : K) :
    (m.keep p)[a]? = if p a then m[a]? else none := by
  unfold keep
  rw [Std.ExtTreeMap.getElem?_filter']
  cases h : m[a]? <;> by_cases hp : p a <;> simp [hp]

/-! ## Section 2: Enumerating the children -/

theorem mem_toList (m : ChildMap K V) {k : K} {v : V} : (k, v) ∈ m.toList ↔ m[k]? = some v :=
  Std.ExtTreeMap.mem_toList_iff_getElem?_eq_some

/-- The children come in strictly increasing key order. -/
theorem sorted_toList (m : ChildMap K V) : m.toList.Pairwise (fun a b => a.1 < b.1) :=
  (Std.ExtTreeMap.ordered_keys_toList (t := m)).imp (fun h => compare_lt_iff_lt.mp h)

theorem nodup_toList (m : ChildMap K V) : m.toList.Nodup :=
  m.sorted_toList.imp (fun h => by rintro rfl; exact lt_irrefl _ h)

/-- Two children with one key are one child. -/
theorem eq_of_mem_toList (m : ChildMap K V) {a b : K × V} (ha : a ∈ m.toList)
    (hb : b ∈ m.toList) (h : a.1 = b.1) : a = b := by
  obtain ⟨k, v⟩ := a
  obtain ⟨k', w⟩ := b
  obtain rfl : k = k' := h
  have hv := m.mem_toList.mp ha
  have hw := m.mem_toList.mp hb
  rw [hv] at hw
  rw [Option.some.inj hw]

/-- Writing a child under a fresh key adds it to the enumeration, wherever the
    key order puts it. -/
theorem toList_put_fresh (m : ChildMap K V) {k : K} (v : V) (h : m[k]? = none) :
    (m.put k (some v)).toList.Perm ((k, v) :: m.toList) := by
  have hfresh : (k, v) ∉ m.toList := by simp [m.mem_toList, h]
  rw [List.perm_ext_iff_of_nodup (nodup_toList _) (m.nodup_toList.cons hfresh)]
  rintro ⟨a, w⟩
  rw [mem_toList, getElem?_put, List.mem_cons, m.mem_toList]
  by_cases hk : k = a
  · subst hk
    simp [h, eq_comm]
  · simp [hk, Ne.symm hk]

/-- Overwriting a child leaves the other children of the enumeration alone. -/
theorem toList_put_present (m : ChildMap K V) {k : K} (v : V) {old : V} (h : m[k]? = some old) :
    ∃ rest, m.toList.Perm ((k, old) :: rest) ∧ (m.put k (some v)).toList.Perm ((k, v) :: rest) := by
  -- Removing the child first reduces both enumerations to a fresh write.
  have hgone : (m.put k none)[k]? = none := by simp
  refine ⟨(m.put k none).toList, ?_, ?_⟩
  · have hm : (m.put k none).put k (some old) = m := by
      apply Std.ExtTreeMap.ext_getElem?
      intro a
      rw [getElem?_put, getElem?_put]
      by_cases hk : k = a
      · subst hk; simp [h]
      · simp [hk]
    have := toList_put_fresh (m.put k none) old hgone
    rwa [hm] at this
  · have hm : (m.put k none).put k (some v) = m.put k (some v) := by
      apply Std.ExtTreeMap.ext_getElem?
      intro a
      by_cases hk : k = a <;> simp [getElem?_put, hk]
    have := toList_put_fresh (m.put k none) v hgone
    rwa [hm] at this

end ChildMap
