import Mathlib.Tactic.Ring
import MeetupApp.Framework.SortedEntries

/-! # The order of the keys

    `FUtilities compareKey:toKey:` is the comparator of all children of the
    database: keys that read as 32-bit integers come first, in numeric order,
    and the other keys after them in the order of their UTF-16 code units.  It
    is a total preorder.  It identifies no two names but the spellings `0…0` and
    `-0…0` of zero, which have the same value and the same length. -/

namespace MeetupApp.Firebase

/-- A string as `NSString` holds it: its UTF-16 code units. -/
abbrev NSString := List UInt16

/-! ## Section 1: compareKey:toKey: -/

/-- A key: the two bounds are recognised by their address, not by their text. -/
inductive FKey where
  | minName
  | maxName
  | name (s : NSString)
  deriving DecidableEq

/-- The loop of `tryParseStringToInt` over the digits. -/
def parseDigits : Nat → NSString → Option Nat
  | value, [] => some value
  | value, c :: cs =>
    if c < 48 || c > 57 then none else parseDigits (value * 10 + (c.toNat - 48)) cs

/-- `tryParseStringToInt`; 45 is the minus sign. -/
def tryParseStringToInt (str : NSString) : Option Int :=
  if str.length > 11 || str.length = 0 then none
  else do
    let negative := str.head? = some 45
    if negative && str.length = 1 then none
    else do
      let digits ← parseDigits 0 (if negative then str.drop 1 else str)
      let value : Int := if negative then -digits else digits
      if value < -2147483648 || value > 2147483647 then none else some value

/-- `compareKey:toKey:` -/
def compareKey : FKey → FKey → Ordering
  | .minName, .minName => .eq
  | .maxName, .maxName => .eq
  | .minName, _ => .lt
  | _, .maxName => .lt
  | _, .minName => .gt
  | .maxName, _ => .gt
  | .name a, .name b =>
    match tryParseStringToInt a, tryParseStringToInt b with
    | some aAsInt, some bAsInt =>
      if aAsInt > bAsInt then .gt
      else if aAsInt < bAsInt then .lt
      else if a.length > b.length then .gt
      else if a.length < b.length then .lt
      else .eq
    | some _, none => .lt
    | none, some _ => .gt
    | none, none => compare a b

/-! ## Section 2: A total preorder -/

/-- What the comparator looks at: the class of the key, its integer, its length, its text. -/
def FKey.rank : FKey → Nat × Int × Nat × NSString
  | minName => (0, 0, 0, [])
  | maxName => (3, 0, 0, [])
  | name s =>
    match tryParseStringToInt s with
    | some i => (1, i, s.length, [])
    | none => (2, 0, 0, s)

/-- Ranks are compared component by component. -/
def compareRank : Nat × Int × Nat × NSString → Nat × Int × Nat × NSString → Ordering :=
  compareLex (compareOn (·.1)) (compareLex (compareOn (·.2.1))
    (compareLex (compareOn (·.2.2.1)) (compareOn (·.2.2.2))))

instance transCmp_compareRank : Std.TransCmp compareRank := by
  unfold compareRank
  infer_instance

theorem compareRank_eq_iff {a b : Nat × Int × Nat × NSString} :
    compareRank a b = .eq ↔ a = b := by
  obtain ⟨a₁, a₂, a₃, a₄⟩ := a
  obtain ⟨b₁, b₂, b₃, b₄⟩ := b
  simp [compareRank, compareLex_eq_eq, compareOn]

/-- Two integers of one length. -/
theorem compare_ints (i j : Int) (m n : Nat) :
    compareRank (1, i, m, []) (1, j, n, [])
      = if i > j then .gt else if i < j then .lt else if m > n then .gt
        else if m < n then .lt else .eq := by
  have hclass : compare 1 1 = Ordering.eq := rfl
  have htext : compare ([] : NSString) [] = .eq := rfl
  simp only [compareRank, compareLex, compareOn, hclass, htext, Ordering.eq_then,
    Ordering.then_eq]
  rcases lt_trichotomy i j with h | h | h
  · simp [compare_lt_iff_lt.mpr h, h, not_lt_of_gt h]
  · subst h
    rcases lt_trichotomy m n with h | h | h
    · simp [compare_lt_iff_lt.mpr h, h, not_lt_of_gt h]
    · simp [h]
    · simp [compare_gt_iff_gt.mpr h, h]
  · simp [compare_gt_iff_gt.mpr h, h]

/-- The comparator compares the ranks. -/
theorem compareKey_eq_compareRank (a b : FKey) : compareKey a b = compareRank a.rank b.rank := by
  have hclass : ∀ (x y : Int × Nat × NSString) (m n : Nat), m < n →
      compareRank (m, x) (n, y) = .lt ∧ compareRank (n, y) (m, x) = .gt := by
    intro x y m n h
    simp [compareRank, compareLex, compareOn, compare_lt_iff_lt.mpr h, compare_gt_iff_gt.mpr h]
  cases a with
  | minName =>
    cases b with
    | minName => rfl
    | maxName => rfl
    | name t =>
      rw [FKey.rank, FKey.rank]
      cases tryParseStringToInt t with
      | none => exact (hclass _ _ 0 2 (by omega)).1.symm
      | some i => exact (hclass _ _ 0 1 (by omega)).1.symm
  | maxName =>
    cases b with
    | minName => rfl
    | maxName => rfl
    | name t =>
      rw [FKey.rank, FKey.rank]
      cases tryParseStringToInt t with
      | none => exact (hclass _ _ 2 3 (by omega)).2.symm
      | some i => exact (hclass _ _ 1 3 (by omega)).2.symm
  | name s =>
    cases b with
    | minName =>
      rw [FKey.rank, FKey.rank]
      cases tryParseStringToInt s with
      | none => exact (hclass _ _ 0 2 (by omega)).2.symm
      | some i => exact (hclass _ _ 0 1 (by omega)).2.symm
    | maxName =>
      rw [FKey.rank, FKey.rank]
      cases tryParseStringToInt s with
      | none => exact (hclass _ _ 2 3 (by omega)).1.symm
      | some i => exact (hclass _ _ 1 3 (by omega)).1.symm
    | name t =>
      rw [FKey.rank, FKey.rank, compareKey]
      cases tryParseStringToInt s with
      | none =>
        cases tryParseStringToInt t with
        | none => simp [compareRank, compareLex, compareOn]
        | some j => exact (hclass _ _ 1 2 (by omega)).2.symm
      | some i =>
        cases tryParseStringToInt t with
        | none => exact (hclass _ _ 1 2 (by omega)).1.symm
        | some j => exact (compare_ints i j s.length t.length).symm

instance transCmp_compareKey : Std.TransCmp compareKey where
  eq_swap := by
    intro a b
    rw [compareKey_eq_compareRank, compareKey_eq_compareRank]
    exact Std.OrientedCmp.eq_swap
  isLE_trans := by
    intro a b c hab hbc
    rw [compareKey_eq_compareRank] at *
    exact Std.TransCmp.isLE_trans hab hbc

/-! ## Section 3: Keys that compare as equal -/

/-- The digits read so far are the leading digits of the result. -/
theorem parseDigits_bounds {cs : NSString} {value n : Nat} (h : parseDigits value cs = some n) :
    value * 10 ^ cs.length ≤ n ∧ n < (value + 1) * 10 ^ cs.length := by
  induction cs generalizing value with
  | nil =>
    obtain rfl := Option.some.inj h
    simp
  | cons c cs ih =>
    rw [parseDigits, Option.ite_none_left_eq_some] at h
    obtain ⟨hdigit, h⟩ := h
    have hc : c.toNat - 48 ≤ 9 := by
      simp [UInt16.lt_iff_toNat_lt] at hdigit
      omega
    obtain ⟨hlow, hhigh⟩ := ih h
    rw [List.length_cons, Nat.pow_succ]
    constructor
    · refine le_trans ?_ hlow
      calc value * (10 ^ cs.length * 10) = value * 10 * 10 ^ cs.length := by ring
        _ ≤ (value * 10 + (c.toNat - 48)) * 10 ^ cs.length :=
          Nat.mul_le_mul_right _ (Nat.le_add_right _ _)
    · refine lt_of_lt_of_le hhigh ?_
      calc (value * 10 + (c.toNat - 48) + 1) * 10 ^ cs.length
          ≤ (value * 10 + 10) * 10 ^ cs.length := Nat.mul_le_mul_right _ (by omega)
        _ = (value + 1) * (10 ^ cs.length * 10) := by ring

/-- As many digits with the same value are the same digits. -/
theorem parseDigits_injective {cs ds : NSString} {value n : Nat} (hlen : cs.length = ds.length)
    (hc : parseDigits value cs = some n) (hd : parseDigits value ds = some n) : cs = ds := by
  induction cs generalizing ds value with
  | nil => exact (List.length_eq_zero_iff.mp hlen.symm).symm
  | cons c cs ih =>
    cases ds with
    | nil => cases hlen
    | cons d ds =>
      have hlen' : cs.length = ds.length := by simpa using hlen
      rw [parseDigits, Option.ite_none_left_eq_some] at hc hd
      obtain ⟨hcdigit, hc⟩ := hc
      obtain ⟨hddigit, hd⟩ := hd
      -- The first digit is the quotient by the power of ten that follows it.
      have hbc := parseDigits_bounds hc
      have hbd := parseDigits_bounds hd
      rw [← hlen'] at hbd
      have hpos : 0 < 10 ^ cs.length := Nat.pow_pos (by omega)
      have hquot : value * 10 + (c.toNat - 48) = value * 10 + (d.toNat - 48) := by
        have h₁ := lt_of_mul_lt_mul_right (lt_of_le_of_lt hbc.1 hbd.2) (Nat.zero_le _)
        have h₂ := lt_of_mul_lt_mul_right (lt_of_le_of_lt hbd.1 hbc.2) (Nat.zero_le _)
        omega
      have hcd : c = d := by
        apply UInt16.toNat_inj.mp
        simp [UInt16.lt_iff_toNat_lt] at hcdigit hddigit
        omega
      subst hcd
      rw [ih hlen' hc hd]

/-- `0` written with `n` digits. -/
def zeros (n : Nat) : NSString := List.replicate n 48

@[simp] theorem length_zeros (n : Nat) : (zeros n).length = n := List.length_replicate

theorem parseDigits_zeros (n : Nat) : parseDigits 0 (zeros n) = some 0 := by
  induction n with
  | zero => rfl
  | succ n ih => exact ih

theorem eq_zeros {cs : NSString} (h : parseDigits 0 cs = some 0) : cs = zeros cs.length :=
  parseDigits_injective (by simp [zeros]) h (parseDigits_zeros _)

/-- How a string reads as an integer: digits, or a minus sign before digits. -/
theorem tryParseStringToInt_eq_some {s : NSString} {i : Int}
    (h : tryParseStringToInt s = some i) :
    (∃ n : Nat, parseDigits 0 s = some n ∧ i = n)
      ∨ ∃ cs n, s = 45 :: cs ∧ parseDigits 0 cs = some n ∧ i = -(n : Int) := by
  unfold tryParseStringToInt at h
  rw [Option.ite_none_left_eq_some] at h
  obtain ⟨-, h⟩ := h
  by_cases hneg : s.head? = some 45
  · right
    simp only [hneg, decide_true, if_true, Option.bind_eq_bind,
      Option.ite_none_left_eq_some, Option.bind_eq_some_iff] at h
    obtain ⟨-, n, hn, -, hi⟩ := h
    obtain ⟨cs, rfl⟩ := List.head?_eq_some_iff.mp hneg
    exact ⟨cs, n, rfl, hn, (Option.some.inj hi).symm⟩
  · left
    simp only [hneg, decide_false, Bool.false_eq_true, if_false, Option.bind_eq_bind,
      Bool.false_and, Option.ite_none_left_eq_some, Option.bind_eq_some_iff] at h
    obtain ⟨n, hn, -, hi⟩ := h
    exact ⟨n, hn, (Option.some.inj hi).symm⟩

theorem tryParseStringToInt_zeros {n : Nat} (h : n ≤ 10) :
    tryParseStringToInt (zeros (n + 1)) = some 0 := by
  have hparse := parseDigits_zeros (n + 1)
  have hhead : (zeros (n + 1)).head? ≠ some 45 := by
    intro h
    cases Option.some.inj h
  have hlen : ¬ (n + 1 > 11) := by omega
  simp only [tryParseStringToInt, length_zeros, hlen, hhead]
  simp [hparse]

theorem tryParseStringToInt_minus_zeros {n : Nat} (h : n < 10) :
    tryParseStringToInt (45 :: zeros (n + 1)) = some 0 := by
  have hparse := parseDigits_zeros (n + 1)
  have hlen : ¬ (n + 1 + 1 > 11) := by omega
  simp only [tryParseStringToInt, List.length_cons, length_zeros, hlen, List.head?_cons,
    List.drop_one, List.tail_cons]
  simp [hparse]

/-- The two spellings of zero with `n + 2` code units, in either order. -/
def ZeroSpellings (a b : FKey) : Prop :=
  ∃ n, n < 10 ∧ ((a = .name (zeros (n + 2)) ∧ b = .name (45 :: zeros (n + 1)))
    ∨ (b = .name (zeros (n + 2)) ∧ a = .name (45 :: zeros (n + 1))))

theorem rank_name_of_parse {s : NSString} {i : Int} (h : tryParseStringToInt s = some i) :
    (FKey.name s).rank = (1, i, s.length, []) := by
  rw [FKey.rank, h]

theorem rank_name_of_not_parse {s : NSString} (h : tryParseStringToInt s = none) :
    (FKey.name s).rank = (2, 0, 0, s) := by
  rw [FKey.rank, h]

theorem ZeroSpellings.symm {a b : FKey} (h : ZeroSpellings a b) : ZeroSpellings b a := by
  obtain ⟨n, hn, hab⟩ := h
  exact ⟨n, hn, hab.symm⟩

/-- The two spellings differ in their first code unit. -/
theorem ZeroSpellings.ne {a b : FKey} (h : ZeroSpellings a b) : a ≠ b := by
  obtain ⟨n, -, ⟨rfl, rfl⟩ | ⟨rfl, rfl⟩⟩ := h <;>
    simp [zeros, List.replicate_succ]

/-- A spelling of zero with a minus sign has a digit, and at most eleven code units. -/
theorem zeroSpellings_of_minus {s cs : NSString} (hlen : s.length = (45 :: cs).length)
    (hs : s = zeros s.length) (hcs : cs = zeros cs.length)
    (hread : tryParseStringToInt (45 :: cs) = some 0) :
    ZeroSpellings (.name s) (.name (45 :: cs)) := by
  have hshort : ¬ (45 :: cs).length > 11 := by
    intro hlong
    rw [tryParseStringToInt, if_pos (by simp only [hlong, decide_true, Bool.true_or])] at hread
    cases hread
  cases cs with
  | nil => cases hread
  | cons c cs =>
    refine ⟨cs.length, by simp at hshort; omega, .inl ⟨?_, ?_⟩⟩
    · rw [hs, hlen]
      rfl
    · rw [hcs]
      simp

/-- Two integers of the same value and the same length. -/
theorem eq_or_zeroSpellings {s t : NSString} {i : Int} (hs : tryParseStringToInt s = some i)
    (ht : tryParseStringToInt t = some i) (hlen : s.length = t.length) :
    s = t ∨ ZeroSpellings (.name s) (.name t) := by
  rcases tryParseStringToInt_eq_some hs with ⟨n, hn, rfl⟩ | ⟨cs, n, rfl, hn, rfl⟩
  · rcases tryParseStringToInt_eq_some ht with ⟨m, hm, hnm⟩ | ⟨ds, m, rfl, hm, hnm⟩
    · obtain rfl : n = m := by omega
      exact .inl (parseDigits_injective hlen hn hm)
    · obtain ⟨rfl, rfl⟩ : n = 0 ∧ m = 0 := by omega
      exact .inr (zeroSpellings_of_minus hlen (eq_zeros hn) (eq_zeros hm) ht)
  · rcases tryParseStringToInt_eq_some ht with ⟨m, hm, hnm⟩ | ⟨ds, m, rfl, hm, hnm⟩
    · obtain ⟨rfl, rfl⟩ : n = 0 ∧ m = 0 := by omega
      exact .inr (zeroSpellings_of_minus hlen.symm (eq_zeros hm) (eq_zeros hn) hs).symm
    · obtain rfl : n = m := by omega
      have hcs : cs = ds := parseDigits_injective (by simpa using hlen) hn hm
      exact .inl (by rw [hcs])

/-- Keys compare as equal only if they are equal, or spell zero with the same length. -/
theorem compareKey_eq_iff (a b : FKey) : compareKey a b = .eq ↔ a = b ∨ ZeroSpellings a b := by
  rw [compareKey_eq_compareRank, compareRank_eq_iff]
  constructor
  · intro h
    cases a with
    | minName =>
      cases b with
      | minName => exact .inl rfl
      | maxName => cases h
      | name t =>
        cases ht : tryParseStringToInt t with
        | none => rw [rank_name_of_not_parse ht] at h; cases h
        | some j => rw [rank_name_of_parse ht] at h; cases h
    | maxName =>
      cases b with
      | minName => cases h
      | maxName => exact .inl rfl
      | name t =>
        cases ht : tryParseStringToInt t with
        | none => rw [rank_name_of_not_parse ht] at h; cases h
        | some j => rw [rank_name_of_parse ht] at h; cases h
    | name s =>
      cases hs : tryParseStringToInt s with
      | none =>
        rw [rank_name_of_not_parse hs] at h
        cases b with
        | minName => cases h
        | maxName => cases h
        | name t =>
          cases ht : tryParseStringToInt t with
          | some j => rw [rank_name_of_parse ht] at h; cases h
          | none =>
            rw [rank_name_of_not_parse ht] at h
            simp only [Prod.mk.injEq, true_and] at h
            exact .inl (by rw [h])
      | some i =>
        rw [rank_name_of_parse hs] at h
        cases b with
        | minName => cases h
        | maxName => cases h
        | name t =>
          cases ht : tryParseStringToInt t with
          | none => rw [rank_name_of_not_parse ht] at h; cases h
          | some j =>
            rw [rank_name_of_parse ht] at h
            simp only [Prod.mk.injEq, true_and, and_true] at h
            obtain ⟨rfl, hlen⟩ := h
            rcases eq_or_zeroSpellings hs ht hlen with rfl | hzero
            · exact .inl rfl
            · exact .inr hzero
  · rintro (rfl | ⟨n, hn, ⟨rfl, rfl⟩ | ⟨rfl, rfl⟩⟩)
    · rfl
    · rw [rank_name_of_parse (tryParseStringToInt_zeros (n := n + 1) (by omega)),
        rank_name_of_parse (tryParseStringToInt_minus_zeros hn)]
      simp
    · rw [rank_name_of_parse (tryParseStringToInt_zeros (n := n + 1) (by omega)),
        rank_name_of_parse (tryParseStringToInt_minus_zeros hn)]
      simp

end MeetupApp.Firebase
