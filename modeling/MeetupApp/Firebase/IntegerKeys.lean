import MeetupApp.Firebase.Path

/-! # Integers as keys

    `%i` writes the index of an array element as a key, and a key in this form is
    read as an integer again.  A string of digits without a leading zero is the
    one that `%i` writes for its value, so the integer keys of a node are in the
    order of the array. -/

namespace MeetupApp.Firebase

/-! ## Section 1: Writing an integer -/

/-- The digit `0` to `9`. -/
def digit (d : Nat) : UInt16 := UInt16.ofNat (48 + d)

/-- `[NSString stringWithFormat:@"%i", n]` of a number that is not negative. -/
def decimal (n : Nat) : NSString :=
  if n < 10 then [digit n] else decimal (n / 10) ++ [digit (n % 10)]

theorem toNat_digit {d : Nat} (h : d < 10) : (digit d).toNat = 48 + d := by
  rw [digit, UInt16.toNat_ofNat']
  omega

theorem parseDigits_append (value : Nat) (cs ds : NSString) :
    parseDigits value (cs ++ ds) = (parseDigits value cs).bind (parseDigits · ds) := by
  induction cs generalizing value with
  | nil => rfl
  | cons c cs ih =>
    rw [List.cons_append, parseDigits, parseDigits]
    split
    · rfl
    · exact ih _

theorem parseDigits_digit (value : Nat) {d : Nat} (h : d < 10) :
    parseDigits value [digit d] = some (value * 10 + d) := by
  have hrange : ¬ (digit d < 48 ∨ digit d > 57) := by
    simp only [gt_iff_lt, UInt16.lt_iff_toNat_lt, toNat_digit h, UInt16.reduceToNat]
    omega
  rw [parseDigits, if_neg (by simpa using hrange), parseDigits, toNat_digit h]
  simp

/-- What is written is read again. -/
theorem parseDigits_decimal (n : Nat) : parseDigits 0 (decimal n) = some n := by
  fun_induction decimal n with
  | case1 n hlt => simpa using parseDigits_digit 0 hlt
  | case2 n hge ih =>
    rw [parseDigits_append, ih, Option.bind_some, parseDigits_digit _ (Nat.mod_lt _ (by omega))]
    congr 1
    omega

theorem decimal_ne_nil (n : Nat) : decimal n ≠ [] := by
  rw [decimal]
  split <;> simp

/-- Only digits are written. -/
theorem mem_decimal {n : Nat} {c : UInt16} (h : c ∈ decimal n) : ∃ d < 10, c = digit d := by
  fun_induction decimal n with
  | case1 n hlt => exact ⟨n, hlt, List.mem_singleton.mp h⟩
  | case2 n hge ih =>
    rcases List.mem_append.mp h with hc | hc
    · exact ih hc
    · exact ⟨n % 10, Nat.mod_lt _ (by omega), List.mem_singleton.mp hc⟩

/-- A number that is not zero is not written with a leading zero. -/
theorem head_decimal {n : Nat} (hpos : 0 < n) : (decimal n).head? ≠ some 48 := by
  fun_induction decimal n with
  | case1 n hlt =>
    intro h
    have hdigit : (digit n).toNat = 48 := by
      rw [Option.some.inj h]
      rfl
    rw [toNat_digit hlt] at hdigit
    omega
  | case2 n hge ih =>
    rw [List.head?_append_of_ne_nil _ (decimal_ne_nil _)]
    exact ih (by omega)

/-! ## Section 2: Strings of digits -/

/-- No leading zero, except for `0` itself. -/
def NoLeadingZero (s : NSString) : Prop := s ≠ [] ∧ (s.head? = some 48 → s = [48])

theorem noLeadingZero_decimal (n : Nat) : NoLeadingZero (decimal n) := by
  refine ⟨decimal_ne_nil n, fun h => ?_⟩
  rcases Nat.eq_zero_or_pos n with rfl | hpos
  · rw [decimal]
    rfl
  · exact absurd h (head_decimal hpos)

/-- The value is at least the power of ten of the digits after the first. -/
theorem pow_le_of_parseDigits {s : NSString} {n : Nat} (hs : NoLeadingZero s)
    (h : parseDigits 0 s = some n) (hn : 0 < n) : 10 ^ (s.length - 1) ≤ n := by
  obtain ⟨hne, hzero⟩ := hs
  cases s with
  | nil => exact absurd rfl hne
  | cons c cs =>
    rw [parseDigits, Option.ite_none_left_eq_some] at h
    obtain ⟨hdigit, h⟩ := h
    have hfirst : c.toNat ≠ 48 := by
      intro hc
      obtain rfl : c = 48 := UInt16.toNat_inj.mp hc
      obtain rfl : cs = [] := by simpa using hzero rfl
      obtain rfl := Option.some.inj h
      simp at hn
    have hpos : 1 ≤ 0 * 10 + (c.toNat - 48) := by
      simp [UInt16.lt_iff_toNat_lt] at hdigit
      omega
    calc 10 ^ cs.length = 1 * 10 ^ cs.length := (Nat.one_mul _).symm
      _ ≤ (0 * 10 + (c.toNat - 48)) * 10 ^ cs.length := Nat.mul_le_mul_right _ hpos
      _ ≤ n := (parseDigits_bounds h).1

theorem lt_pow_of_parseDigits {s : NSString} {n : Nat} (h : parseDigits 0 s = some n) :
    n < 10 ^ s.length := by
  simpa using (parseDigits_bounds h).2

/-- Without a leading zero the digits are determined by the value. -/
theorem eq_of_parseDigits {s t : NSString} {n : Nat} (hs : NoLeadingZero s)
    (ht : NoLeadingZero t) (hn : parseDigits 0 s = some n) (hn' : parseDigits 0 t = some n) :
    s = t := by
  rcases Nat.eq_zero_or_pos n with rfl | hpos
  · -- Zero is a string of zeros, and only one of them has no leading zero.
    have hzero : ∀ {r : NSString}, NoLeadingZero r → parseDigits 0 r = some 0 → r = [48] := by
      intro r hr hparse
      refine hr.2 ?_
      have heq := eq_zeros hparse
      cases r with
      | nil => exact absurd rfl hr.1
      | cons c cs =>
        rw [List.length_cons, zeros, List.replicate_succ] at heq
        rw [heq, List.head?_cons]
    rw [hzero hs hn, hzero ht hn']
  · have hlow := pow_le_of_parseDigits hs hn hpos
    have hlow' := pow_le_of_parseDigits ht hn' hpos
    have hlt := (Nat.pow_lt_pow_iff_right (by omega)).mp
      (lt_of_le_of_lt hlow (lt_pow_of_parseDigits hn'))
    have hlt' := (Nat.pow_lt_pow_iff_right (by omega)).mp
      (lt_of_le_of_lt hlow' (lt_pow_of_parseDigits hn))
    exact parseDigits_injective (by omega) hn hn'

theorem eq_decimal {s : NSString} {n : Nat} (hs : NoLeadingZero s)
    (hn : parseDigits 0 s = some n) : s = decimal n :=
  eq_of_parseDigits hs (noLeadingZero_decimal n) hn (parseDigits_decimal n)

theorem decimal_injective {m n : Nat} (h : decimal m = decimal n) : m = n := by
  have hm := parseDigits_decimal m
  rw [h, parseDigits_decimal] at hm
  exact (Option.some.inj hm).symm

/-! ## Section 3: The order of integer keys -/

/-- A 32-bit integer is read as such by the comparator. -/
theorem tryParseStringToInt_decimal {n : Nat} (h : n ≤ 2147483647) :
    tryParseStringToInt (decimal n) = some (n : Int) := by
  have hparse := parseDigits_decimal n
  have hlen : ¬ (decimal n).length > 11 := by
    rcases Nat.eq_zero_or_pos n with rfl | hpos
    · rw [decimal]
      decide
    · have hlow := pow_le_of_parseDigits (noLeadingZero_decimal n) hparse hpos
      have hlt : 10 ^ ((decimal n).length - 1) < 10 ^ 10 := by omega
      have := (Nat.pow_lt_pow_iff_right (by omega)).mp hlt
      omega
  have hne : (decimal n).length ≠ 0 := by
    rw [ne_eq, List.length_eq_zero_iff]
    exact decimal_ne_nil n
  have hminus : (decimal n).head? ≠ some 45 := by
    intro hhead
    obtain ⟨cs, hcs⟩ := List.head?_eq_some_iff.mp hhead
    rw [hcs] at hparse
    cases hparse
  have hlow : ¬ (n : Int) < -2147483648 := by omega
  have hhigh : ¬ (n : Int) > 2147483647 := by omega
  simp only [tryParseStringToInt, hlen, hne, hminus, decide_false, Bool.or_false, Bool.false_and,
    Bool.false_eq_true, if_false, hparse, hlow, hhigh, Option.bind_eq_bind, Option.bind_some]

/-- Integer keys are in numeric order. -/
theorem compareName_decimal {m n : Nat} (hlt : m < n) (hn : n ≤ 2147483647) :
    FPath.compareName (decimal m) (decimal n) = .lt := by
  have hm : m ≤ 2147483647 := by omega
  have hnot : ¬ (m : Int) > n := by omega
  have hless : (m : Int) < n := by omega
  rw [FPath.compareName, compareKey, tryParseStringToInt_decimal hm,
    tryParseStringToInt_decimal hn]
  simp only [hnot, hless, if_false, if_true]

end MeetupApp.Firebase
