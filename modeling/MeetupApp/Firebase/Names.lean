import MeetupApp.Firebase.IntegerKeys

/-! # Names of children

    Not every string names a child.  `.priority`, `.value` and `.sv` say something
    about the node they stand in, and a type of names has none of them: over such a
    type nodes are without priorities, and a payload without metadata.

    `Name` leaves out more that the app does not use, the names that are not ASCII and
    the spellings `-0…0` of zero.  On what remains both comparators of the library,
    that of the nodes and that of the compound writes, tell all names apart. -/

namespace MeetupApp.Firebase

/-! ## Section 1: Strings -/

/-- The code units of a character. -/
def utf16Units (c : Char) : NSString :=
  if c.toNat < 65536 then [UInt16.ofNat c.toNat]
  else [UInt16.ofNat (55296 + (c.toNat - 65536) / 1024),
    UInt16.ofNat (56320 + (c.toNat - 65536) % 1024)]

/-- A Swift string as an `NSString`. -/
def utf16 (s : String) : NSString := s.toList.flatMap utf16Units

theorem Char.toNat_range (c : Char) : c.toNat < 55296 ∨ 57343 < c.toNat ∧ c.toNat < 1114112 :=
  c.valid

/-- The first character is determined by the first one or two code units. -/
theorem utf16Units_append_inj {c d : Char} {s t : NSString}
    (h : utf16Units c ++ s = utf16Units d ++ t) : c = d ∧ s = t := by
  have hc := Char.toNat_range c
  have hd := Char.toNat_range d
  rw [utf16Units, utf16Units] at h
  suffices heq : c.toNat = d.toNat ∧ s = t from ⟨Char.toNat_inj.mp heq.1, heq.2⟩
  -- A unit of a pair is in the range that no character is in.
  split at h <;> split at h <;>
    simp only [List.cons_append, List.nil_append, List.cons.injEq, ← UInt16.toNat_inj,
      UInt16.toNat_ofNat'] at h
  · exact ⟨by omega, h.2⟩
  · omega
  · omega
  · exact ⟨by omega, h.2.2⟩

theorem utf16_injective {s t : String} (h : utf16 s = utf16 t) : s = t := by
  suffices hlists :
      ∀ cs ds : List Char, cs.flatMap utf16Units = ds.flatMap utf16Units → cs = ds from
    String.toList_inj.mp (hlists _ _ h)
  intro cs
  have hne : ∀ c : Char, utf16Units c ≠ [] := by
    intro c
    rw [utf16Units]
    split <;> simp
  induction cs with
  | nil =>
    intro ds hds
    cases ds with
    | nil => rfl
    | cons d ds => simp [List.flatMap_cons, hne d] at hds
  | cons c cs ih =>
    intro ds hds
    cases ds with
    | nil => simp [List.flatMap_cons, hne c] at hds
    | cons d ds =>
      rw [List.flatMap_cons, List.flatMap_cons] at hds
      obtain ⟨rfl, hrest⟩ := utf16Units_append_inj hds
      rw [ih ds hrest]

/-! ## Section 2: Types of names -/

/-- `kPayloadPriority`, `kPayloadValue` and `kServerValueSubKey`. -/
def metadataKeys : List NSString := [utf16 ".priority", utf16 ".value", utf16 ".sv"]

/-- `isValidKey:`; the code units are those of `[].#$/`. -/
def isValidKey (key : NSString) : Bool :=
  key.length > 0 && key.all (fun c => c ∉ [91, 93, 46, 35, 36, 47])

theorem ne_nil_of_isValidKey {key : NSString} (h : isValidKey key = true) : key ≠ [] := by
  rintro rfl
  cases h

theorem isValidKey_decimal (n : Nat) : isValidKey (decimal n) = true := by
  have hdigit : ∀ d < 10, digit d ∉ ([91, 93, 46, 35, 36, 47] : List UInt16) := by decide
  have hpos : 0 < (decimal n).length := List.length_pos_iff.mpr (decimal_ne_nil n)
  rw [isValidKey, Bool.and_eq_true]
  refine ⟨decide_eq_true hpos, List.all_eq_true.mpr (fun c hc => decide_eq_true ?_)⟩
  obtain ⟨d, hd, rfl⟩ := mem_decimal hc
  exact hdigit d hd

theorem not_mem_metadataKeys {key : NSString} (h : isValidKey key = true) :
    key ∉ metadataKeys := by
  have hall : ∀ key ∈ metadataKeys, isValidKey key = false := by decide
  intro hmem
  rw [hall key hmem] at h
  cases h

/-- A type of names: their texts, none of them a metadata key, and the names `%i` of the
    elements of an array. -/
class ChildName (K : Type) where
  text : K → NSString
  text_injective : Function.Injective text
  text_not_metadata : ∀ key, text key ∉ metadataKeys
  index : Nat → K
  text_index : ∀ i, text (index i) = decimal i

section comparator
variable {K : Type} [ChildName K]

/-- `keyComparator` -/
def keyComparator (a b : K) : Ordering :=
  FPath.compareName (ChildName.text a) (ChildName.text b)

instance transCmp_keyComparator : Std.TransCmp (keyComparator : K → K → Ordering) where
  eq_swap := FPath.transCmp_compareName.eq_swap
  isLE_trans := FPath.transCmp_compareName.isLE_trans

/-- The elements of an array are in the order of their indices. -/
theorem keyComparator_index {m n : Nat} (hlt : m < n) (hn : n ≤ 2147483647) :
    keyComparator (ChildName.index m : K) (ChildName.index n) = .lt := by
  rw [keyComparator, ChildName.text_index, ChildName.text_index]
  exact compareName_decimal hlt hn

theorem eq_index {key : K} {n : Nat} (h : ChildName.text key = decimal n) :
    key = ChildName.index n :=
  ChildName.text_injective (h.trans (ChildName.text_index n).symm)

theorem index_injective {m n : Nat} (h : (ChildName.index m : K) = ChildName.index n) :
    m = n := by
  refine decimal_injective ?_
  rw [← ChildName.text_index (K := K), ← ChildName.text_index (K := K), h]

end comparator

/-- Every string but the metadata keys. -/
abbrev ChildKey := { s : NSString // s ∉ metadataKeys }

instance : ChildName ChildKey where
  text := Subtype.val
  text_injective := Subtype.val_injective
  text_not_metadata := Subtype.property
  index i := ⟨decimal i, not_mem_metadataKeys (isValidKey_decimal i)⟩
  text_index _ := rfl

/-! ## Section 3: Names that the comparators tell apart -/

/-- A minus sign before digits that read as zero. -/
def isMinusZero (s : NSString) : Bool :=
  s.head? = some 45 && tryParseStringToInt s = some 0

/-- A valid key in ASCII that is no `-0…0`. -/
def isName (s : NSString) : Bool :=
  isValidKey s && s.all (· < 128) && !isMinusZero s

/-- The names that this app and its server use. -/
abbrev Name := { s : NSString // isName s = true }

namespace Name

theorem isValidKey (name : Name) : isValidKey name.1 = true := by
  have h := name.2
  rw [isName, Bool.and_eq_true, Bool.and_eq_true] at h
  exact h.1.1

theorem not_isMinusZero (name : Name) : isMinusZero name.1 = false := by
  have h := name.2
  rw [isName, Bool.and_eq_true, Bool.not_eq_true'] at h
  exact h.2

end Name

theorem isName_decimal (n : Nat) : isName (decimal n) = true := by
  have hascii : ∀ d < 10, digit d < 128 ∧ digit d ≠ 45 := by decide
  have hall : (decimal n).all (· < 128) = true := by
    rw [List.all_eq_true]
    intro c hc
    obtain ⟨d, hd, rfl⟩ := mem_decimal hc
    exact decide_eq_true (hascii d hd).1
  have hminus : (decimal n).head? ≠ some 45 := by
    intro hhead
    obtain ⟨d, hd, heq⟩ := mem_decimal (List.mem_of_head? hhead)
    exact (hascii d hd).2 heq.symm
  rw [isName, isValidKey_decimal, hall, isMinusZero, decide_eq_false hminus]
  rfl

instance : ChildName Name where
  text := Subtype.val
  text_injective := Subtype.val_injective
  text_not_metadata name := not_mem_metadataKeys name.isValidKey
  index i := ⟨decimal i, isName_decimal i⟩
  text_index _ := rfl

/-- One of two spellings of zero has a minus sign. -/
theorem ZeroSpellings.isMinusZero {s t : NSString} (h : ZeroSpellings (.name s) (.name t)) :
    isMinusZero s = true ∨ isMinusZero t = true := by
  have hspelling : ∀ n, n < 10 → Firebase.isMinusZero (45 :: zeros (n + 1)) = true := by
    intro n hn
    rw [Firebase.isMinusZero, tryParseStringToInt_minus_zeros hn]
    rfl
  obtain ⟨n, hn, ⟨-, ht⟩ | ⟨-, hs⟩⟩ := h
  · rw [FKey.name.inj ht]
    exact .inr (hspelling n hn)
  · rw [FKey.name.inj hs]
    exact .inl (hspelling n hn)

instance lawfulEqCmp_keyComparator :
    Std.LawfulEqCmp (keyComparator : Name → Name → Ordering) where
  compare_self := Std.ReflCmp.compare_self
  eq_of_compare := by
    intro a b h
    rcases (compareKey_eq_iff (.name a.1) (.name b.1)).mp h with heq | hzero
    · exact Subtype.ext (FKey.name.inj heq)
    · rcases hzero.isMinusZero with hminus | hminus
      · rw [a.not_isMinusZero] at hminus
        cases hminus
      · rw [b.not_isMinusZero] at hminus
        cases hminus

/-- The order in which the children of a node are enumerated. -/
instance : LinearOrder Name where
  le a b := (keyComparator a b).isLE
  lt a b := keyComparator a b = .lt
  le_refl _ := Std.ReflCmp.isLE_rfl
  le_trans _ _ _ := Std.TransCmp.isLE_trans
  le_antisymm _ _ hab hba := Std.LawfulEqCmp.eq_of_compare (Std.OrientedCmp.isLE_antisymm hab hba)
  lt_iff_le_not_ge a b := by
    have hswap : keyComparator b a = (keyComparator a b).swap := Std.OrientedCmp.eq_swap
    rw [hswap]
    cases keyComparator a b <;> decide
  le_total a b := by
    have hswap : keyComparator b a = (keyComparator a b).swap := Std.OrientedCmp.eq_swap
    rw [hswap]
    cases keyComparator a b <;> decide
  toDecidableLE a b := inferInstanceAs (Decidable ((keyComparator a b).isLE = true))
  toDecidableLT a b := inferInstanceAs (Decidable (keyComparator a b = .lt))
  toDecidableEq := inferInstanceAs (DecidableEq { s : NSString // isName s = true })
  compare := keyComparator
  compare_eq_compareOfLessAndEq a b := by
    have heq : keyComparator a b = .eq ↔ a = b := Std.LawfulEqCmp.compare_eq_iff_eq
    change keyComparator a b = if keyComparator a b = .lt then .lt else if a = b then .eq else .gt
    simp only [← heq]
    cases keyComparator a b <;> rfl

/-- A text of the source as a name. -/
def Name.ofString (s : String) : Name :=
  if h : isName (utf16 s) = true then ⟨utf16 s, h⟩ else ChildName.index 0

theorem Name.text_ofString {s : String} (h : isName (utf16 s) = true) :
    ChildName.text (Name.ofString s) = utf16 s := by
  rw [Name.ofString, dif_pos h]
  rfl

/-- `stringComparator`: on ASCII strings `compare:` compares the code units. -/
def stringComparator (a b : Name) : Ordering := compare a.1 b.1

instance transCmp_stringComparator : Std.TransCmp stringComparator :=
  inferInstanceAs (Std.TransCmp (compareOn (Subtype.val : Name → NSString)))

instance lawfulEqCmp_stringComparator : Std.LawfulEqCmp stringComparator where
  compare_self := Std.ReflCmp.compare_self
  eq_of_compare h := Subtype.ext (Std.LawfulEqOrd.eq_of_compare h)

end MeetupApp.Firebase
