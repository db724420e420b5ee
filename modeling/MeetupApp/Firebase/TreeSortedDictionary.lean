import Mathlib.Data.Nat.Bitwise
import Mathlib.Data.List.Chain
import MeetupApp.Firebase.LLRBRemoval

/-! # FTreeSortedDictionary

    The sorted dictionary over a red-black tree.  A value of the type carries
    the invariant: the root is black, `check` accepts the tree, and its keys
    ascend.  `fromDictionary` builds the tree in one pass: the number of
    entries, written with the digits 1 and 2, says how many perfect trees of
    each size hang from the left spine. -/

namespace MeetupApp.Firebase

open SortedEntries FLLRBNode

variable {K V : Type}

/-! ## Section 1: The tree builder -/

/-- `buildBalancedTree:dictionary:subArrayStartIndex:length:` over the sorted
    entries, of a range that starts within them; `none` for an index out of range.
    A start behind the last entry, for which the source's unsigned difference wraps
    around, is one that `rootFrom12List` never asks for. -/
def buildBalancedTree (es : List (K × V)) (startIndex length : Nat) :
    Option (FLLRBNode K V) :=
  let bounded := min (es.length - startIndex) length
  if bounded = 0 then some emptyNode
  else if bounded = 1 then do
    let e ← es[startIndex]?
    some (valueNode e.1 e.2 .black emptyNode emptyNode)
  else do
    let middle := bounded / 2
    let left ← buildBalancedTree es startIndex middle
    let right ← buildBalancedTree es (startIndex + middle + 1) middle
    let e ← es[startIndex + middle]?
    some (valueNode e.1 e.2 .black left right)
termination_by length
decreasing_by all_goals omega

/-- `Base1_2List` -/
structure Base1_2List where
  bits : Nat
  count : Nat
  current : Nat

/-- `base1_2List_new` of fewer than `2 ^ 32 - 1` entries.  For these `length + 1` does not
    wrap around, and `log_base2`, the quotient of two logarithms cut off, is the integer
    logarithm. -/
def base1_2List_new (length : Nat) : Base1_2List where
  bits := (length + 1) &&& (2 ^ Nat.log2 (length + 1) - 1)
  count := Nat.log2 (length + 1)
  current := Nat.log2 (length + 1) - 1

/-- `base1_2List_next` -/
def Base1_2List.next (list : Base1_2List) : Bool × Base1_2List :=
  (!list.bits.testBit list.current, { list with current := list.current - 1 })

/-- The pennants of the last `n` rounds of the loop of `rootFrom12List`, from the
    root down: color and chunk size. -/
def pennants : Nat → Base1_2List → List (FLLRBColor × Nat)
  | 0, _ => []
  | n + 1, list =>
    let (isOne, list) := list.next
    let chunkSize := 2 ^ n
    if isOne then (.black, chunkSize) :: pennants n list
    else (.black, chunkSize) :: (.red, chunkSize) :: pennants n list

/-- `buildPennant` for each pennant in turn; the next one becomes the left child. -/
def buildPennants (es : List (K × V)) :
    List (FLLRBColor × Nat) → Nat → Option (FLLRBNode K V)
  | [], _ => some emptyNode
  | (color, chunkSize) :: rest, index => do
    let childTree ← buildBalancedTree es (index - chunkSize + 1) (chunkSize - 1)
    let e ← es[index - chunkSize]?
    let below ← buildPennants es rest (index - chunkSize)
    some (valueNode e.1 e.2 color below childTree)

/-- `rootFrom12List:keyList:dictionary:` for the list of `fromDictionary`. -/
def rootFrom12List (es : List (K × V)) : Option (FLLRBNode K V) :=
  let list := base1_2List_new es.length
  buildPennants es (pennants list.count list) es.length

section builder
variable {es : List (K × V)}

theorem take_pennant {i n : Nat} {e : K × V} (h : es[i]? = some e) :
    es.take (i + 1 + n) = es.take i ++ e :: (es.drop (i + 1)).take n := by
  obtain ⟨hi, rfl⟩ := List.getElem?_eq_some_iff.mp h
  rw [Nat.add_assoc, List.take_add, List.drop_eq_getElem_cons hi, Nat.add_comm 1 n,
    List.take_succ_cons]

/-- A range of `2 ^ j - 1` entries becomes a perfect black tree. -/
theorem buildBalancedTree_perfect (es : List (K × V)) (j : Nat) : ∀ startIndex : Nat,
    startIndex + (2 ^ j - 1) ≤ es.length →
    ∃ t, buildBalancedTree es startIndex (2 ^ j - 1) = some t ∧ Balanced .black j t
      ∧ t.inorderTraversal = (es.drop startIndex).take (2 ^ j - 1) := by
  induction j with
  | zero =>
    intro startIndex _
    rw [buildBalancedTree]
    exact ⟨emptyNode, by simp, .empty, by simp [inorderTraversal]⟩
  | succ j ih =>
    intro startIndex hlen
    have hpow : 2 ^ (j + 1) - 1 = (2 ^ j - 1) + 1 + (2 ^ j - 1) := by
      have := Nat.one_le_two_pow (n := j)
      rw [Nat.pow_succ]
      omega
    have hmin : min (es.length - startIndex) (2 ^ (j + 1) - 1) = 2 ^ (j + 1) - 1 := by omega
    have hmiddle : (2 ^ (j + 1) - 1) / 2 = 2 ^ j - 1 := by omega
    obtain ⟨e, he⟩ : ∃ e, es[startIndex + (2 ^ j - 1)]? = some e :=
      ⟨_, List.getElem?_eq_getElem (by omega)⟩
    obtain ⟨l, hl, hbl, hel⟩ := ih startIndex (by omega)
    obtain ⟨r, hr, hbr, her⟩ := ih (startIndex + (2 ^ j - 1) + 1) (by omega)
    refine ⟨valueNode e.1 e.2 .black l r, ?_, .black e.1 e.2 hbl hbr, ?_⟩
    · rw [buildBalancedTree]
      simp only [hmin, hmiddle]
      rw [if_neg (by omega)]
      split
      · next hone =>
        -- A single entry: the children are empty.
        have hzero : 2 ^ j - 1 = 0 := by omega
        rw [hzero] at hl hr he
        rw [buildBalancedTree] at hl hr
        simp only [Nat.min_zero, if_true, Option.some.injEq] at hl hr
        subst hl hr
        simp only [Nat.add_zero] at he
        simp [he]
      · simp [hl, hr, he]
    · rw [inorderTraversal, hel, her, hpow, take_pennant]
      · rw [List.drop_drop, ← Nat.add_assoc]
      · rw [List.getElem?_drop]
        exact he

/-- The number of entries that the last `n` digits stand for. -/
theorem pennants_step (n bits : Nat) :
    2 ^ (n + 1) - 1 + bits % 2 ^ (n + 1)
      = (2 ^ n - 1 + bits % 2 ^ n) + (if bits.testBit n then 2 * 2 ^ n else 2 ^ n) := by
  have hpos := Nat.one_le_two_pow (n := n)
  have hmod : bits % 2 ^ (n + 1) = bits % 2 ^ n + 2 ^ n * (bits.testBit n).toNat := by
    rw [Nat.mod_pow_succ, Nat.toNat_testBit]
  rw [hmod, Nat.pow_succ]
  cases bits.testBit n <;> simp <;> omega

/-- One pennant on top of what hangs below it. -/
theorem buildPennants_cons (color : FLLRBColor) {n index : Nat} {rest : List (FLLRBColor × Nat)}
    {below : FLLRBNode K V} (hlen : index + 2 ^ n ≤ es.length)
    (hbelow : buildPennants es rest index = some below)
    (hes : below.inorderTraversal = es.take index) :
    ∃ (e : K × V) (t : FLLRBNode K V), buildPennants es ((color, 2 ^ n) :: rest) (index + 2 ^ n)
        = some (valueNode e.1 e.2 color below t)
      ∧ Balanced .black n t
      ∧ (valueNode e.1 e.2 color below t).inorderTraversal = es.take (index + 2 ^ n) := by
  have hpos := Nat.one_le_two_pow (n := n)
  obtain ⟨e, he⟩ : ∃ e, es[index]? = some e := ⟨_, List.getElem?_eq_getElem (by omega)⟩
  obtain ⟨t, ht, hbt, het⟩ := buildBalancedTree_perfect es n (index + 1) (by omega)
  have hindex : index + 2 ^ n - 2 ^ n = index := by omega
  refine ⟨e, t, ?_, hbt, ?_⟩
  · simp [buildPennants, hindex, ht, he, hbelow]
  · rw [inorderTraversal, hes, het, ← take_pennant he]
    congr 1
    omega

/-- The last `n` digits build a black tree of black height `n`. -/
theorem buildPennants_pennants (es : List (K × V)) (n : Nat) :
    ∀ list : Base1_2List, list.current = n - 1 →
    2 ^ n - 1 + list.bits % 2 ^ n ≤ es.length →
    ∃ t, buildPennants es (pennants n list) (2 ^ n - 1 + list.bits % 2 ^ n) = some t
      ∧ Balanced .black n t
      ∧ t.inorderTraversal = es.take (2 ^ n - 1 + list.bits % 2 ^ n) := by
  induction n with
  | zero =>
    intro list _ _
    exact ⟨emptyNode, rfl, .empty, by simp [inorderTraversal, Nat.mod_one]⟩
  | succ n ih =>
    intro list hcur hlen
    have hcur' : list.current = n := by omega
    rw [pennants_step n list.bits] at hlen ⊢
    obtain ⟨below, hbelow, hbal, hes⟩ := ih list.next.2 (by simp [Base1_2List.next, hcur'])
      (by simp only [Base1_2List.next]; omega)
    simp only [Base1_2List.next] at hbelow hes
    rw [pennants]
    cases hbit : list.bits.testBit n with
    | false =>
      -- The digit 1: one black pennant.
      simp only [hbit, Bool.false_eq_true, if_false] at hlen ⊢
      obtain ⟨e, t, heq, hbt, hent⟩ := buildPennants_cons .black hlen hbelow hes
      refine ⟨_, ?_, .black e.1 e.2 hbal hbt, hent⟩
      simpa [Base1_2List.next, hcur', hbit] using heq
    | true =>
      -- The digit 2: a red pennant below a black one.
      simp only [hbit, if_true] at hlen ⊢
      obtain ⟨e, t, heq, hbt, hent⟩ := buildPennants_cons .red (n := n) (by omega) hbelow hes
      obtain ⟨e', t', heq', hbt', hent'⟩ := buildPennants_cons .black (n := n) (by omega) heq
        hent
      have hindex : ∀ m : Nat, m + 2 ^ n + 2 ^ n = m + 2 * 2 ^ n := by intro m; omega
      rw [hindex] at heq' hent'
      refine ⟨_, ?_, .black e'.1 e'.2 (.red e.1 e.2 hbal hbt) hbt', hent'⟩
      simpa [Base1_2List.next, hcur', hbit] using heq'

/-- The builder turns the sorted entries into a balanced tree, whatever their number. -/
theorem rootFrom12List_spec (es : List (K × V)) :
    ∃ t h, rootFrom12List es = some t ∧ Balanced .black h t ∧ t.inorderTraversal = es := by
  have hlog : 2 ^ Nat.log2 (es.length + 1) ≤ es.length + 1 := Nat.log2_self_le (by omega)
  have hlt : es.length + 1 < 2 ^ (Nat.log2 (es.length + 1) + 1) := Nat.lt_log2_self
  have hbits : (base1_2List_new es.length).bits
      = (es.length + 1) % 2 ^ Nat.log2 (es.length + 1) := Nat.and_two_pow_sub_one_eq_mod _ _
  have hmod : (es.length + 1) % 2 ^ Nat.log2 (es.length + 1)
      = es.length + 1 - 2 ^ Nat.log2 (es.length + 1) := by
    rw [Nat.pow_succ] at hlt
    rw [Nat.mod_eq_sub_mod hlog, Nat.mod_eq_of_lt (by omega)]
  have hsize : 2 ^ Nat.log2 (es.length + 1) - 1
      + (base1_2List_new es.length).bits % 2 ^ Nat.log2 (es.length + 1) = es.length := by
    rw [hbits, Nat.mod_mod, hmod]
    have := Nat.one_le_two_pow (n := Nat.log2 (es.length + 1))
    omega
  obtain ⟨t, ht, hbal, hes⟩ := buildPennants_pennants es (Nat.log2 (es.length + 1))
    (base1_2List_new es.length) rfl (by rw [hsize])
  rw [hsize] at ht hes
  exact ⟨t, _, ht, hbal, by rw [hes, List.take_length]⟩

end builder

/-! ## Section 2: The dictionary -/

/-- `FTreeSortedDictionary` with the comparator `cmp`. -/
structure FTreeSortedDictionary (cmp : K → K → Ordering) (V : Type) where
  root : FLLRBNode K V
  /-- `check` accepts the tree, and its root is black. -/
  balanced : ∃ h, Balanced .black h root
  ascending : Ascending cmp root.inorderTraversal

/-- The loop of `get:`. -/
def FLLRBNode.get (cmp : K → K → Ordering) (key : K) : FLLRBNode K V → Option V
  | emptyNode => none
  | valueNode k v _ left right =>
    match cmp key k with
    | .eq => some v
    | .lt => left.get cmp key
    | .gt => right.get cmp key

/-- The loop of `getPredecessorKey:`, with the key of `rightParent`; an exception is
    `none`, the answer `nil` is `some none`. -/
def FLLRBNode.getPredecessorKey (cmp : K → K → Ordering) (key : K) (rightParent : Option K) :
    FLLRBNode K V → Option (Option K)
  | emptyNode => none
  | valueNode k _ _ left right =>
    match cmp key k with
    | .eq => some (if left.isEmpty then rightParent else left.maxKey)
    | .lt => left.getPredecessorKey cmp key rightParent
    | .gt => right.getPredecessorKey cmp key (some k)

/-- The check of the sorted keys in `fromDictionary`: each is below the next. -/
def keysAscend (cmp : K → K → Ordering) : List (K × V) → Bool
  | e :: e' :: es => cmp e.1 e'.1 == .lt && keysAscend cmp (e' :: es)
  | _ => true

/-- Since the order is transitive, checking neighbours is enough. -/
theorem ascending_of_keysAscend {cmp : K → K → Ordering} [Std.TransCmp cmp] :
    ∀ {es : List (K × V)}, keysAscend cmp es = true → Ascending cmp es
  | [], _ => ascending_nil
  | [e], _ => ascending_cons.mpr ⟨by simp, ascending_nil⟩
  | e :: e' :: es, h => by
    rw [keysAscend, Bool.and_eq_true, beq_iff_eq] at h
    have ih := ascending_of_keysAscend h.2
    refine ascending_cons.mpr ⟨?_, ih⟩
    intro a ha
    rcases List.mem_cons.mp ha with rfl | ha
    · exact h.1
    · exact Std.TransCmp.lt_trans h.1 ((ascending_cons.mp ih).1 a ha)

theorem keysAscend_of_ascending {cmp : K → K → Ordering} :
    ∀ {es : List (K × V)}, Ascending cmp es → keysAscend cmp es = true
  | [], _ => rfl
  | [e], _ => rfl
  | e :: e' :: es, h => by
    obtain ⟨hlt, hes⟩ := ascending_cons.mp h
    rw [keysAscend, Bool.and_eq_true, beq_iff_eq]
    exact ⟨hlt e' (by simp), keysAscend_of_ascending hes⟩

namespace FTreeSortedDictionary

variable {cmp : K → K → Ordering}

/-- `initWithComparator:` -/
def empty : FTreeSortedDictionary cmp V where
  root := emptyNode
  balanced := ⟨0, .empty⟩
  ascending := ascending_nil

/-- The entries in enumeration order. -/
def entries (d : FTreeSortedDictionary cmp V) : List (K × V) := d.root.inorderTraversal

def get (d : FTreeSortedDictionary cmp V) (key : K) : Option V := d.root.get cmp key

def contains (d : FTreeSortedDictionary cmp V) (key : K) : Bool := (d.get key).isSome

def getPredecessorKey (d : FTreeSortedDictionary cmp V) (key : K) : Option (Option K) :=
  d.root.getPredecessorKey cmp key none

def count (d : FTreeSortedDictionary cmp V) : Nat := d.root.count

def minKey (d : FTreeSortedDictionary cmp V) : Option K := d.root.minKey

def maxKey (d : FTreeSortedDictionary cmp V) : Option K := d.root.maxKey

variable [Std.TransCmp cmp]

/-- `insertKey:withValue:` -/
def insertKey (d : FTreeSortedDictionary cmp V) (aKey : K) (aValue : V) :
    FTreeSortedDictionary cmp V where
  root := (d.root.insertKey cmp aKey aValue).copyWith none none (some .black) none none
  balanced := by
    obtain ⟨h, hbal⟩ := d.balanced
    have hins : Inserted h .black (d.root.insertKey cmp aKey aValue) := hbal.insertKey
    obtain ⟨c, hbal'⟩ := hins
    exact hbal'.setBlack
  ascending := by
    rw [inorderTraversal_copyWith_color, inorderTraversal_insertKey d.ascending]
    exact d.ascending.put

/-- `removeKey:` -/
def removeKey (d : FTreeSortedDictionary cmp V) (aKey : K) : FTreeSortedDictionary cmp V :=
  if d.contains aKey then
    { root := (d.root.remove cmp aKey).copyWith none none (some .black) none none
      balanced := by
        obtain ⟨h, hbal⟩ := d.balanced
        exact (hbal.remove_root d.ascending).1
      ascending := by
        obtain ⟨h, hbal⟩ := d.balanced
        rw [inorderTraversal_copyWith_color, (hbal.remove_root d.ascending).2]
        exact d.ascending.erase }
  else d

/-- `fromDictionary:withComparator:`, with `none` for the exception about keys of
    the same ordering.  The entries come in the order of the unsorted dictionary. -/
def fromDictionary (cmp : K → K → Ordering) [Std.TransCmp cmp] (dictionary : List (K × V)) :
    Option (FTreeSortedDictionary cmp V) :=
  let sortedKeyList := dictionary.mergeSort (fun a b => (cmp a.1 b.1).isLE)
  if hkeys : keysAscend cmp sortedKeyList = true then
    match hroot : rootFrom12List sortedKeyList with
    | none => none
    | some root =>
      some
        { root
          balanced := by
            obtain ⟨t, h, ht, hbal, -⟩ := rootFrom12List_spec sortedKeyList
            rw [hroot] at ht
            obtain rfl := Option.some.inj ht
            exact ⟨h, hbal⟩
          ascending := by
            obtain ⟨t, h, ht, -, hes⟩ := rootFrom12List_spec sortedKeyList
            rw [hroot] at ht
            obtain rfl := Option.some.inj ht
            rw [hes]
            exact ascending_of_keysAscend hkeys }
  else none

end FTreeSortedDictionary

/-! ## Section 3: What the dictionary answers -/

section read
variable {cmp : K → K → Ordering} {key : K}

theorem FLLRBNode.count_eq_length (n : FLLRBNode K V) :
    n.count = n.inorderTraversal.length := by
  induction n with
  | emptyNode => rfl
  | valueNode k v c l r ihl ihr =>
    simp only [count, inorderTraversal, List.length_append, List.length_cons, ihl, ihr]
    omega

theorem FLLRBNode.isEmpty_eq (n : FLLRBNode K V) :
    n.isEmpty = n.inorderTraversal.isEmpty := by
  cases n with
  | emptyNode => rfl
  | valueNode k v c l r => simp [isEmpty, inorderTraversal]

theorem FLLRBNode.minKey_eq (n : FLLRBNode K V) :
    n.minKey = n.inorderTraversal.head?.map (·.1) := n.min_eq_head?.1

theorem FLLRBNode.maxKey_eq (n : FLLRBNode K V) :
    n.maxKey = n.inorderTraversal.getLast?.map (·.1) := by
  induction n with
  | emptyNode => simp [maxKey, inorderTraversal]
  | valueNode k v c l r ihl ihr =>
    cases r with
    | emptyNode => simp [maxKey, inorderTraversal]
    | valueNode kr vr cr rl rr =>
      rw [maxKey, ihr, inorderTraversal]
      simp [inorderTraversal, List.getLast?_append, List.getLast?_cons]

variable [Std.TransCmp cmp]

/-- The search through the tree finds what the ordered list holds. -/
theorem FLLRBNode.get_eq_lookup {n : FLLRBNode K V} (hasc : Ascending cmp n.inorderTraversal) :
    n.get cmp key = lookup cmp key n.inorderTraversal := by
  induction n with
  | emptyNode => rfl
  | valueNode k v c l r ihl ihr =>
    rw [inorderTraversal] at hasc ⊢
    have hsplit := ascending_split.mp hasc
    rw [get]
    cases hcmp : cmp key k with
    | lt => rw [lookup_append_lt _ _ hcmp]; exact ihl hsplit.left
    | eq =>
      have hgt := hsplit.gt_left (k := key) (by simp [hcmp])
      rw [lookup_append_gt _ hgt, lookup_cons_eq hcmp]
    | gt =>
      have hgt := hsplit.gt_left (k := key) (by simp [hcmp])
      rw [lookup_append_gt _ hgt, lookup_cons_gt hcmp]
      exact ihr hsplit.right

/-- The search for a predecessor ends at the greatest smaller key, and fails when
    the key itself is missing. -/
theorem FLLRBNode.getPredecessorKey_eq {n : FLLRBNode K V} (rightParent : Option K)
    (hasc : Ascending cmp n.inorderTraversal) :
    n.getPredecessorKey cmp key rightParent
      = (lookup cmp key n.inorderTraversal).map
          (fun _ => ((below cmp key n.inorderTraversal).getLast?.map (·.1)).or rightParent) := by
  induction n generalizing rightParent with
  | emptyNode => rfl
  | valueNode k v c l r ihl ihr =>
    rw [inorderTraversal] at hasc ⊢
    have hsplit := ascending_split.mp hasc
    rw [getPredecessorKey]
    cases hcmp : cmp key k with
    | lt =>
      rw [lookup_append_lt _ _ hcmp, below_append_lt hsplit (by simp [hcmp])]
      exact ihl _ hsplit.left
    | eq =>
      have hgt := hsplit.gt_left (k := key) (by simp [hcmp])
      rw [lookup_append_gt _ hgt, lookup_cons_eq hcmp, below_append_lt hsplit (by simp [hcmp]),
        below_of_gt hgt, Option.map_some]
      rw [l.isEmpty_eq, l.maxKey_eq]
      cases l.inorderTraversal with
      | nil => rfl
      | cons e es => simp [List.getLast?_cons]
    | gt =>
      have hgt := hsplit.gt_left (k := key) (by simp [hcmp])
      rw [lookup_append_gt _ hgt, lookup_cons_gt hcmp, below_append_gt hgt hcmp]
      have hlast : ∀ es : List (K × V), (l.inorderTraversal ++ (k, v) :: es).getLast?.map (·.1)
          = ((es.getLast?.map (·.1)).or (some k)) := by
        intro es
        cases hes : es.getLast? <;> simp [List.getLast?_append, List.getLast?_cons, hes]
      rw [hlast]
      simp only [ihr _ hsplit.right, Option.or_assoc, Option.some_or]

end read

end MeetupApp.Firebase
