import MeetupApp.Firebase.Names
import MeetupApp.Firebase.Node

/-! # Snapshot/FSnapshotUtilities.m, and the export of nodes

    `nodeFrom` makes a node of what the app hands over, `val` makes what the app
    reads of a node.  Empty children are dropped on the way in.  On the way out a
    node most of whose keys are the integers from 0 on becomes an array, with
    `NSNull` in the gaps.

    The keys are of a type of names, so nothing has metadata: no dictionary says
    `.priority`, `.value` or `.sv`, and no node has a priority.

    What `nodeFrom` accepts is a well-formed node, and a node read and written back
    is the same node. -/

namespace MeetupApp.Firebase

open SortedEntries

/-! ## Section 1: Payloads -/

/-- What is handed over: `NSNull`, an `NSString` or `NSNumber`, an `NSArray`, an
    `NSDictionary` without metadata keys. -/
inductive Payload (K V : Type) where
  | null
  | leaf (value : V)
  | array (elements : List (Payload K V))
  | dictionary (entries : List (K × Payload K V))

/-- What `intForString:` takes from the system: whether a string has decimal digits
    only, and the integer at its start, at most `NSIntegerMax`. -/
structure Foundation where
  onlyDigits : NSString → Bool
  scanInteger : NSString → Option Nat
  onlyDigits_of : ∀ s n, parseDigits 0 s = some n → onlyDigits s = true
  scanInteger_of : ∀ s n, s ≠ [] → parseDigits 0 s = some n →
    scanInteger s = some (min n 9223372036854775807)

/-- `intForString:` -/
def Foundation.intForString (f : Foundation) (string : NSString) : Option Nat :=
  if f.onlyDigits string then f.scanInteger string else none

namespace FSnapshotUtilities

variable {K V : Type} [ChildName K]

/-- `kFirebaseMaxObjectDepth` -/
def maxObjectDepth : Nat := 1000

/-- The node of the children that were collected. -/
def childrenNode (children : List (K × FNode K V)) : Option (FNode K V) :=
  if children.length = 0 then some .empty
  else (FImmutableSortedDictionary.fromDictionary keyComparator children).map
    (fun childrenDict => .children childrenDict.entries)

/-- A child is collected unless it is empty. -/
def addChild (key : K) (childNode : FNode K V)
    (children : List (K × FNode K V)) : List (K × FNode K V) :=
  if childNode.isEmpty then children else (key, childNode) :: children

mutual
/-- `internalNodeFrom:priority:withValidationFrom:atDepth:path:`; an exception is `none`. -/
def nodeFrom (isValidLeafValue : V → Bool) (depth : Nat) :
    Payload K V → Option (FNode K V)
  | .null => if depth > maxObjectDepth then none else some .empty
  | .leaf value =>
    if depth > maxObjectDepth then none
    else if isValidLeafValue value then some (.leaf value) else none
  | .dictionary entries =>
    if depth > maxObjectDepth then none
    else (dictionaryChildren isValidLeafValue (depth + 1) entries).bind childrenNode
  | .array elements =>
    if depth > maxObjectDepth then none
    else (arrayChildren isValidLeafValue (depth + 1) 0 elements).bind childrenNode

/-- The loop over the keys of a dictionary. -/
def dictionaryChildren (isValidLeafValue : V → Bool) (depth : Nat) :
    List (K × Payload K V) → Option (List (K × FNode K V))
  | [] => some []
  | (key, value) :: rest =>
    if isValidKey (ChildName.text key) then do
      let childNode ← nodeFrom isValidLeafValue depth value
      let children ← dictionaryChildren isValidLeafValue depth rest
      some (addChild key childNode children)
    else none

/-- The loop over the elements of an array, from an index on. -/
def arrayChildren (isValidLeafValue : V → Bool) (depth : Nat) :
    Nat → List (Payload K V) → Option (List (K × FNode K V))
  | _, [] => some []
  | i, value :: rest => do
    let childNode ← nodeFrom isValidLeafValue depth value
    let children ← arrayChildren isValidLeafValue depth (i + 1) rest
    some (addChild (ChildName.index i) childNode children)
end

end FSnapshotUtilities

namespace FNode

variable {K V : Type} [ChildName K] [DecidableEq K]

/-- What the block of `valForExport:` does with a key: `allIntegerKeys` and `maxKey`. -/
def scanKey (f : Foundation) : Bool × Nat → NSString → Bool × Nat
  | (allIntegerKeys, maxKey), key =>
    if !allIntegerKeys then (allIntegerKeys, maxKey)
    else if key.head? = some 48 && key.length > 1 then (false, maxKey)
    else
      match f.intForString key with
      | some keyAsInt => (allIntegerKeys, if keyAsInt > maxKey then keyAsInt else maxKey)
      | none => (false, maxKey)

/-- The end of `valForExport:NO`: an array, if it would not be too sparse. -/
def exportChildren (f : Foundation) (obj : List (K × Payload K V)) : Payload K V :=
  let (allIntegerKeys, maxKey) :=
    (obj.map (fun e => ChildName.text e.1)).foldl (scanKey f) (true, 0)
  if allIntegerKeys && maxKey < 2 * obj.length then
    .array ((List.range (maxKey + 1)).map (fun i => (obj.lookup (ChildName.index i)).getD .null))
  else .dictionary obj

mutual
/-- `val`, which is `valForExport:NO`. -/
def val (f : Foundation) : FNode K V → Payload K V
  | .leaf value => .leaf value
  | .children [] => .null
  | .children (e :: entries) => exportChildren f (valChildren f (e :: entries))

/-- The values of the children. -/
def valChildren (f : Foundation) : List (K × FNode K V) → List (K × Payload K V)
  | [] => []
  | (key, childNode) :: rest => (key, childNode.val f) :: valChildren f rest
end

theorem valChildren_eq (f : Foundation) (entries : List (K × FNode K V)) :
    valChildren f entries = entries.map (fun e => (e.1, e.2.val f)) := by
  induction entries with
  | nil => rw [valChildren, List.map_nil]
  | cons e entries ih => rw [valChildren, ih, List.map_cons]

theorem val_children (f : Foundation) {entries : List (K × FNode K V)}
    (hne : entries ≠ []) :
    (children entries).val f = exportChildren f (entries.map (fun e => (e.1, e.2.val f))) := by
  rw [← valChildren_eq]
  cases entries with
  | nil => exact absurd rfl hne
  | cons e entries => rw [val]

end FNode

/-! ## Section 2: Stored nodes -/

/-- A key is read as an integer only if its digits are those of ASCII. -/
def PlainKey (f : Foundation) (key : NSString) : Prop :=
  parseDigits 0 key = none → f.intForString key = none

/-- A node as it is stored: in order, without empty children, with valid keys, not deeper
    than allowed, and with fewer children than an `int` counts twice. -/
inductive Storable {K V : Type} [ChildName K] (f : Foundation) (isValidLeafValue : V → Bool) :
    Nat → FNode K V → Prop where
  | leaf {depth : Nat} {value : V} (shallow : depth ≤ FSnapshotUtilities.maxObjectDepth)
      (valid : isValidLeafValue value = true) : Storable f isValidLeafValue depth (.leaf value)
  | children {depth : Nat} {entries : List (K × FNode K V)}
      (shallow : depth ≤ FSnapshotUtilities.maxObjectDepth)
      (ascending : Ascending keyComparator entries) (few : entries.length < 2 ^ 30)
      (keys : ∀ e ∈ entries,
        isValidKey (ChildName.text e.1) = true ∧ PlainKey f (ChildName.text e.1))
      (nonempty : ∀ e ∈ entries, e.2.isEmpty = false)
      (below : ∀ e ∈ entries, Storable f isValidLeafValue (depth + 1) e.2) :
      Storable f isValidLeafValue depth (.children entries)

theorem Storable.shallow {K V : Type} [ChildName K] {f : Foundation}
    {isValidLeafValue : V → Bool} {depth : Nat} {node : FNode K V}
    (h : Storable f isValidLeafValue depth node) :
    depth ≤ FSnapshotUtilities.maxObjectDepth := by
  cases h <;> assumption

/-- The same sizes and keys for what is handed over. -/
inductive Payload.Within {K V : Type} [ChildName K] (f : Foundation) : Payload K V → Prop where
  | null : Within f .null
  | leaf (value : V) : Within f (.leaf value)
  | array {elements : List (Payload K V)} (few : elements.length < 2 ^ 30)
      (below : ∀ p ∈ elements, Within f p) : Within f (.array elements)
  | dictionary {entries : List (K × Payload K V)} (few : entries.length < 2 ^ 30)
      (keys : ∀ e ∈ entries, PlainKey f (ChildName.text e.1))
      (below : ∀ e ∈ entries, Within f e.2) :
      Within f (.dictionary entries)

namespace FSnapshotUtilities

section children
variable {K V : Type} [ChildName K] {f : Foundation} {isValidLeafValue : V → Bool} {depth : Nat}
  {entries children : List (K × FNode K V)}

/-- Children in order are kept as they are. -/
theorem childrenNode_of_ascending (h : Ascending keyComparator entries) :
    childrenNode entries = some (.children entries) := by
  rw [childrenNode]
  split
  · next hempty =>
    rw [List.length_eq_zero_iff.mp hempty]
    rfl
  · cases hd : FImmutableSortedDictionary.fromDictionary keyComparator entries with
    | none =>
      refine absurd ?_ (FImmutableSortedDictionary.fromDictionary_eq_none.mp hd)
      exact h.imp (fun hlt => by simp [hlt])
    | some d =>
      have hperm := FImmutableSortedDictionary.entries_fromDictionary hd
      rw [Option.map_some, d.ascending_entries.eq_of_perm h hperm]

/-- The node of collected children has these children, in order. -/
theorem childrenNode_eq_some {node : FNode K V} (h : childrenNode children = some node) :
    ∃ entries, node = .children entries ∧ Ascending keyComparator entries
      ∧ entries.Perm children := by
  rw [childrenNode] at h
  split at h
  · next hempty =>
    obtain rfl := Option.some.inj h
    exact ⟨[], rfl, List.Pairwise.nil, by rw [List.length_eq_zero_iff.mp hempty]⟩
  · obtain ⟨d, hd, rfl⟩ := Option.map_eq_some_iff.mp h
    exact ⟨d.entries, rfl, d.ascending_entries,
      FImmutableSortedDictionary.entries_fromDictionary hd⟩

omit [ChildName K] in
theorem mem_addChild {key : K} {childNode : FNode K V}
    {e : K × FNode K V} :
    e ∈ addChild key childNode children
      ↔ (e = (key, childNode) ∧ childNode.isEmpty = false) ∨ e ∈ children := by
  rw [addChild]
  split
  · next hempty => simp [hempty]
  · next hempty => simp [hempty]

/-- The loop over a dictionary collects the nodes of its values. -/
theorem dictionaryChildren_map (g : K × FNode K V → Payload K V)
    (hkeys : ∀ e ∈ entries, isValidKey (ChildName.text e.1) = true)
    (hnonempty : ∀ e ∈ entries, e.2.isEmpty = false)
    (hg : ∀ e ∈ entries, nodeFrom isValidLeafValue depth (g e) = some e.2) :
    dictionaryChildren isValidLeafValue depth (entries.map (fun e => (e.1, g e)))
      = some entries := by
  induction entries with
  | nil => rw [List.map_nil, dictionaryChildren]
  | cons e entries ih =>
    rw [List.map_cons, dictionaryChildren, if_pos (hkeys e (by simp)), hg e (by simp),
      ih (fun a ha => hkeys a (by simp [ha])) (fun a ha => hnonempty a (by simp [ha]))
        (fun a ha => hg a (by simp [ha]))]
    simp [addChild, hnonempty e (by simp)]

/-- The loop over an array collects the nodes of its elements, under their indices. -/
theorem arrayChildren_map (g : Nat → Payload K V) (h : Nat → FNode K V)
    (hg : ∀ i, nodeFrom isValidLeafValue depth (g i) = some (h i)) (start len : Nat) :
    arrayChildren isValidLeafValue depth start ((List.range' start len).map g)
      = some ((List.range' start len).filterMap
          (fun i => if (h i).isEmpty then none else some (ChildName.index i, h i))) := by
  induction len generalizing start with
  | zero =>
    rw [List.range'_zero, List.map_nil, arrayChildren]
    rfl
  | succ len ih =>
    rw [List.range'_succ, List.map_cons, arrayChildren, hg, ih, List.filterMap_cons]
    cases hempty : (h start).isEmpty <;> simp [addChild, hempty]

end children

end FSnapshotUtilities

/-! ## Section 3: A node read and written back -/

section scan
variable {f : Foundation}

/-- If all keys are integers, each of them is, and none is above the greatest. -/
theorem scan_spec {keys : List NSString} {state : Bool × Nat} {maxKey : Nat}
    (h : keys.foldl (FNode.scanKey f) state = (true, maxKey)) :
    state.1 = true ∧ state.2 ≤ maxKey ∧ ∀ key ∈ keys,
      (key.head? = some 48 → key.length ≤ 1) ∧ ∃ n, f.intForString key = some n ∧ n ≤ maxKey := by
  induction keys generalizing state with
  | nil =>
    obtain rfl : state = (true, maxKey) := h
    exact ⟨rfl, le_rfl, by simp⟩
  | cons key keys ih =>
    obtain ⟨hall, hle, hkeys⟩ := ih h
    obtain ⟨all, greatest⟩ := state
    rw [FNode.scanKey] at hall hle
    by_cases hdone : all = true
    · subst hdone
      by_cases hzero : key.head? = some 48 ∧ key.length > 1
      · simp [hzero] at hall
      · have hfirst : key.head? = some 48 → key.length ≤ 1 := by
          intro hhead
          by_contra hlong
          exact hzero ⟨hhead, by omega⟩
        cases hint : f.intForString key with
        | none => simp [hint] at hall
        | some n =>
          have hcond : ¬ (decide (key.head? = some 48) && decide (key.length > 1)) = true := by
            simpa using hfirst
          simp only [Bool.not_true, Bool.false_eq_true, if_false, if_neg hcond, hint] at hle
          have hboth : greatest ≤ maxKey ∧ n ≤ maxKey := by
            split at hle <;> omega
          refine ⟨rfl, hboth.1, fun key' hkey' => ?_⟩
          rcases List.mem_cons.mp hkey' with rfl | hkey'
          · exact ⟨hfirst, n, hint, hboth.2⟩
          · exact hkeys key' hkey'
    · simp [hdone] at hall

/-- A key that counts as a small integer is the one that is written for it. -/
theorem eq_decimal_of_intForString {key : NSString} {n : Nat} (hne : key ≠ [])
    (hplain : PlainKey f key) (hzero : key.head? = some 48 → key.length ≤ 1)
    (hint : f.intForString key = some n) (hsmall : n ≤ 2147483647) : key = decimal n := by
  cases hparse : parseDigits 0 key with
  | none =>
    rw [hplain hparse] at hint
    cases hint
  | some v =>
    rw [Foundation.intForString, if_pos (f.onlyDigits_of key v hparse),
      f.scanInteger_of key v hne hparse] at hint
    have hvalue := Option.some.inj hint
    obtain rfl : v = n := by omega
    refine eq_decimal ⟨hne, fun hhead => ?_⟩ hparse
    obtain ⟨cs, rfl⟩ := List.head?_eq_some_iff.mp hhead
    have hlen : cs.length = 0 := by simpa using hzero hhead
    rw [List.length_eq_zero_iff.mp hlen]

end scan

section roundTrip
variable {K V : Type} [ChildName K] [DecidableEq K] {f : Foundation} {isValidLeafValue : V → Bool}

theorem lookup_map_snd {α β γ : Type} [BEq α] (g : β → γ) (k : α) (es : List (α × β)) :
    (es.map (fun e => (e.1, g e.2))).lookup k = (es.lookup k).map g := by
  induction es with
  | nil => rfl
  | cons e es ih =>
    rw [List.map_cons, List.lookup_cons, List.lookup_cons, ih]
    cases k == e.1 <;> rfl

/-- What is found by name in sorted entries is a member. -/
theorem lookup_eq_some_iff_mem {β : Type} {entries : List (K × β)}
    (h : Ascending keyComparator entries) {k : K} {v : β} :
    entries.lookup k = some v ↔ (k, v) ∈ entries := by
  induction entries with
  | nil => simp
  | cons e rest ih =>
    obtain ⟨hfirst, hrest⟩ := ascending_cons.mp h
    rw [List.lookup_cons, List.mem_cons]
    by_cases heq : k = e.1
    · subst heq
      have hnot : (e.1, v) ∉ rest := by
        intro hmem
        have hlt := hfirst _ hmem
        have hself : keyComparator e.1 e.1 = .eq := Std.ReflCmp.compare_self
        rw [hself] at hlt
        cases hlt
      simp [hnot, Prod.ext_iff, eq_comm]
    · have hne : (k, v) ≠ e := by
        rintro rfl
        exact heq rfl
      have hbeq : (k == e.1) = false := by simpa using heq
      rw [hbeq]
      simp [hne, ih hrest]

/-- The entries by index, where all keys are small integers. -/
theorem filterMap_indices {entries : List (K × FNode K V)}
    (h : Ascending keyComparator entries) {maxKey : Nat} (hsmall : maxKey ≤ 2147483647)
    (hkeys : ∀ e ∈ entries, ∃ n, e.1 = ChildName.index n ∧ n ≤ maxKey)
    (hnonempty : ∀ e ∈ entries, e.2.isEmpty = false) :
    (List.range' 0 (maxKey + 1)).filterMap
      (fun i => if ((entries.lookup (ChildName.index i)).getD .empty).isEmpty then none
        else some (ChildName.index i, (entries.lookup (ChildName.index i)).getD .empty))
      = entries := by
  refine Ascending.ext_mem ?_ h (fun e => ?_)
  · rw [Ascending, List.pairwise_filterMap]
    refine List.Pairwise.imp_of_mem ?_ List.pairwise_lt_range'
    intro i j _ hj hlt a ha b hb
    rw [Option.ite_none_left_eq_some] at ha hb
    obtain rfl := Option.some.inj ha.2
    obtain rfl := Option.some.inj hb.2
    refine keyComparator_index hlt ?_
    have := List.mem_range'_1.mp hj
    omega
  · rw [List.mem_filterMap]
    constructor
    · intro hmem
      obtain ⟨i, -, hi⟩ := hmem
      rw [Option.ite_none_left_eq_some] at hi
      obtain ⟨hsome, hi⟩ := hi
      obtain rfl := Option.some.inj hi
      cases hfound : entries.lookup (ChildName.index i) with
      | none => simp [hfound, FNode.empty, FNode.isEmpty] at hsome
      | some node => exact (lookup_eq_some_iff_mem h).mp hfound
    · intro hmem
      obtain ⟨n, hn, hle⟩ := hkeys e hmem
      have hfound : entries.lookup (ChildName.index n) = some e.2 := by
        rw [lookup_eq_some_iff_mem h, ← hn]
        exact hmem
      refine ⟨n, List.mem_range'_1.mpr ⟨by omega, by omega⟩, ?_⟩
      rw [hfound, Option.getD_some, hnonempty e hmem, ← hn]
      rfl

/-- A node read and written back is the same node. -/
theorem nodeFrom_val {depth : Nat} {node : FNode K V}
    (h : Storable f isValidLeafValue depth node) :
    FSnapshotUtilities.nodeFrom isValidLeafValue depth (node.val f) = some node := by
  induction h with
  | leaf shallow valid =>
    rw [FNode.val, FSnapshotUtilities.nodeFrom, if_neg (by omega), if_pos valid]
  | @children depth entries shallow ascending few keys nonempty below ih =>
    by_cases hempty : entries = []
    · subst hempty
      rw [FNode.val, FSnapshotUtilities.nodeFrom, if_neg (by omega)]
      rfl
    · obtain ⟨first, hfirst⟩ := List.exists_mem_of_ne_nil _ hempty
      rw [FNode.val_children f hempty, FNode.exportChildren, List.map_map, List.length_map]
      generalize hscan : (entries.map
        ((fun e => ChildName.text e.1) ∘ fun e => (e.1, e.2.val f))).foldl
        (FNode.scanKey f) (true, 0) = state
      obtain ⟨all, maxKey⟩ := state
      dsimp only
      split
      · next harray =>
        simp only [Bool.and_eq_true, decide_eq_true_eq] at harray
        obtain ⟨rfl, hdense⟩ := harray
        have hsmall : maxKey ≤ 2147483647 := by omega
        obtain ⟨-, -, hscanned⟩ := scan_spec hscan
        have hkeys : ∀ e ∈ entries, ∃ n, e.1 = ChildName.index n ∧ n ≤ maxKey := by
          intro e he
          obtain ⟨hzero, n, hint, hle⟩ := hscanned (ChildName.text e.1) (List.mem_map_of_mem he)
          exact ⟨n, eq_index (eq_decimal_of_intForString (ne_nil_of_isValidKey (keys e he).1)
            (keys e he).2 hzero hint (hle.trans hsmall)), hle⟩
        -- A gap in the array is as deep as the children, so it is not too deep.
        have hdeep : depth + 1 ≤ FSnapshotUtilities.maxObjectDepth :=
          (below first hfirst).shallow
        have helement : ∀ i, FSnapshotUtilities.nodeFrom isValidLeafValue (depth + 1)
            (((entries.map (fun e => (e.1, e.2.val f))).lookup (ChildName.index i)).getD .null)
              = some ((entries.lookup (ChildName.index i)).getD .empty) := by
          intro i
          rw [lookup_map_snd (FNode.val f)]
          cases hfound : entries.lookup (ChildName.index i) with
          | none =>
            rw [Option.map_none, Option.getD_none, Option.getD_none, FSnapshotUtilities.nodeFrom,
              if_neg (by omega)]
          | some child => exact ih _ ((lookup_eq_some_iff_mem ascending).mp hfound)
        rw [FSnapshotUtilities.nodeFrom, if_neg (by omega), List.range_eq_range',
          FSnapshotUtilities.arrayChildren_map _ _ helement, Option.bind_some,
          filterMap_indices ascending hsmall hkeys nonempty,
          FSnapshotUtilities.childrenNode_of_ascending ascending]
      · rw [FSnapshotUtilities.nodeFrom, if_neg (by omega),
          FSnapshotUtilities.dictionaryChildren_map (fun e => e.2.val f)
            (fun e he => (keys e he).1) nonempty ih, Option.bind_some,
          FSnapshotUtilities.childrenNode_of_ascending ascending]

end roundTrip

/-! ## Section 4: What is accepted -/

section accepted
variable {K V : Type} [ChildName K] {f : Foundation} {isValidLeafValue : V → Bool}

theorem plainKey_decimal (n : Nat) : PlainKey f (decimal n) := by
  intro h
  rw [parseDigits_decimal] at h
  cases h

namespace FSnapshotUtilities

omit [ChildName K] in
theorem length_addChild_le (key : K) (childNode : FNode K V)
    (children : List (K × FNode K V)) :
    (addChild key childNode children).length ≤ children.length + 1 := by
  rw [addChild]
  split
  · exact Nat.le_succ _
  · exact le_rfl

/-- What the loop over a dictionary has collected. -/
theorem dictionaryChildren_spec {depth : Nat} {entries : List (K × Payload K V)}
    {children : List (K × FNode K V)}
    (h : dictionaryChildren isValidLeafValue depth entries = some children) :
    children.length ≤ entries.length ∧ ∀ e ∈ children, e.2.isEmpty = false
      ∧ isValidKey (ChildName.text e.1) = true
      ∧ ∃ p, (e.1, p) ∈ entries ∧ nodeFrom isValidLeafValue depth p = some e.2 := by
  induction entries generalizing children with
  | nil =>
    rw [dictionaryChildren] at h
    obtain rfl := Option.some.inj h
    simp
  | cons entry rest ih =>
    obtain ⟨key, value⟩ := entry
    rw [dictionaryChildren] at h
    split at h
    · next hkey =>
      simp only [Option.bind_eq_bind, Option.bind_eq_some_iff] at h
      obtain ⟨childNode, hchild, collected, hrest, heq⟩ := h
      obtain rfl := Option.some.inj heq
      obtain ⟨hlen, hcollected⟩ := ih hrest
      refine ⟨?_, fun e he => ?_⟩
      · exact (length_addChild_le _ _ _).trans (Nat.succ_le_succ hlen)
      · rcases mem_addChild.mp he with ⟨rfl, hnonempty⟩ | he
        · exact ⟨hnonempty, hkey, value, by simp, hchild⟩
        · obtain ⟨hnonempty, hvalid, p, hp, hnode⟩ := hcollected e he
          exact ⟨hnonempty, hvalid, p, by simp [hp], hnode⟩
    · cases h

/-- What the loop over an array has collected. -/
theorem arrayChildren_spec {depth start : Nat} {elements : List (Payload K V)}
    {children : List (K × FNode K V)}
    (h : arrayChildren isValidLeafValue depth start elements = some children) :
    children.length ≤ elements.length ∧ ∀ e ∈ children, e.2.isEmpty = false
      ∧ (∃ i, e.1 = ChildName.index i)
      ∧ ∃ p ∈ elements, nodeFrom isValidLeafValue depth p = some e.2 := by
  induction elements generalizing start children with
  | nil =>
    rw [arrayChildren] at h
    obtain rfl := Option.some.inj h
    simp
  | cons value rest ih =>
    rw [arrayChildren] at h
    simp only [Option.bind_eq_bind, Option.bind_eq_some_iff] at h
    obtain ⟨childNode, hchild, collected, hrest, heq⟩ := h
    obtain rfl := Option.some.inj heq
    obtain ⟨hlen, hcollected⟩ := ih hrest
    refine ⟨?_, fun e he => ?_⟩
    · exact (length_addChild_le _ _ _).trans (Nat.succ_le_succ hlen)
    · rcases mem_addChild.mp he with ⟨rfl, hnonempty⟩ | he
      · exact ⟨hnonempty, ⟨start, rfl⟩, value, by simp, hchild⟩
      · obtain ⟨hnonempty, hkey, p, hp, hnode⟩ := hcollected e he
        exact ⟨hnonempty, hkey, p, by simp [hp], hnode⟩

end FSnapshotUtilities

/-- What `nodeFrom` makes is in order and has no empty children. -/
theorem pruned_of_nodeFrom : ∀ (p : Payload K V) {depth : Nat} {node : FNode K V},
    FSnapshotUtilities.nodeFrom isValidLeafValue depth p = some node → node.Pruned keyComparator
  | .null, depth, node, h => by
    rw [FSnapshotUtilities.nodeFrom, Option.ite_none_left_eq_some] at h
    obtain rfl := Option.some.inj h.2
    exact .empty
  | .leaf value, depth, node, h => by
    rw [FSnapshotUtilities.nodeFrom, Option.ite_none_left_eq_some,
      Option.ite_none_right_eq_some] at h
    obtain rfl := Option.some.inj h.2.2
    exact .leaf value
  | .array elements, depth, node, h => by
    rw [FSnapshotUtilities.nodeFrom, Option.ite_none_left_eq_some, Option.bind_eq_some_iff] at h
    obtain ⟨-, children, hchildren, h⟩ := h
    obtain ⟨sorted, rfl, hascending, hperm⟩ := FSnapshotUtilities.childrenNode_eq_some h
    obtain ⟨-, hcollected⟩ := FSnapshotUtilities.arrayChildren_spec hchildren
    refine .children hascending (fun e he => (hcollected e (hperm.mem_iff.mp he)).1) ?_
    intro e he
    obtain ⟨-, -, p, hp, hnode⟩ := hcollected e (hperm.mem_iff.mp he)
    have hsmaller := List.sizeOf_lt_of_mem hp
    exact pruned_of_nodeFrom p hnode
  | .dictionary entries, depth, node, h => by
    rw [FSnapshotUtilities.nodeFrom, Option.ite_none_left_eq_some, Option.bind_eq_some_iff] at h
    obtain ⟨-, children, hchildren, h⟩ := h
    obtain ⟨sorted, rfl, hascending, hperm⟩ := FSnapshotUtilities.childrenNode_eq_some h
    obtain ⟨-, hcollected⟩ := FSnapshotUtilities.dictionaryChildren_spec hchildren
    refine .children hascending (fun e he => (hcollected e (hperm.mem_iff.mp he)).1) ?_
    intro e he
    obtain ⟨-, -, p, hp, hnode⟩ := hcollected e (hperm.mem_iff.mp he)
    have hsmaller := List.sizeOf_lt_of_mem hp
    exact pruned_of_nodeFrom p hnode
termination_by p => sizeOf p
decreasing_by all_goals simp at *; omega

/-- What `nodeFrom` accepts is a stored node. -/
theorem storable_of_nodeFrom {p : Payload K V} (hp : p.Within f) {depth : Nat}
    {node : FNode K V}
    (h : FSnapshotUtilities.nodeFrom isValidLeafValue depth p = some node) :
    Storable f isValidLeafValue depth node := by
  induction hp generalizing depth node with
  | null =>
    rw [FSnapshotUtilities.nodeFrom, Option.ite_none_left_eq_some] at h
    obtain ⟨hdepth, h⟩ := h
    obtain rfl := Option.some.inj h
    exact .children (by omega) List.Pairwise.nil (Nat.two_pow_pos 30) (by simp) (by simp) (by simp)
  | leaf value =>
    rw [FSnapshotUtilities.nodeFrom, Option.ite_none_left_eq_some,
      Option.ite_none_right_eq_some] at h
    obtain ⟨hdepth, hvalid, h⟩ := h
    obtain rfl := Option.some.inj h
    exact .leaf (by omega) hvalid
  | array few below ih =>
    rw [FSnapshotUtilities.nodeFrom, Option.ite_none_left_eq_some,
      Option.bind_eq_some_iff] at h
    obtain ⟨hdepth, children, hchildren, h⟩ := h
    obtain ⟨entries, rfl, hascending, hperm⟩ := FSnapshotUtilities.childrenNode_eq_some h
    obtain ⟨hlen, hcollected⟩ := FSnapshotUtilities.arrayChildren_spec hchildren
    refine .children (by omega) hascending ?_ ?_ ?_ ?_
    · rw [hperm.length_eq]
      omega
    · intro e he
      obtain ⟨-, ⟨i, hi⟩, -⟩ := hcollected e (hperm.mem_iff.mp he)
      rw [hi]
      rw [ChildName.text_index]
      exact ⟨isValidKey_decimal i, plainKey_decimal i⟩
    · exact fun e he => (hcollected e (hperm.mem_iff.mp he)).1
    · intro e he
      obtain ⟨-, -, p, hp, hnode⟩ := hcollected e (hperm.mem_iff.mp he)
      exact ih p hp hnode
  | dictionary few keys below ih =>
    rw [FSnapshotUtilities.nodeFrom, Option.ite_none_left_eq_some,
      Option.bind_eq_some_iff] at h
    obtain ⟨hdepth, children, hchildren, h⟩ := h
    obtain ⟨entries, rfl, hascending, hperm⟩ := FSnapshotUtilities.childrenNode_eq_some h
    obtain ⟨hlen, hcollected⟩ := FSnapshotUtilities.dictionaryChildren_spec hchildren
    refine .children (by omega) hascending ?_ ?_ ?_ ?_
    · rw [hperm.length_eq]
      omega
    · intro e he
      obtain ⟨-, hvalid, p, hp, -⟩ := hcollected e (hperm.mem_iff.mp he)
      exact ⟨hvalid, keys _ hp⟩
    · exact fun e he => (hcollected e (hperm.mem_iff.mp he)).1
    · intro e he
      obtain ⟨-, -, p, hp, hnode⟩ := hcollected e (hperm.mem_iff.mp he)
      exact ih _ hp hnode

/-- **Import and export.**  Whatever is handed over and accepted is stored in order, without
    empty children and with valid keys, and what is read of it and written back is stored as
    the same node. -/
theorem nodeFrom_val_nodeFrom [DecidableEq K] (p : Payload K V) (hp : p.Within f) {depth : Nat}
    {node : FNode K V}
    (h : FSnapshotUtilities.nodeFrom isValidLeafValue depth p = some node) :
    node.Pruned keyComparator ∧ Storable f isValidLeafValue depth node
      ∧ FSnapshotUtilities.nodeFrom isValidLeafValue depth (node.val f) = some node := by
  have hstorable := storable_of_nodeFrom hp h
  exact ⟨pruned_of_nodeFrom p h, hstorable, nodeFrom_val hstorable⟩

end accepted

/-- A system that knows no digits but those of ASCII. -/
def asciiFoundation : Foundation where
  onlyDigits s := (parseDigits 0 s).isSome
  scanInteger s := if s = [] then none else (parseDigits 0 s).map (min · 9223372036854775807)
  onlyDigits_of := by
    intro s n h
    rw [h]
    rfl
  scanInteger_of := by
    intro s n hne h
    rw [if_neg hne, h]
    rfl

theorem plainKey_asciiFoundation (key : NSString) : PlainKey asciiFoundation key := by
  intro h
  rw [Foundation.intForString, asciiFoundation]
  simp [h]

/-- An array with a gap. -/
def arrayWithGap : Payload ChildKey Nat := .array [.leaf 7, .null, .leaf 8]

theorem nodeFrom_val_nodeFrom_gap :
    let node : FNode ChildKey Nat :=
      .children [(ChildName.index 0, .leaf 7), (ChildName.index 2, .leaf 8)]
    FSnapshotUtilities.nodeFrom (fun _ => true) 0 arrayWithGap = some node
      ∧ FSnapshotUtilities.nodeFrom (fun _ => true) 0 (node.val asciiFoundation) = some node := by
  have hascending : Ascending (keyComparator : ChildKey → ChildKey → Ordering)
      [(ChildName.index 0, (.leaf 7 : FNode ChildKey Nat)), (ChildName.index 2, .leaf 8)] :=
    List.pairwise_pair.mpr (keyComparator_index (by decide) (by decide))
  have hwithin : arrayWithGap.Within asciiFoundation := by
    refine .array (by decide) (fun p hp => ?_)
    simp only [List.mem_cons, List.not_mem_nil, or_false] at hp
    rcases hp with rfl | rfl | rfl
    · exact .leaf 7
    · exact .null
    · exact .leaf 8
  have hstored : FSnapshotUtilities.nodeFrom (fun _ => true) 0 arrayWithGap
      = some (.children [(ChildName.index 0, .leaf 7), (ChildName.index 2, .leaf 8)]) := by
    rw [← FSnapshotUtilities.childrenNode_of_ascending hascending]
    simp [arrayWithGap, FSnapshotUtilities.nodeFrom, FSnapshotUtilities.arrayChildren,
      FSnapshotUtilities.maxObjectDepth, FSnapshotUtilities.addChild, FNode.isEmpty, FNode.empty]
  exact ⟨hstored, (nodeFrom_val_nodeFrom _ hwithin hstored).2.2⟩

end MeetupApp.Firebase
