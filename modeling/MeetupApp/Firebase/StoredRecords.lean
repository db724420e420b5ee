import MeetupApp.Firebase.Snapshot
import MeetupApp.Firebase.Value

/-! # Records as the client stores them

    The app writes dictionaries of strings and arrays of strings, and reads
    `snapshot.value`.  In between the client makes a node of the dictionary and
    exports the node again.  What the app reads is what `nodeFrom` of `Value` says:
    strings stay strings, arrays stay arrays, and an empty array is gone. -/

namespace MeetupApp.Firebase

open SortedEntries

/-! ## Section 1: Records as payloads -/

/-- The values of leaves. -/
inductive Leaf where
  | string (s : String)
  | number (x : Rat)
  | bool (b : Bool)

/-- `kFirebaseMaxLeafSize` -/
def maxLeafSize : Nat := 1024 * 1024 * 10

/-- `isValidLeafValue:` of a string or a number; the exception is `false`. -/
def isValidLeafValue : Leaf → Bool
  | .string s => s.utf8ByteSize ≤ maxLeafSize
  | _ => true

section payloads
variable {K : Type}

/-- What the app puts under a key. -/
def Field.payload : Field → Payload K Leaf
  | .string s => .leaf (.string s)
  | .strings xs => .array (xs.map (fun x => .leaf (.string x)))

/-- The strings of a field. -/
def Field.texts : Field → List String
  | .string s => [s]
  | .strings xs => xs

variable (name : String → K)

/-- A dictionary literal of the app. -/
def payloadOf (object : Object) : Payload K Leaf :=
  .dictionary (object.map (fun field => (name field.1, field.2.payload)))

mutual
/-- A value of the model as it is handed out. -/
def Value.payload : Value → Payload K Leaf
  | .string s => .leaf (.string s)
  | .number x => .leaf (.number x)
  | .bool b => .leaf (.bool b)
  | .array head tail => .array (head.payload :: payloads tail)
  | .dict children => .dictionary (childPayloads children)

def Value.payloads : List Value → List (Payload K Leaf)
  | [] => []
  | v :: vs => v.payload :: payloads vs

def Value.childPayloads : List (String × Value) → List (K × Payload K Leaf)
  | [] => []
  | (key, v) :: children => (name key, v.payload) :: childPayloads children
end

theorem Value.payloads_eq (vs : List Value) : payloads name vs = vs.map (payload name) := by
  induction vs with
  | nil => rfl
  | cons v vs ih => rw [payloads, ih, List.map_cons]

/-- What is handed out for a value of the model; the order of a dictionary is open. -/
def HandedOut (p : Payload K Leaf) : Option Value → Prop
  | none => p = .null
  | some (.dict children) =>
    ∃ entries, p = .dictionary entries ∧ entries.Perm (Value.childPayloads name children)
  | some v => p = v.payload name

end payloads

/-! ## Section 2: Arrays -/

section arrays
variable {K V : Type} [ChildName K] [DecidableEq K] {f : Foundation} {isValidLeafValue : V → Bool}

/-- The keys of an array are integers, and the last index is the greatest. -/
theorem scan_indices (start len : Nat) {greatest : Nat} (hle : greatest ≤ start)
    (hsmall : start + len ≤ 2147483648) :
    ((List.range' start len).map decimal).foldl (FNode.scanKey f) (true, greatest)
      = (true, if len = 0 then greatest else start + len - 1) := by
  induction len generalizing start greatest with
  | zero => rfl
  | succ len ih =>
    have hzero : ¬ (decide ((decimal start).head? = some 48) && decide ((decimal start).length > 1))
        = true := by
      simp only [Bool.and_eq_true, decide_eq_true_eq, not_and]
      intro hhead
      rw [(noLeadingZero_decimal start).2 hhead]
      decide
    have hint : f.intForString (decimal start) = some start := by
      have hparse := parseDigits_decimal start
      rw [Foundation.intForString, if_pos (f.onlyDigits_of _ _ hparse),
        f.scanInteger_of _ _ (decimal_ne_nil start) hparse, Nat.min_eq_left (by omega)]
    have hstep : FNode.scanKey f (true, greatest) (decimal start) = (true, start) := by
      rw [FNode.scanKey]
      simp only [Bool.not_true, Bool.false_eq_true, if_false, if_neg hzero, hint]
      split
      · rfl
      · rw [Nat.le_antisymm hle (by omega)]
    rw [List.range'_succ, List.map_cons, List.foldl_cons, hstep, ih _ (by omega) (by omega)]
    split
    · simp [*]
    · simp only [Prod.mk.injEq, true_and]
      split <;> omega

theorem lookup_index {β : Type} (g : Nat → β) {i start len : Nat} (hle : start ≤ i)
    (hlt : i < start + len) :
    ((List.range' start len).map (fun j => ((ChildName.index j : K), g j))).lookup
      (ChildName.index i) = some (g i) := by
  induction len generalizing start with
  | zero => omega
  | succ len ih =>
    rw [List.range'_succ, List.map_cons, List.lookup_cons]
    by_cases heq : i = start
    · subst heq
      rw [beq_self_eq_true]
    · have hne : ((ChildName.index i : K) == ChildName.index start) = false := by
        rw [beq_eq_false_iff_ne]
        exact fun h => heq (index_injective h)
      rw [hne]
      exact ih (by omega) (by omega)

/-- The elements of a list by index. -/
theorem exists_indexed (x : V) (xs : List V) :
    ∃ g : Nat → V, x :: xs = (List.range' 0 (xs.length + 1)).map g ∧ ∀ j, g j ∈ x :: xs := by
  refine ⟨fun j => (x :: xs).getD j x, ?_, fun j => ?_⟩
  · refine List.ext_getElem (by simp) (fun j hj _ => ?_)
    rw [List.getElem_map, List.getElem_range', Nat.zero_add, Nat.one_mul,
      List.getD_eq_getElem _ _ hj]
  · change (x :: xs).getD j x ∈ x :: xs
    rw [List.getD_eq_getElem?_getD]
    cases hj : (x :: xs)[j]? with
    | none => simp
    | some y => exact List.mem_of_getElem? hj

variable (f isValidLeafValue) in
/-- An array of leaves is stored under its indices and handed out as it was. -/
theorem nodeFrom_leaves (x : V) (xs : List V) (hfew : xs.length < 2147483647) {depth : Nat}
    (hdepth : depth < FSnapshotUtilities.maxObjectDepth)
    (hvalid : ∀ y ∈ x :: xs, isValidLeafValue y = true) :
    ∃ node : FNode K V, FSnapshotUtilities.nodeFrom isValidLeafValue depth
        (.array ((x :: xs).map .leaf)) = some node
      ∧ node.isEmpty = false ∧ node.val f = .array ((x :: xs).map .leaf) := by
  obtain ⟨g, hindexed, hmem⟩ := exists_indexed x xs
  have helement : ∀ j, FSnapshotUtilities.nodeFrom isValidLeafValue (depth + 1) (.leaf (g j))
      = some (.leaf (g j) : FNode K V) := by
    intro j
    rw [FSnapshotUtilities.nodeFrom, if_neg (by omega), if_pos (hvalid _ (hmem j))]
  have hascending : Ascending keyComparator ((List.range' 0 (xs.length + 1)).map
      (fun j => ((ChildName.index j : K), (FNode.leaf (g j) : FNode K V)))) := by
    rw [Ascending, List.pairwise_map]
    refine List.Pairwise.imp_of_mem ?_ List.pairwise_lt_range'
    intro i j _ hj hlt
    have hbound := List.mem_range'_1.mp hj
    exact keyComparator_index hlt (by omega)
  rw [hindexed, List.map_map]
  refine ⟨.children ((List.range' 0 (xs.length + 1)).map
    (fun j => (ChildName.index j, .leaf (g j)))), ?_, ?_, ?_⟩
  · rw [FSnapshotUtilities.nodeFrom, if_neg (by omega)]
    have hchildren := FSnapshotUtilities.arrayChildren_map _ _ helement 0 (xs.length + 1)
    simp only [FNode.isEmpty, Bool.false_eq_true, if_false, List.filterMap_eq_map'] at hchildren
    rw [Function.comp_def, hchildren, Option.bind_some]
    exact FSnapshotUtilities.childrenNode_of_ascending hascending
  · rw [FNode.isEmpty, List.isEmpty_eq_false_iff]
    simp
  · have hkeys : ((List.range' 0 (xs.length + 1)).map
        (fun j => ((ChildName.index j : K), (FNode.leaf (g j) : FNode K V).val f))).map
            (fun e => ChildName.text e.1)
          = (List.range' 0 (xs.length + 1)).map decimal := by
      rw [List.map_map]
      exact List.map_congr_left (fun j _ => ChildName.text_index j)
    have hscan := scan_indices (f := f) 0 (xs.length + 1) le_rfl (by omega)
    rw [if_neg (by omega), Nat.zero_add, Nat.add_sub_cancel] at hscan
    have hdense : (true && decide (xs.length < 2 * (xs.length + 1))) = true := by
      simp only [Bool.true_and, decide_eq_true_eq]
      omega
    rw [FNode.val_children f (by simp), List.map_map, Function.comp_def, FNode.exportChildren,
      hkeys, hscan]
    dsimp only
    rw [List.length_map, List.length_range', if_pos hdense, List.range_eq_range']
    congr 1
    refine List.map_congr_left (fun i hi => ?_)
    have hbound := List.mem_range'_1.mp hi
    rw [lookup_index _ (Nat.zero_le i) hbound.2, Option.getD_some, FNode.val]
    rfl

end arrays

/-! ## Section 3: Records -/

/-- A text that names a child, and that the comparator does not take for an integer: it
    starts with neither a digit nor a minus sign. -/
structure PlainName {K : Type} [ChildName K] (name : String → K) (s : String) : Prop where
  text : ChildName.text (name s) = utf16 s
  valid : isValidKey (utf16 s) = true
  first : ∀ c, (utf16 s).head? = some c → (c < 48 ∨ c > 57) ∧ c ≠ 45

/-- A field that can be stored: its strings are not too long, and not too many. -/
structure Field.Fits (field : Field) : Prop where
  valid : ∀ s ∈ field.texts, s.utf8ByteSize ≤ maxLeafSize
  few : field.texts.length ≤ 2147483647

instance (field : Field) : Decidable field.Fits :=
  decidable_of_iff ((∀ s ∈ field.texts, s.utf8ByteSize ≤ maxLeafSize)
    ∧ field.texts.length ≤ 2147483647) ⟨fun h => ⟨h.1, h.2⟩, fun h => ⟨h.1, h.2⟩⟩

/-- A dictionary literal as the app writes them. -/
structure StorableObject {K : Type} [ChildName K] (name : String → K) (object : Object) :
    Prop where
  distinct : (object.map (·.1)).Nodup
  plain : ∀ field ∈ object, PlainName name field.1
  fits : ∀ field ∈ object, field.2.Fits

section records
variable {K : Type} [ChildName K] {name : String → K}

/-- Names that are not integers are in the order of their code units. -/
theorem PlainName.keyComparator_ne {a b : String} (ha : PlainName name a) (hb : PlainName name b)
    (hne : a ≠ b) : keyComparator (name a) (name b) ≠ .eq := by
  intro heq
  rw [keyComparator, ha.text, hb.text] at heq
  rcases (compareKey_eq_iff _ _).mp heq with hab | ⟨n, -, ⟨hleft, -⟩ | ⟨hright, -⟩⟩
  · exact hne (utf16_injective (FKey.name.inj hab))
  · -- A spelling of zero starts with a digit.
    have hfirst := (ha.first 48 (by rw [FKey.name.inj hleft]; rfl)).1
    revert hfirst
    decide
  · have hfirst := (hb.first 48 (by rw [FKey.name.inj hright]; rfl)).1
    revert hfirst
    decide

omit [ChildName K] in
/-- What is stored of a field is what was handed over, unless that was an empty array. -/
theorem payload_of_node (name : String → K) {field : Field} {v : Value}
    (h : field.node = some v) : v.payload name = field.payload := by
  cases field with
  | string s =>
    obtain rfl := Option.some.inj h
    rw [Value.payload, Field.payload]
  | strings xs =>
    cases xs with
    | nil => cases h
    | cons x xs =>
      obtain rfl := Option.some.inj h
      have helement : Value.payload name ∘ Value.string = fun y => .leaf (.string y) := by
        funext y
        rw [Function.comp_apply, Value.payload]
      rw [Value.ofStrings, Value.payload, Value.payloads_eq, List.map_map, helement,
        Field.payload, List.map_cons, Value.payload]

variable [DecidableEq K] (f : Foundation)

/-- One field: its node, and what is handed out for it. -/
theorem nodeFrom_field (name : String → K) (field : Field) (hfits : field.Fits) {depth : Nat}
    (hdepth : depth < FSnapshotUtilities.maxObjectDepth) :
    ∃ node : FNode K Leaf,
      FSnapshotUtilities.nodeFrom isValidLeafValue depth field.payload = some node
      ∧ match field.node with
        | none => node.isEmpty = true
        | some v => node.isEmpty = false ∧ node.val f = v.payload name := by
  have hleaf : ∀ s ∈ field.texts, isValidLeafValue (.string s) = true :=
    fun s hs => decide_eq_true (hfits.valid s hs)
  cases field with
  | string s =>
    refine ⟨.leaf (.string s), ?_, rfl, by rw [FNode.val, Value.payload]⟩
    rw [Field.payload, FSnapshotUtilities.nodeFrom, if_neg (by omega),
      if_pos (hleaf s (by simp [Field.texts]))]
  | strings xs =>
    cases xs with
    | nil =>
      refine ⟨.empty, ?_, rfl⟩
      rw [Field.payload, List.map_nil, FSnapshotUtilities.nodeFrom, if_neg (by omega),
        FSnapshotUtilities.arrayChildren]
      rfl
    | cons x xs =>
      have hfew := hfits.few
      rw [Field.texts, List.length_cons] at hfew
      have hvalid : ∀ y ∈ Leaf.string x :: xs.map .string, isValidLeafValue y = true := by
        intro y hy
        rw [← List.map_cons, List.mem_map] at hy
        obtain ⟨s, hs, rfl⟩ := hy
        exact hleaf s hs
      obtain ⟨node, hnode, hnonempty, hval⟩ := nodeFrom_leaves (K := K) f isValidLeafValue
        (.string x) (xs.map .string) (by rw [List.length_map]; omega) hdepth hvalid
      have hpayload : ((.string x :: xs.map Leaf.string).map Payload.leaf : List (Payload K Leaf))
          = (x :: xs).map (fun y => .leaf (.string y)) := by simp
      rw [hpayload] at hnode hval
      refine ⟨node, hnode, hnonempty, ?_⟩
      rw [hval, payload_of_node name
        (show (Field.strings (x :: xs)).node = some (.ofStrings x xs) from rfl), Field.payload]

/-- The fields of a record that are not empty, as the model stores them. -/
def storedFields (object : Object) : List (String × Value) :=
  object.filterMap (fun field => field.2.node.map (field.1, ·))

/-- The loop over a record collects the nodes of the fields that are not empty. -/
theorem dictionaryChildren_object (object : Object) {depth : Nat}
    (hdepth : depth < FSnapshotUtilities.maxObjectDepth)
    (hplain : ∀ field ∈ object, PlainName name field.1)
    (hfits : ∀ field ∈ object, field.2.Fits) :
    ∃ children, FSnapshotUtilities.dictionaryChildren isValidLeafValue depth
        (object.map (fun field => (name field.1, field.2.payload))) = some children
      ∧ FSnapshotUtilities.dictionaryChildren isValidLeafValue depth
        (Value.childPayloads name (storedFields object)) = some children
      ∧ children.map (fun e => (e.1, e.2.val f)) = Value.childPayloads name (storedFields object)
      ∧ children.map (·.1) = (storedFields object).map (fun c => name c.1) := by
  induction object with
  | nil =>
    have hnil : FSnapshotUtilities.dictionaryChildren isValidLeafValue depth
        ([] : List (K × Payload K Leaf)) = some [] := FSnapshotUtilities.dictionaryChildren.eq_1 ..
    exact ⟨[], hnil, hnil, rfl, rfl⟩
  | cons field rest ih =>
    obtain ⟨children, hchildren, hstored, hvals, hkeys⟩ :=
      ih (fun a ha => hplain a (by simp [ha])) (fun a ha => hfits a (by simp [ha]))
    obtain ⟨node, hnode, hval⟩ := nodeFrom_field f name field.2 (hfits field (by simp)) hdepth
    have hvalid : isValidKey (ChildName.text (name field.1)) = true := by
      rw [(hplain field (by simp)).text]
      exact (hplain field (by simp)).valid
    rw [List.map_cons, FSnapshotUtilities.dictionaryChildren, if_pos hvalid, hnode, hchildren]
    refine ⟨_, rfl, ?_⟩
    rw [storedFields, List.filterMap_cons, ← storedFields]
    cases hfield : field.2.node with
    | none =>
      rw [hfield] at hval
      rw [FSnapshotUtilities.addChild, if_pos hval]
      exact ⟨hstored, hvals, hkeys⟩
    | some v =>
      rw [hfield] at hval
      rw [FSnapshotUtilities.addChild, if_neg (by simp [hval.1])]
      refine ⟨?_, ?_, ?_⟩
      · rw [Option.map_some, Value.childPayloads, FSnapshotUtilities.dictionaryChildren,
          if_pos hvalid, payload_of_node name hfield, hnode, hstored]
        simp [FSnapshotUtilities.addChild, hval.1]
      · rw [List.map_cons, hval.2, hvals]
        rfl
      · rw [List.map_cons, hkeys]
        rfl

theorem nodeFrom_storedFields (object : Object) :
    nodeFrom object
      = if storedFields object = [] then none else some (.dict (storedFields object)) := by
  rw [nodeFrom, ← storedFields]
  cases storedFields object with
  | nil => rfl
  | cons c children => rfl

/-- The node that the library makes of a value of the model. -/
def encode (name : String → K) : Option Value → FNode K Leaf
  | none => .empty
  | some v => (FSnapshotUtilities.nodeFrom isValidLeafValue 0 (v.payload name)).getD .empty

omit [DecidableEq K] in
theorem pruned_encode (name : String → K) (value : Option Value) :
    (encode name value).Pruned keyComparator := by
  cases value with
  | none => exact .empty
  | some v =>
    rw [encode]
    cases hnode : FSnapshotUtilities.nodeFrom isValidLeafValue 0 (v.payload name) with
    | none => exact .empty
    | some node => exact pruned_of_nodeFrom _ hnode

/-- A record of the app is accepted.  Its node has the fields that are not empty, and is the
    node of the value that the model stores. -/
theorem exists_nodeFrom_object {object : Object} (h : StorableObject name object) :
    ∃ entries, FSnapshotUtilities.nodeFrom isValidLeafValue 0 (payloadOf name object)
        = some (.children entries)
      ∧ encode name (nodeFrom object) = .children entries
      ∧ (entries.map (fun e => (e.1, e.2.val f))).Perm
        (Value.childPayloads name (storedFields object))
      ∧ (entries.map (·.1)).Perm ((storedFields object).map (fun c => name c.1)) := by
  obtain ⟨children, hchildren, hstored, hvals, hkeys⟩ := dictionaryChildren_object f object
    (by decide : 0 + 1 < FSnapshotUtilities.maxObjectDepth) h.plain h.fits
  have hpairwise : (children.map (·.1)).Pairwise (fun a b => keyComparator a b ≠ .eq) := by
    rw [hkeys, storedFields, List.pairwise_map, List.pairwise_filterMap]
    refine List.Pairwise.imp_of_mem ?_ (List.pairwise_map.mp h.distinct)
    intro a b ha hb hne c hc d hd
    obtain ⟨v, -, rfl⟩ := Option.map_eq_some_iff.mp hc
    obtain ⟨w, -, rfl⟩ := Option.map_eq_some_iff.mp hd
    exact (h.plain a ha).keyComparator_ne (h.plain b hb) hne
  -- No two names compare as equal, so the dictionary of the children can be built.
  obtain ⟨node, hnode⟩ : ∃ node, FSnapshotUtilities.childrenNode children = some node := by
    rw [FSnapshotUtilities.childrenNode]
    split
    · exact ⟨_, rfl⟩
    · cases hd : FImmutableSortedDictionary.fromDictionary keyComparator children with
      | none =>
        exact absurd (List.pairwise_map.mp hpairwise)
          (FImmutableSortedDictionary.fromDictionary_eq_none.mp hd)
      | some d => exact ⟨_, rfl⟩
  obtain ⟨entries, rfl, -, hperm⟩ := FSnapshotUtilities.childrenNode_eq_some hnode
  refine ⟨entries, ?_, ?_, hvals ▸ hperm.map _, hkeys ▸ hperm.map _⟩
  · rw [payloadOf, FSnapshotUtilities.nodeFrom, if_neg (by decide), hchildren, Option.bind_some,
      hnode]
  · rw [nodeFrom_storedFields]
    split
    · next hnone =>
      rw [hnone, List.map_nil, List.map_eq_nil_iff] at hkeys
      rw [hkeys] at hperm
      rw [List.Perm.eq_nil hperm]
      rfl
    · rw [encode, Value.payload, FSnapshotUtilities.nodeFrom, if_neg (by decide), hstored,
        Option.bind_some, hnode, Option.getD_some]

end records

theorem plainName_ofString {s : String} {c : UInt16} {cs : NSString} (hs : utf16 s = c :: cs)
    (hname : isName (c :: cs) = true) (hfirst : (c < 48 ∨ c > 57) ∧ c ≠ 45) :
    PlainName Name.ofString s where
  text := Name.text_ofString (by rwa [hs])
  valid := by
    rw [hs]
    exact Name.isValidKey ⟨_, hname⟩
  first := by
    intro d hd
    rw [hs, List.head?_cons] at hd
    rwa [← Option.some.inj hd]

theorem intForString_asciiFoundation {s : String} {c : UInt16} {cs : NSString}
    (hs : utf16 s = c :: cs) (hfirst : c < 48 ∨ c > 57) :
    asciiFoundation.intForString (utf16 s) = none := by
  refine plainKey_asciiFoundation _ ?_
  rw [hs, parseDigits, if_pos (by simpa using hfirst)]

/-- The inventory of an event of which one ticket is sold and none is left. -/
def soldOutInventory : Object := [("AllTickets", .strings ["a"]), ("RemainingTickets", .strings [])]

theorem storable_soldOutInventory : StorableObject Name.ofString soldOutInventory where
  distinct := by decide
  plain := by
    intro field hfield
    simp only [soldOutInventory, List.mem_cons, List.not_mem_nil, or_false] at hfield
    rcases hfield with rfl | rfl
    · exact plainName_ofString rfl (by decide) (by decide)
    · exact plainName_ofString rfl (by decide) (by decide)
  fits := by decide

end MeetupApp.Firebase
