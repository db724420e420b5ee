import MeetupApp.Framework.Runs
import MeetupApp.Firebase.TreeSortedDictionary

/-! # FImmutableSortedDictionary

    The sorted dictionary of the client: an array up to 25 entries, a
    red-black tree from there on.  An insertion into a full array moves all
    entries into a tree, and nothing ever moves back.  Either way the
    dictionary is the ascending list of its entries. -/

namespace MeetupApp.Firebase

open SortedEntries

variable {K V : Type}

/-! ## Section 1: FArraySortedDictionary -/

/-- `SORTED_DICTIONARY_ARRAY_TO_RB_TREE_SIZE_THRESHOLD` -/
def sortedDictionaryThreshold : Nat := 25

/-- `FArraySortedDictionary` with the comparator `cmp`; the arrays of the keys and
    of the values are always changed at the same position. -/
structure FArraySortedDictionary (cmp : K → K → Ordering) (V : Type) where
  entries : List (K × V)
  ascending : Ascending cmp entries

/-- The loop of `findInsertPositionForKey:`. -/
def findInsertPositionForKey (cmp : K → K → Ordering) (key : K) : List (K × V) → Nat
  | [] => 0
  | e :: es => if cmp e.1 key = .lt then findInsertPositionForKey cmp key es + 1 else 0

/-- The loop of `findKey:`; `NSNotFound` is `none`. -/
def findKey (cmp : K → K → Ordering) (key : K) : List (K × V) → Option Nat
  | [] => none
  | e :: es =>
    match cmp key e.1 with
    | .eq => some 0
    | .lt => none
    | .gt => (findKey cmp key es).map (· + 1)

/-- `insertKey:withValue:` below the threshold. -/
def insertAt (cmp : K → K → Ordering) (key : K) (value : V) (es : List (K × V)) :
    List (K × V) :=
  match findKey cmp key es with
  | none => es.insertIdx (findInsertPositionForKey cmp key es) (key, value)
  | some pos => es.set pos (key, value)

section array
variable {cmp : K → K → Ordering} {key : K}

/-- The position that was found is where the ordered list changes. -/
theorem findKey_eq_some {es : List (K × V)} {pos : Nat} (h : findKey cmp key es = some pos) :
    (∀ value, es.set pos (key, value) = put cmp false key value es)
      ∧ es.eraseIdx pos = erase cmp key es
      ∧ es[pos]?.map (·.2) = lookup cmp key es := by
  induction es generalizing pos with
  | nil => cases h
  | cons e es ih =>
    rw [findKey] at h
    cases hcmp : cmp key e.1 with
    | lt => simp [hcmp] at h
    | eq =>
      simp only [hcmp, Option.some.injEq] at h
      subst h
      simp [put, erase, lookup, hcmp]
    | gt =>
      simp only [hcmp, Option.map_eq_some_iff] at h
      obtain ⟨p, hp, rfl⟩ := h
      obtain ⟨hput, herase, hget⟩ := ih hp
      rw [erase_cons_gt hcmp, lookup_cons_gt hcmp, ← herase]
      refine ⟨?_, rfl, hget⟩
      intro value
      rw [put_cons_gt hcmp, ← hput]
      rfl

variable [Std.TransCmp cmp]

/-- No position is found for the keys that the ordered list does not hold. -/
theorem findKey_eq_none {es : List (K × V)} (hasc : Ascending cmp es)
    (h : findKey cmp key es = none) :
    (∀ value, es.insertIdx (findInsertPositionForKey cmp key es) (key, value)
        = put cmp false key value es)
      ∧ erase cmp key es = es ∧ lookup cmp key es = none := by
  induction es with
  | nil => exact ⟨fun _ => rfl, rfl, rfl⟩
  | cons e es ih =>
    rw [findKey] at h
    obtain ⟨hlt, hes⟩ := ascending_cons.mp hasc
    cases hcmp : cmp key e.1 with
    | lt =>
      have hgt := Std.OrientedCmp.gt_of_lt hcmp
      rw [erase_cons_lt hcmp, lookup_cons_lt hcmp]
      simp [findInsertPositionForKey, hgt, put_cons_lt hcmp]
    | eq => simp [hcmp] at h
    | gt =>
      simp only [hcmp, Option.map_eq_none_iff] at h
      obtain ⟨hput, herase, hget⟩ := ih hes h
      have hlt' := Std.OrientedCmp.lt_of_gt hcmp
      rw [erase_cons_gt hcmp, lookup_cons_gt hcmp, herase]
      refine ⟨?_, rfl, hget⟩
      intro value
      rw [findInsertPositionForKey, if_pos hlt', List.insertIdx_succ_cons, put_cons_gt hcmp,
        hput]

/-- An insertion into the array is an insertion into the ordered list. -/
theorem insertAt_eq_put {es : List (K × V)} {value : V} (hasc : Ascending cmp es) :
    insertAt cmp key value es = put cmp false key value es := by
  unfold insertAt
  cases h : findKey cmp key es with
  | none => exact (findKey_eq_none hasc h).1 value
  | some pos => exact (findKey_eq_some h).1 value

end array

/-! ## Section 2: The two implementations behind one interface -/

/-- `FImmutableSortedDictionary` -/
inductive FImmutableSortedDictionary (cmp : K → K → Ordering) (V : Type) where
  | array (d : FArraySortedDictionary cmp V)
  | tree (d : FTreeSortedDictionary cmp V)

namespace FArraySortedDictionary

variable {cmp : K → K → Ordering}

def get (d : FArraySortedDictionary cmp V) (key : K) : Option V :=
  (findKey cmp key d.entries).bind (fun pos => d.entries[pos]?.map (·.2))

/-- `getPredecessorKey:`; an exception is `none`, the answer `nil` is `some none`. -/
def getPredecessorKey (d : FArraySortedDictionary cmp V) (key : K) : Option (Option K) :=
  (findKey cmp key d.entries).map (fun pos =>
    if pos = 0 then none else d.entries[pos - 1]?.map (·.1))

variable [Std.TransCmp cmp]

/-- `insertKey:withValue:`; a full array is turned into a tree, with `none` for an
    exception of `fromDictionary`. -/
def insertKey (d : FArraySortedDictionary cmp V) (key : K) (value : V) :
    Option (FImmutableSortedDictionary cmp V) :=
  if findKey cmp key d.entries = none ∧ sortedDictionaryThreshold ≤ d.entries.length then
    (FTreeSortedDictionary.fromDictionary cmp (d.entries ++ [(key, value)])).map .tree
  else
    some (.array
      { entries := insertAt cmp key value d.entries
        ascending := by
          rw [insertAt_eq_put d.ascending]
          exact d.ascending.put })

/-- `removeKey:` -/
def removeKey (d : FArraySortedDictionary cmp V) (key : K) : FArraySortedDictionary cmp V :=
  match hpos : findKey cmp key d.entries with
  | none => d
  | some pos =>
    { entries := d.entries.eraseIdx pos
      ascending := by
        rw [(findKey_eq_some hpos).2.1]
        exact d.ascending.erase }

/-- `fromDictionary:withComparator:`; the exception is `none`. -/
def fromDictionary (cmp : K → K → Ordering) [Std.TransCmp cmp] (dictionary : List (K × V)) :
    Option (FArraySortedDictionary cmp V) :=
  let keys := dictionary.mergeSort (fun a b => (cmp a.1 b.1).isLE)
  if hkeys : keysAscend cmp keys = true then some ⟨keys, ascending_of_keysAscend hkeys⟩
  else none

end FArraySortedDictionary

namespace FImmutableSortedDictionary

variable {cmp : K → K → Ordering}

/-- `dictionaryWithComparator:` -/
def dictionaryWithComparator (cmp : K → K → Ordering) (V : Type) :
    FImmutableSortedDictionary cmp V := .array ⟨[], ascending_nil⟩

/-- The entries in enumeration order. -/
def entries : FImmutableSortedDictionary cmp V → List (K × V)
  | .array d => d.entries
  | .tree d => d.entries

def objectForKey : FImmutableSortedDictionary cmp V → K → Option V
  | .array d, key => d.get key
  | .tree d, key => d.get key

def getPredecessorKey : FImmutableSortedDictionary cmp V → K → Option (Option K)
  | .array d, key => d.getPredecessorKey key
  | .tree d, key => d.getPredecessorKey key

def minKey : FImmutableSortedDictionary cmp V → Option K
  | .array d => d.entries.head?.map (·.1)
  | .tree d => d.minKey

def maxKey : FImmutableSortedDictionary cmp V → Option K
  | .array d => d.entries.getLast?.map (·.1)
  | .tree d => d.maxKey

def count : FImmutableSortedDictionary cmp V → Nat
  | .array d => d.entries.length
  | .tree d => d.count

variable [Std.TransCmp cmp]

def setObject : FImmutableSortedDictionary cmp V → K → V →
    Option (FImmutableSortedDictionary cmp V)
  | .array d, key, value => d.insertKey key value
  | .tree d, key, value => some (.tree (d.insertKey key value))

def removeObjectForKey : FImmutableSortedDictionary cmp V → K → FImmutableSortedDictionary cmp V
  | .array d, key => .array (d.removeKey key)
  | .tree d, key => .tree (d.removeKey key)

/-- `fromDictionary:withComparator:` -/
def fromDictionary (cmp : K → K → Ordering) [Std.TransCmp cmp] (dictionary : List (K × V)) :
    Option (FImmutableSortedDictionary cmp V) :=
  if dictionary.length ≤ sortedDictionaryThreshold then
    (FArraySortedDictionary.fromDictionary cmp dictionary).map .array
  else (FTreeSortedDictionary.fromDictionary cmp dictionary).map .tree

end FImmutableSortedDictionary

/-! ## Section 3: Sorting a dictionary -/

section sorting
variable {cmp : K → K → Ordering} [Std.TransCmp cmp] {dictionary : List (K × V)}

/-- The sorted keys pass the check unless two of them have the same ordering. -/
theorem keysAscend_mergeSort :
    keysAscend cmp (dictionary.mergeSort (fun a b => (cmp a.1 b.1).isLE)) = true
      ↔ dictionary.Pairwise (fun a b => cmp a.1 b.1 ≠ .eq) := by
  have hperm := dictionary.mergeSort_perm (fun a b => (cmp a.1 b.1).isLE)
  have hsymm : ∀ {a b : K × V}, cmp a.1 b.1 ≠ .eq → cmp b.1 a.1 ≠ .eq :=
    fun h h' => h (Std.OrientedCmp.eq_symm h')
  rw [← hperm.pairwise_iff hsymm]
  constructor
  · intro h
    exact (ascending_of_keysAscend h).imp (fun hlt => by simp [hlt])
  · intro h
    have htotal : ∀ a b : K × V, ((cmp a.1 b.1).isLE || (cmp b.1 a.1).isLE) = true := by
      intro a b
      have hswap : cmp b.1 a.1 = (cmp a.1 b.1).swap := Std.OrientedCmp.eq_swap
      rw [hswap]
      cases cmp a.1 b.1 <;> rfl
    have hle : (dictionary.mergeSort (fun a b => (cmp a.1 b.1).isLE)).Pairwise
        (fun a b => (cmp a.1 b.1).isLE = true) :=
      List.pairwise_mergeSort (fun a b c => Std.TransCmp.isLE_trans) htotal dictionary
    apply keysAscend_of_ascending
    refine List.Pairwise.imp₂ ?_ h hle
    intro a b hne hle
    cases hcmp : cmp a.1 b.1 <;> simp_all

theorem FTreeSortedDictionary.entries_fromDictionary {d : FTreeSortedDictionary cmp V}
    (h : fromDictionary cmp dictionary = some d) : d.entries.Perm dictionary := by
  unfold fromDictionary at h
  obtain ⟨t, n, ht, -, hes⟩ := rootFrom12List_spec
    (dictionary.mergeSort (fun a b => (cmp a.1 b.1).isLE))
  dsimp only at h
  split at h
  · split at h
    · cases h
    · next root hroot =>
      obtain rfl := Option.some.inj h
      rw [ht] at hroot
      obtain rfl := Option.some.inj hroot
      rw [entries, hes]
      exact List.mergeSort_perm _ _
  · cases h

theorem FTreeSortedDictionary.fromDictionary_eq_none :
    fromDictionary cmp dictionary = none
      ↔ ¬ dictionary.Pairwise (fun a b => cmp a.1 b.1 ≠ .eq) := by
  rw [← keysAscend_mergeSort]
  obtain ⟨t, n, ht, -, -⟩ := rootFrom12List_spec
    (dictionary.mergeSort (fun a b => (cmp a.1 b.1).isLE))
  unfold fromDictionary
  dsimp only
  split
  · next hkeys =>
    split
    · next hroot => rw [ht] at hroot; cases hroot
    · simp [hkeys]
  · next hkeys => simp [hkeys]

theorem FArraySortedDictionary.entries_fromDictionary {d : FArraySortedDictionary cmp V}
    (h : fromDictionary cmp dictionary = some d) : d.entries.Perm dictionary := by
  unfold fromDictionary at h
  dsimp only at h
  split at h
  · obtain rfl := Option.some.inj h
    exact List.mergeSort_perm _ _
  · cases h

theorem FArraySortedDictionary.fromDictionary_eq_none :
    fromDictionary cmp dictionary = none
      ↔ ¬ dictionary.Pairwise (fun a b => cmp a.1 b.1 ≠ .eq) := by
  rw [← keysAscend_mergeSort]
  unfold fromDictionary
  dsimp only
  split
  · next hkeys => simp [hkeys]
  · next hkeys => simp [hkeys]

/-- Whichever implementation is chosen, the exception is about two keys of the same
    ordering, and otherwise the dictionary has the given entries. -/
theorem FImmutableSortedDictionary.fromDictionary_eq_none :
    fromDictionary cmp dictionary = none
      ↔ ¬ dictionary.Pairwise (fun a b => cmp a.1 b.1 ≠ .eq) := by
  unfold fromDictionary
  split
  · rw [Option.map_eq_none_iff, FArraySortedDictionary.fromDictionary_eq_none]
  · rw [Option.map_eq_none_iff, FTreeSortedDictionary.fromDictionary_eq_none]

theorem FImmutableSortedDictionary.entries_fromDictionary
    {d : FImmutableSortedDictionary cmp V} (h : fromDictionary cmp dictionary = some d) :
    d.entries.Perm dictionary := by
  unfold fromDictionary at h
  split at h
  · obtain ⟨a, ha, rfl⟩ := Option.map_eq_some_iff.mp h
    exact FArraySortedDictionary.entries_fromDictionary ha
  · obtain ⟨t, ht, rfl⟩ := Option.map_eq_some_iff.mp h
    exact FTreeSortedDictionary.entries_fromDictionary ht

end sorting

/-! ## Section 4: The dictionary is the ordered list of its entries -/

namespace FImmutableSortedDictionary

section answers
variable {cmp : K → K → Ordering} (d : FImmutableSortedDictionary cmp V)

theorem ascending_entries : Ascending cmp d.entries := by
  cases d with
  | array a => exact a.ascending
  | tree t => exact t.ascending

theorem minKey_eq : d.minKey = d.entries.head?.map (·.1) := by
  cases d with
  | array a => rfl
  | tree t => exact t.root.minKey_eq

theorem maxKey_eq : d.maxKey = d.entries.getLast?.map (·.1) := by
  cases d with
  | array a => rfl
  | tree t => exact t.root.maxKey_eq

theorem count_eq : d.count = d.entries.length := by
  cases d with
  | array a => rfl
  | tree t => exact t.root.count_eq_length

variable [Std.TransCmp cmp]

theorem objectForKey_eq (key : K) : d.objectForKey key = lookup cmp key d.entries := by
  cases d with
  | array a =>
    rw [objectForKey, entries, FArraySortedDictionary.get]
    cases h : findKey cmp key a.entries with
    | none => exact (findKey_eq_none a.ascending h).2.2.symm
    | some pos => exact (findKey_eq_some h).2.2
  | tree t => exact FLLRBNode.get_eq_lookup t.ascending

/-- The entries below the key that was found are those before its position. -/
theorem below_of_findKey {cmp : K → K → Ordering} [Std.TransCmp cmp] {es : List (K × V)}
    {key : K} {pos : Nat} (hasc : Ascending cmp es) (h : findKey cmp key es = some pos) :
    below cmp key es = es.take pos := by
  induction es generalizing pos with
  | nil => cases h
  | cons e es ih =>
    rw [findKey] at h
    cases hcmp : cmp key e.1 with
    | lt => simp [hcmp] at h
    | eq =>
      simp only [hcmp, Option.some.injEq] at h
      subst h
      exact below_append_lt (L := []) (ascending_split.mp hasc) (by simp [hcmp])
    | gt =>
      simp only [hcmp, Option.map_eq_some_iff] at h
      obtain ⟨p, hp, rfl⟩ := h
      have hL : ∀ a ∈ ([] : List (K × V)), cmp key a.1 = .gt := by simp
      have := below_append_gt (R := es) hL hcmp
      rw [List.nil_append, List.nil_append] at this
      rw [this, ih (ascending_cons.mp hasc).2 hp, List.take_succ_cons]

theorem findKey_lt_length {cmp : K → K → Ordering} {es : List (K × V)} {key : K} {pos : Nat}
    (h : findKey cmp key es = some pos) : pos < es.length := by
  induction es generalizing pos with
  | nil => cases h
  | cons e es ih =>
    rw [findKey] at h
    cases hcmp : cmp key e.1 with
    | lt => simp [hcmp] at h
    | eq =>
      simp only [hcmp, Option.some.injEq] at h
      subst h
      simp
    | gt =>
      simp only [hcmp, Option.map_eq_some_iff] at h
      obtain ⟨p, hp, rfl⟩ := h
      simpa using ih hp

/-- Both implementations answer with the greatest smaller key, and both raise an
    exception for a key they do not hold. -/
theorem getPredecessorKey_eq (key : K) :
    d.getPredecessorKey key = (d.objectForKey key).map
      (fun _ => (below cmp key d.entries).getLast?.map (·.1)) := by
  rw [d.objectForKey_eq]
  cases d with
  | tree t =>
    rw [getPredecessorKey, FTreeSortedDictionary.getPredecessorKey,
      FLLRBNode.getPredecessorKey_eq none t.ascending]
    simp only [Option.or_none]
    rfl
  | array a =>
    rw [getPredecessorKey, FArraySortedDictionary.getPredecessorKey]
    change (findKey cmp key a.entries).map _ = (lookup cmp key a.entries).map _
    cases h : findKey cmp key a.entries with
    | none => rw [(findKey_eq_none a.ascending h).2.2]; rfl
    | some pos =>
      have hlt := findKey_lt_length h
      rw [← (findKey_eq_some h).2.2, List.getElem?_eq_getElem hlt]
      change some _ = some ((below cmp key a.entries).getLast?.map (·.1))
      rw [below_of_findKey a.ascending h]
      cases pos with
      | zero => rfl
      | succ n =>
        have hn : a.entries[n]? = some a.entries[n] := List.getElem?_eq_getElem (by omega)
        simp [List.getLast?_take, hn]

/-- What a write does to the ordered list; the array takes over the spelling of the
    new key, the tree keeps the old one. -/
theorem entries_setObject (key : K) (value : V) :
    ∃ d', d.setObject key value = some d'
      ∧ ∃ keepKey, d'.entries = put cmp keepKey key value d.entries := by
  cases d with
  | tree t =>
    refine ⟨_, rfl, true, ?_⟩
    rw [entries, FTreeSortedDictionary.entries, FTreeSortedDictionary.insertKey,
      FLLRBNode.inorderTraversal_copyWith_color]
    exact FLLRBNode.inorderTraversal_insertKey t.ascending
  | array a =>
    rw [setObject, FArraySortedDictionary.insertKey]
    split
    · next hfull =>
      -- The entries move into a tree; there is only one ascending order of them.
      have hnone := (findKey_eq_none a.ascending hfull.1).2.2
      have hasc : Ascending cmp (put cmp false key value a.entries) := a.ascending.put
      have hperm : (a.entries ++ [(key, value)]).Perm (put cmp false key value a.entries) :=
        (List.perm_append_singleton _ _).trans (put_perm hnone).symm
      cases hd : FTreeSortedDictionary.fromDictionary cmp (a.entries ++ [(key, value)]) with
      | none =>
        have hsymm : ∀ {a b : K × V}, cmp a.1 b.1 ≠ .eq → cmp b.1 a.1 ≠ .eq :=
          fun h h' => h (Std.OrientedCmp.eq_symm h')
        refine absurd ?_ (FTreeSortedDictionary.fromDictionary_eq_none.mp hd)
        rw [hperm.pairwise_iff hsymm]
        exact hasc.imp (fun hlt => by simp [hlt])
      | some t =>
        refine ⟨.tree t, rfl, false, ?_⟩
        have hentries := FTreeSortedDictionary.entries_fromDictionary hd
        exact Ascending.eq_of_perm t.ascending hasc (hentries.trans hperm)
    · exact ⟨_, rfl, false, insertAt_eq_put a.ascending⟩

/-- What a removal does to the ordered list. -/
theorem entries_removeObjectForKey (key : K) :
    (d.removeObjectForKey key).entries = erase cmp key d.entries := by
  cases d with
  | array a =>
    rw [removeObjectForKey, entries, entries, FArraySortedDictionary.removeKey]
    split
    · next h => exact (findKey_eq_none a.ascending h).2.1.symm
    · next pos h => exact (findKey_eq_some h).2.1
  | tree t =>
    rw [removeObjectForKey, entries, entries, FTreeSortedDictionary.removeKey]
    split
    · next h =>
      obtain ⟨n, hbal⟩ := t.balanced
      rw [FTreeSortedDictionary.entries, FLLRBNode.inorderTraversal_copyWith_color]
      exact (hbal.remove_root t.ascending).2
    · next h =>
      rw [FTreeSortedDictionary.contains, FTreeSortedDictionary.get,
        FLLRBNode.get_eq_lookup t.ascending, Option.not_isSome_iff_eq_none] at h
      exact (erase_of_lookup h).symm

end answers

end FImmutableSortedDictionary

end MeetupApp.Firebase
