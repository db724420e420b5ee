import Mathlib.Data.List.Perm.Subperm
import MeetupApp.Firebase.Key
import MeetupApp.Firebase.SortedDictionary

/-! # Runs of writes to a sorted dictionary

    Whatever is written in whatever order, the dictionary answers as the map
    that remembers the last write of each key, enumerates its keys in ascending
    order, and keeps within the bounds of its implementation: 25 entries for
    the array, logarithmic depth for the tree. -/

namespace MeetupApp.Firebase

open SortedEntries

variable {K V : Type}

/-! ## Section 1: Writes -/

/-- A write to a dictionary. -/
inductive DictionaryWrite (K V : Type) where
  | setObject (key : K) (value : V)
  | removeObjectForKey (key : K)

/-- What a write means for the map from keys to values. -/
def DictionaryWrite.onMap (cmp : K → K → Ordering) (m : K → Option V) :
    DictionaryWrite K V → K → Option V
  | setObject k v => fun key => if cmp key k = .eq then some v else m key
  | removeObjectForKey k => fun key => if cmp key k = .eq then none else m key

/-- The map after a list of writes, from the empty one. -/
def held (cmp : K → K → Ordering) (writes : List (DictionaryWrite K V)) : K → Option V :=
  writes.foldl (DictionaryWrite.onMap cmp) (fun _ => none)

namespace FImmutableSortedDictionary

variable {cmp : K → K → Ordering} [Std.TransCmp cmp]

/-- A write to the dictionary; `none` is an exception. -/
def step (d : FImmutableSortedDictionary cmp V) :
    DictionaryWrite K V → Option (FImmutableSortedDictionary cmp V)
  | .setObject key value => d.setObject key value
  | .removeObjectForKey key => some (d.removeObjectForKey key)

/-- A write never raises an exception, and does to the answers what it means. -/
theorem step_answers (d : FImmutableSortedDictionary cmp V) (w : DictionaryWrite K V) :
    ∃ d', d.step w = some d' ∧ d'.objectForKey = w.onMap cmp d.objectForKey := by
  cases w with
  | setObject k v =>
    obtain ⟨d', hd', keepKey, hentries⟩ := d.entries_setObject k v
    refine ⟨d', hd', ?_⟩
    funext key
    rw [objectForKey_eq, hentries, lookup_put d.ascending_entries, ← objectForKey_eq]
    rfl
  | removeObjectForKey k =>
    refine ⟨_, rfl, ?_⟩
    funext key
    rw [objectForKey_eq, entries_removeObjectForKey, lookup_erase d.ascending_entries,
      ← objectForKey_eq]
    rfl

/-- By induction on the writes, from any dictionary. -/
theorem exec_answers (d : FImmutableSortedDictionary cmp V) (writes : List (DictionaryWrite K V)) :
    ∃ d', Runs.exec step d writes = some d'
      ∧ d'.objectForKey = writes.foldl (DictionaryWrite.onMap cmp) d.objectForKey := by
  induction writes generalizing d with
  | nil => exact ⟨d, rfl, rfl⟩
  | cons w writes ih =>
    obtain ⟨m, hm, hanswers⟩ := d.step_answers w
    obtain ⟨d', hd', hall⟩ := ih m
    refine ⟨d', Runs.exec_cons_of_step hm hd', ?_⟩
    rw [hall, hanswers]
    rfl

/-- The empty dictionary after any writes: no exception, the answers of the map of the
    last writes, the entries of that map in ascending order, and their extremes. -/
theorem answers_of_writes (writes : List (DictionaryWrite K V)) :
    ∃ d, Runs.exec step (dictionaryWithComparator cmp V) writes = some d
      ∧ (∀ key, d.objectForKey key = held cmp writes key)
      ∧ Ascending cmp d.entries
      ∧ (∀ e ∈ d.entries, held cmp writes e.1 = some e.2)
      ∧ (∀ key, held cmp writes key ≠ none → ∃ e ∈ d.entries, cmp key e.1 = .eq)
      ∧ d.count = d.entries.length
      ∧ d.minKey = d.entries.head?.map (·.1)
      ∧ d.maxKey = d.entries.getLast?.map (·.1)
      ∧ (∀ key, d.getPredecessorKey key = (held cmp writes key).map
          (fun _ => (below cmp key d.entries).getLast?.map (·.1))) := by
  obtain ⟨d, hd, hanswers⟩ := (dictionaryWithComparator cmp V).exec_answers writes
  have hheld : ∀ key, d.objectForKey key = held cmp writes key := by
    intro key
    rw [hanswers]
    rfl
  refine ⟨d, hd, hheld, d.ascending_entries, ?_, ?_, d.count_eq, d.minKey_eq, d.maxKey_eq, ?_⟩
  · intro e he
    rw [← hheld, objectForKey_eq]
    exact lookup_of_mem d.ascending_entries he Std.ReflCmp.compare_self
  · intro key hkey
    obtain ⟨v, hv⟩ := Option.ne_none_iff_exists'.mp hkey
    rw [← hheld, objectForKey_eq] at hv
    obtain ⟨e, he, heq, -⟩ := mem_of_lookup hv
    exact ⟨e, he, heq⟩
  · intro key
    rw [getPredecessorKey_eq, hheld]

/-- There are at least as many entries as keys that are found and differ. -/
theorem length_le_count (d : FImmutableSortedDictionary cmp V) {keys : List K}
    (hdistinct : keys.Pairwise (fun a b => cmp a b ≠ .eq))
    (hfound : ∀ key ∈ keys, d.objectForKey key ≠ none) : keys.length ≤ d.count := by
  have hentry : ∀ key ∈ keys, ∃ e ∈ d.entries, cmp key e.1 = .eq := by
    intro key hkey
    obtain ⟨v, hv⟩ := Option.ne_none_iff_exists'.mp (hfound key hkey)
    rw [objectForKey_eq] at hv
    obtain ⟨e, he, heq, -⟩ := mem_of_lookup hv
    exact ⟨e, he, heq⟩
  by_cases hempty : keys = []
  · rw [hempty]
    exact Nat.zero_le _
  obtain ⟨first, hfirst⟩ := List.exists_mem_of_ne_nil _ hempty
  have hnonempty : Nonempty (K × V) := ⟨(hentry first hfirst).choose⟩
  choose! entry hmem heq using hentry
  have hnodup : (keys.map entry).Nodup := by
    refine List.pairwise_map.mpr (hdistinct.imp_of_mem ?_)
    intro a b ha hb hne hab
    have hb' : cmp (entry a).1 b = .eq := by
      rw [hab]
      exact Std.OrientedCmp.eq_symm (heq b hb)
    exact hne (Std.TransCmp.eq_trans (heq a ha) hb')
  have hsub : keys.map entry ⊆ d.entries := by
    intro e he
    obtain ⟨key, hkey, rfl⟩ := List.mem_map.mp he
    exact hmem key hkey
  rw [d.count_eq]
  simpa using (List.subperm_of_subset hnodup hsub).length_le

/-- A key of one character, from `a` on. -/
def letter (i : Nat) : FKey := .name [UInt16.ofNat (97 + i)]

/-- Thirty keys, not in their order, and the removal of one of them. -/
def thirtyLetters : List (DictionaryWrite FKey Nat) :=
  (List.range 30).map (fun i => .setObject (letter (7 * i % 30)) i)
    ++ [.removeObjectForKey (letter 7)]

/-- More entries than an array takes. -/
theorem count_thirtyLetters {d : FImmutableSortedDictionary compareKey Nat}
    (hd : Runs.exec step (dictionaryWithComparator compareKey Nat) thirtyLetters = some d) :
    sortedDictionaryThreshold < d.count := by
  obtain ⟨d', hd', hanswers⟩ :=
    (dictionaryWithComparator compareKey Nat).exec_answers thirtyLetters
  obtain rfl : d' = d := Option.some.inj (hd'.symm.trans hd)
  have hdistinct : (((List.range 30).erase 7).map letter).Pairwise
      (fun a b => compareKey a b ≠ .eq) := by decide
  have hfound : ∀ key ∈ ((List.range 30).erase 7).map letter,
      held compareKey thirtyLetters key ≠ none := by decide
  have hlen : 29 ≤ d'.count := d'.length_le_count hdistinct (fun key hkey => by
    rw [hanswers]
    exact hfound key hkey)
  exact lt_of_lt_of_le (by decide) hlen

/-- The dictionary has changed to a tree, and gives the answers of the map. -/
theorem answers_of_writes_thirtyLetters :
    ∃ d, Runs.exec step (dictionaryWithComparator compareKey Nat) thirtyLetters = some d
      ∧ sortedDictionaryThreshold < d.count
      ∧ d.objectForKey (letter 21) = some 3 ∧ d.objectForKey (letter 7) = none := by
  have hrun := @answers_of_writes FKey Nat compareKey _ thirtyLetters
  obtain ⟨d, hd, hheld, -⟩ := hrun
  refine ⟨d, hd, count_thirtyLetters hd, ?_, ?_⟩
  · rw [hheld]
    decide
  · rw [hheld]
    decide

/-! ## Section 2: The bounds of the implementations -/

/-- An array is small, a tree passes `checkMaxDepth`. -/
def WithinBounds : FImmutableSortedDictionary cmp V → Prop
  | .array a => a.entries.length ≤ sortedDictionaryThreshold
  | .tree t => t.root.checkMaxDepth = some true

end FImmutableSortedDictionary

/-- The invariant of a tree dictionary in the terms of the source's own check. -/
theorem FTreeSortedDictionary.checkMaxDepth_eq {cmp : K → K → Ordering}
    (d : FTreeSortedDictionary cmp V) : d.root.checkMaxDepth = some true := by
  obtain ⟨h, hbal⟩ := d.balanced
  rw [FLLRBNode.checkMaxDepth, FLLRBNode.check_eq_some_iff.mpr ⟨_, hbal⟩]
  simp [hbal.two_pow_le]

namespace FImmutableSortedDictionary

variable {cmp : K → K → Ordering} [Std.TransCmp cmp]

/-- Only a key that was not found makes the array longer. -/
theorem length_insertAt (cmp : K → K → Ordering) (key : K) (value : V) (es : List (K × V)) :
    (insertAt cmp key value es).length
      ≤ if findKey cmp key es = none then es.length + 1 else es.length := by
  unfold insertAt
  cases h : findKey cmp key es with
  | none =>
    rw [if_pos rfl]
    exact List.length_insertIdx_le_succ
  | some pos => simp

/-- An insertion into an array: small enough, or the tree with the same entries. -/
theorem setObject_withinBounds {d d' : FImmutableSortedDictionary cmp V} {key : K} {value : V}
    (hd : d.WithinBounds) (h : d.setObject key value = some d') : d'.WithinBounds := by
  cases d with
  | tree t =>
    obtain rfl := Option.some.inj h
    exact FTreeSortedDictionary.checkMaxDepth_eq _
  | array a =>
    rw [setObject, FArraySortedDictionary.insertKey] at h
    split at h
    · obtain ⟨t, -, rfl⟩ := Option.map_eq_some_iff.mp h
      exact t.checkMaxDepth_eq
    · next hroom =>
      obtain rfl := Option.some.inj h
      have hlen := length_insertAt cmp key value a.entries
      change (insertAt cmp key value a.entries).length ≤ sortedDictionaryThreshold
      change a.entries.length ≤ sortedDictionaryThreshold at hd
      by_cases hfind : findKey cmp key a.entries = none
      · -- the key is new, so the array had room for it
        have hlt : ¬ sortedDictionaryThreshold ≤ a.entries.length :=
          fun hfull => hroom ⟨hfind, hfull⟩
        rw [if_pos hfind] at hlen
        omega
      · rw [if_neg hfind] at hlen
        omega

/-- A removal never leaves the implementation it is made in. -/
theorem removeObjectForKey_withinBounds {d : FImmutableSortedDictionary cmp V} (key : K)
    (hd : d.WithinBounds) : (d.removeObjectForKey key).WithinBounds := by
  cases d with
  | tree t => exact FTreeSortedDictionary.checkMaxDepth_eq _
  | array a =>
    rw [removeObjectForKey, WithinBounds, FArraySortedDictionary.removeKey]
    split
    · exact hd
    · exact le_trans (List.length_eraseIdx_le ..) hd

theorem step_withinBounds (d : FImmutableSortedDictionary cmp V) (w : DictionaryWrite K V)
    (d' : FImmutableSortedDictionary cmp V) (hd : d.WithinBounds) (h : d.step w = some d') :
    d'.WithinBounds := by
  cases w with
  | setObject k v => exact setObject_withinBounds hd h
  | removeObjectForKey k =>
    obtain rfl := Option.some.inj h
    exact removeObjectForKey_withinBounds k hd

/-- Every dictionary that writes build from the empty one keeps within the bounds of its
    implementation: 25 entries, or a red-black tree whose depth passes the source's check. -/
theorem withinBounds_of_writes (writes : List (DictionaryWrite K V))
    (d : FImmutableSortedDictionary cmp V)
    (h : Runs.exec step (dictionaryWithComparator cmp V) writes = some d) : d.WithinBounds := by
  have hempty : (dictionaryWithComparator cmp V).WithinBounds := Nat.zero_le _
  exact Runs.exec_preserves WithinBounds step_withinBounds hempty h

/-- The dictionary of the thirty keys is a tree that passes the check. -/
theorem withinBounds_of_writes_thirtyLetters :
    ∃ t : FTreeSortedDictionary compareKey Nat,
      Runs.exec step (dictionaryWithComparator compareKey Nat) thirtyLetters = some (.tree t)
        ∧ t.root.checkMaxDepth = some true := by
  obtain ⟨d, hd, -⟩ := (dictionaryWithComparator compareKey Nat).exec_answers thirtyLetters
  have hbounds := withinBounds_of_writes thirtyLetters d hd
  cases d with
  | tree t => exact ⟨t, hd, hbounds⟩
  | array a => exact absurd (count_thirtyLetters hd) (Nat.not_lt.mpr hbounds)

/-- A dictionary built at once keeps within the same bounds. -/
theorem fromDictionary_withinBounds {dictionary : List (K × V)}
    {d : FImmutableSortedDictionary cmp V} (h : fromDictionary cmp dictionary = some d) :
    d.WithinBounds := by
  unfold fromDictionary at h
  split at h
  · next hsmall =>
    obtain ⟨a, ha, rfl⟩ := Option.map_eq_some_iff.mp h
    exact le_of_eq_of_le (FArraySortedDictionary.entries_fromDictionary ha).length_eq hsmall
  · obtain ⟨t, -, rfl⟩ := Option.map_eq_some_iff.mp h
    exact t.checkMaxDepth_eq

/-! ## Section 3: The children of a node -/

/-- A dictionary of children from the keys of a JSON object: it raises its exception exactly
    when two of the keys spell zero with the same number of characters, and otherwise has
    the given entries in the order of their keys, within the bounds. -/
theorem fromDictionary_compareKey (dictionary : List (FKey × V))
    (hkeys : (dictionary.map (·.1)).Nodup) :
    (fromDictionary compareKey dictionary = none
      ↔ ∃ a ∈ dictionary, ∃ b ∈ dictionary, ZeroSpellings a.1 b.1)
    ∧ ∀ d, fromDictionary compareKey dictionary = some d →
        d.entries.Perm dictionary ∧ Ascending compareKey d.entries ∧ d.WithinBounds
        ∧ ∀ e ∈ dictionary, d.objectForKey e.1 = some e.2 := by
  constructor
  · rw [fromDictionary_eq_none]
    constructor
    · intro h
      by_contra hnone
      apply h
      refine List.Pairwise.imp_of_mem ?_ (List.pairwise_map.mp hkeys)
      intro a b ha hb hne heq
      rcases (compareKey_eq_iff a.1 b.1).mp heq with hab | hzero
      · exact hne hab
      · exact hnone ⟨a, ha, b, hb, hzero⟩
    · rintro ⟨a, ha, b, hb, hzero⟩ h
      have hne : a ≠ b := by
        rintro rfl
        exact hzero.ne rfl
      have hsymm : Std.Symm (fun x y : FKey × V => compareKey x.1 y.1 ≠ .eq) :=
        ⟨fun x y h h' => h (Std.OrientedCmp.eq_symm h')⟩
      exact h.forall ha hb hne ((compareKey_eq_iff a.1 b.1).mpr (.inr hzero))
  · intro d hd
    have hperm := entries_fromDictionary hd
    refine ⟨hperm, d.ascending_entries, fromDictionary_withinBounds hd, ?_⟩
    intro e he
    rw [objectForKey_eq]
    exact lookup_of_mem d.ascending_entries (hperm.mem_iff.mpr he) Std.ReflCmp.compare_self

/-- The keys `00` and `-0` of one object raise the exception. -/
theorem fromDictionary_compareKey_zeros :
    fromDictionary compareKey [(.name [48, 48], 1), (.name [45, 48], 2)] = none := by
  refine (fromDictionary_compareKey _ (by decide)).1.mpr ?_
  exact ⟨_, .head _, _, .tail _ (.head _), 0, by decide, .inl ⟨rfl, rfl⟩⟩

end FImmutableSortedDictionary

end MeetupApp.Firebase
