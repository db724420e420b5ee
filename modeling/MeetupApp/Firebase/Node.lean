import Mathlib.Data.List.Perm.Subperm
import MeetupApp.Firebase.Path
import MeetupApp.Firebase.SortedDictionary

/-! # Snapshot/FLeafNode.m, FChildrenNode.m, FEmptyNode.m

    The nodes of the database tree.  A node is a leaf with a value or the list of
    its children in the order of their keys; the empty node has no children.

    The order `cmp` of the keys is a parameter.  Where it tells all keys apart, a
    node without empty children is determined by the leaves found at its paths,
    and a write replaces what is at its path and below, keeps what is apart from
    it, and turns a leaf above into children. -/

namespace MeetupApp.Firebase

open SortedEntries

/-! ## Section 1: Nodes -/

/-- `FLeafNode` and `FChildrenNode`.  The type `K` of the names is one without `.priority`, so
    no node has a priority. -/
inductive FNode (K V : Type) where
  | leaf (value : V)
  | children (entries : List (K × FNode K V))

namespace FNode

variable {K V : Type}

/-- `emptyNode` -/
def empty : FNode K V := .children []

/-- `isEmpty` -/
def isEmpty : FNode K V → Bool
  | leaf _ => false
  | children entries => entries.isEmpty

/-- The value of a leaf. -/
def value? : FNode K V → Option V
  | leaf value => some value
  | children _ => none

section operations
variable (cmp : K → K → Ordering)

/-- `getImmediateChild:` -/
def getImmediateChild (node : FNode K V) (childName : K) : FNode K V :=
  match node with
  | leaf _ => empty
  | children entries => (lookup cmp childName entries).getD empty

/-- `getChild:` -/
def getChild : FNode K V → FPath K → FNode K V
  | node, [] => node
  | leaf _, _ :: _ => empty
  | children entries, front :: path =>
    getChild (getImmediateChild cmp (children entries) front) path

/-- `updateImmediateChild:withNewChild:`; an empty child is removed. -/
def updateImmediateChild (node : FNode K V) (childName : K) (newChildNode : FNode K V) :
    FNode K V :=
  match node with
  | leaf value =>
    if newChildNode.isEmpty then leaf value
    else children (put cmp true childName newChildNode [])
  | children entries =>
    if newChildNode.isEmpty then children (erase cmp childName entries)
    else children (put cmp true childName newChildNode entries)

/-- `updateChild:withNewChild:` -/
def updateChild : FNode K V → FPath K → FNode K V → FNode K V
  | _, [], newChildNode => newChildNode
  | leaf value, front :: path, newChildNode =>
    if newChildNode.isEmpty then leaf value
    else updateImmediateChild cmp (leaf value) front (updateChild empty path newChildNode)
  | children entries, front :: path, newChildNode =>
    updateImmediateChild cmp (children entries) front
      (updateChild (getImmediateChild cmp (children entries) front) path newChildNode)

/-- The value of the leaf at a path. -/
def leafAt (node : FNode K V) (path : FPath K) : Option V := (node.getChild cmp path).value?

/-- `isLeafNode` -/
def isLeafNode : FNode K V → Bool
  | leaf _ => true
  | children _ => false

/-- `hasChild:` -/
def hasChild (node : FNode K V) (childName : K) : Bool :=
  !(node.getImmediateChild cmp childName).isEmpty

/-- `enumerateChildrenUsingBlock:`, as the list of what its block is called with. -/
def enumerateChildren : FNode K V → List (K × FNode K V)
  | leaf _ => []
  | children entries => entries

/-- `predecessorChildKey:`; the exception for a child that is not there is `none`. -/
def predecessorChildKey (childKey : K) : FNode K V → Option (Option K)
  | leaf _ => some none
  | children entries =>
    (lookup cmp childKey entries).map (fun _ => (below cmp childKey entries).getLast?.map (·.1))

section equality
variable [DecidableEq V]

mutual
/-- `isEqual:`; the source asks the child of the other node, here the child is asked. -/
def isEqual : FNode K V → FNode K V → Bool
  | leaf value, other => other.value? = some value
  | children entries, other =>
    if other.isLeafNode then false
    else if entries.isEmpty && other.isEmpty then true
    else if entries.length = other.enumerateChildren.length then isEqualChildren entries other
    else false

/-- The enumeration of the children in it. -/
def isEqualChildren : List (K × FNode K V) → FNode K V → Bool
  | [], _ => true
  | (key, node) :: rest, other =>
    node.isEqual (other.getImmediateChild cmp key) && isEqualChildren rest other
end

end equality

/-- No node below has an empty child, and the children are in order. -/
inductive Pruned : FNode K V → Prop where
  | leaf (value : V) : Pruned (.leaf value)
  | children {entries : List (K × FNode K V)} (ascending : Ascending cmp entries)
      (nonempty : ∀ e ∈ entries, e.2.isEmpty = false) (pruned : ∀ e ∈ entries, Pruned e.2) :
      Pruned (.children entries)

end operations

theorem eq_empty_of_isEmpty {node : FNode K V} (h : node.isEmpty = true) : node = empty := by
  cases node with
  | leaf value => cases h
  | children entries => rw [empty, List.isEmpty_iff.mp h]

section decidable
variable [DecidableEq K] [DecidableEq V]

mutual
/-- Equality of nodes can be decided. -/
def decEq : (node other : FNode K V) → Decidable (node = other)
  | leaf value, leaf value' => decidable_of_iff (value = value') (by simp)
  | leaf _, children _ => .isFalse (by simp)
  | children _, leaf _ => .isFalse (by simp)
  | children entries, children entries' =>
    have := decEqEntries entries entries'
    decidable_of_iff (entries = entries') (by simp)

def decEqEntries : (entries entries' : List (K × FNode K V)) → Decidable (entries = entries')
  | [], [] => .isTrue rfl
  | [], _ :: _ => .isFalse (by simp)
  | _ :: _, [] => .isFalse (by simp)
  | (key, node) :: entries, (key', node') :: entries' =>
    have := decEq node node'
    have := decEqEntries entries entries'
    decidable_of_iff ((key = key' ∧ node = node') ∧ entries = entries') (by simp)
end

instance : DecidableEq (FNode K V) := decEq

end decidable

/-! ## Section 2: One step down -/

section steps
variable {cmp : K → K → Ordering} {k : K} {path : FPath K} {node newChild : FNode K V}

theorem Pruned.empty : Pruned cmp (FNode.empty : FNode K V) :=
  .children ascending_nil (by simp) (by simp)

@[simp] theorem getChild_nil : node.getChild cmp [] = node := by
  cases node <;> rfl

@[simp] theorem getImmediateChild_empty :
    (empty : FNode K V).getImmediateChild cmp k = empty := rfl

theorem getChild_empty : (empty : FNode K V).getChild cmp path = empty := by
  induction path with
  | nil => exact getChild_nil
  | cons k path ih => exact ih

/-- Both kinds of nodes go on in their child. -/
theorem getChild_cons :
    node.getChild cmp (k :: path) = (node.getImmediateChild cmp k).getChild cmp path := by
  cases node with
  | leaf value => exact getChild_empty.symm
  | children entries => rfl

theorem getChild_append {rest : FPath K} :
    node.getChild cmp (path ++ rest) = (node.getChild cmp path).getChild cmp rest := by
  induction path generalizing node with
  | nil => rw [List.nil_append, getChild_nil]
  | cons k path ih => rw [List.cons_append, getChild_cons, getChild_cons, ih]

@[simp] theorem updateChild_nil : node.updateChild cmp [] newChild = newChild := by
  cases node <;> rfl

theorem updateImmediateChild_empty :
    (empty : FNode K V).updateImmediateChild cmp k empty = empty := rfl

/-- Nothing is created to hold an empty node. -/
theorem updateChild_empty : (empty : FNode K V).updateChild cmp path empty = empty := by
  induction path with
  | nil => exact updateChild_nil
  | cons k path ih =>
    change updateImmediateChild cmp empty k (updateChild cmp empty path empty) = empty
    rw [ih, updateImmediateChild_empty]

/-- Both kinds of nodes replace their child by the updated one. -/
theorem updateChild_cons :
    node.updateChild cmp (k :: path) newChild
      = node.updateImmediateChild cmp k
          ((node.getImmediateChild cmp k).updateChild cmp path newChild) := by
  cases node with
  | leaf value =>
    rw [updateChild]
    split
    · next hempty =>
      obtain rfl := eq_empty_of_isEmpty hempty
      rw [getImmediateChild, updateChild_empty]
      rfl
    · rfl
  | children entries => rfl

end steps

/-! ## Section 3: What is found after a write -/

section found
variable {cmp : K → K → Ordering} [Std.TransCmp cmp] {node newChild : FNode K V}

theorem Pruned.getImmediateChild (h : Pruned cmp node) (k : K) :
    Pruned cmp (node.getImmediateChild cmp k) := by
  cases h with
  | leaf value => exact .empty
  | @children entries ascending nonempty pruned =>
    rw [FNode.getImmediateChild]
    cases hlookup : lookup cmp k entries with
    | none => exact .empty
    | some child => exact (forall_values_iff ascending).mp pruned k child hlookup

theorem Pruned.getChild (h : Pruned cmp node) (path : FPath K) :
    Pruned cmp (node.getChild cmp path) := by
  induction path generalizing node with
  | nil => rwa [getChild_nil]
  | cons k path ih =>
    rw [getChild_cons]
    exact ih (h.getImmediateChild k)

theorem getImmediateChild_updateImmediateChild (h : Pruned cmp node) (k k' : K) :
    (node.updateImmediateChild cmp k newChild).getImmediateChild cmp k'
      = if cmp k' k = .eq then newChild else node.getImmediateChild cmp k' := by
  cases h with
  | leaf value =>
    unfold updateImmediateChild
    dsimp only
    split
    · next hempty =>
      rw [eq_empty_of_isEmpty hempty]
      simp [getImmediateChild]
    · change (lookup cmp k' (put cmp true k newChild [])).getD empty = _
      rw [lookup_put ascending_nil]
      split <;> rfl
  | @children entries ascending _ _ =>
    unfold updateImmediateChild
    dsimp only
    split
    · next hempty =>
      change (lookup cmp k' (erase cmp k entries)).getD empty = _
      rw [eq_empty_of_isEmpty hempty, lookup_erase ascending]
      split <;> rfl
    · change (lookup cmp k' (put cmp true k newChild entries)).getD empty = _
      rw [lookup_put ascending]
      split <;> rfl

theorem Pruned.updateImmediateChild (h : Pruned cmp node) (hnew : Pruned cmp newChild) (k : K) :
    Pruned cmp (node.updateImmediateChild cmp k newChild) := by
  cases h with
  | leaf value =>
    unfold FNode.updateImmediateChild
    dsimp only
    split
    · exact .leaf value
    · next hempty =>
      exact .children ascending_nil.put (by simpa [put] using hempty) (by simpa [put] using hnew)
  | @children entries ascending nonempty pruned =>
    unfold FNode.updateImmediateChild
    dsimp only
    split
    · exact .children ascending.erase (fun e he => nonempty e (mem_of_mem_erase he))
        (fun e he => pruned e (mem_of_mem_erase he))
    · next hempty =>
      -- What is found after the insertion is the new child or was found before.
      have hfound : ∀ {p : FNode K V → Prop}, p newChild → (∀ e ∈ entries, p e.2) →
          ∀ e ∈ put cmp true k newChild entries, p e.2 := by
        intro p hnew hall
        rw [forall_values_iff ascending.put]
        rw [forall_values_iff ascending] at hall
        intro k' v hv
        rw [lookup_put ascending] at hv
        split at hv
        · obtain rfl := Option.some.inj hv
          exact hnew
        · exact hall k' v hv
      have hnonempty : newChild.isEmpty = false := by simpa using hempty
      exact .children ascending.put (hfound (p := (·.isEmpty = false)) hnonempty nonempty)
        (hfound hnew pruned)

/-- A write keeps the node pruned. -/
theorem Pruned.updateChild (h : Pruned cmp node) (hnew : Pruned cmp newChild) (path : FPath K) :
    Pruned cmp (node.updateChild cmp path newChild) := by
  induction path generalizing node with
  | nil => rwa [updateChild_nil]
  | cons k path ih =>
    rw [updateChild_cons]
    exact h.updateImmediateChild (ih (h.getImmediateChild k)) k

/-- Above its path, a write is a write to the node that is found there. -/
theorem getChild_updateChild_append (h : Pruned cmp node) (path rest : FPath K) :
    (node.updateChild cmp (path ++ rest) newChild).getChild cmp path
      = (node.getChild cmp path).updateChild cmp rest newChild := by
  induction path generalizing node with
  | nil => simp
  | cons k path ih =>
    rw [List.cons_append, updateChild_cons, getChild_cons,
      getImmediateChild_updateImmediateChild h, if_pos Std.ReflCmp.compare_self,
      ih (h.getImmediateChild k), getChild_cons]

/-- At its path a write is read back. -/
theorem getChild_updateChild_self (h : Pruned cmp node) (path : FPath K) :
    (node.updateChild cmp path newChild).getChild cmp path = newChild := by
  calc (node.updateChild cmp path newChild).getChild cmp path
      = (node.updateChild cmp (path ++ []) newChild).getChild cmp path := by rw [List.append_nil]
    _ = (node.getChild cmp path).updateChild cmp [] newChild := getChild_updateChild_append h _ _
    _ = newChild := updateChild_nil

variable [Std.LawfulEqCmp cmp]

/-- Apart from its path a write changes nothing. -/
theorem getChild_updateChild_of_apart (h : Pruned cmp node) {path other : FPath K}
    (hpath : ¬ path <+: other) (hother : ¬ other <+: path) :
    (node.updateChild cmp path newChild).getChild cmp other = node.getChild cmp other := by
  induction path generalizing node other with
  | nil => exact absurd List.nil_prefix hpath
  | cons k path ih =>
    cases other with
    | nil => exact absurd List.nil_prefix hother
    | cons k' other =>
      rw [updateChild_cons, getChild_cons, getChild_cons,
        getImmediateChild_updateImmediateChild h]
      split
      · next heq =>
        obtain rfl : k' = k := Std.LawfulEqCmp.eq_of_compare heq
        rw [List.cons_prefix_cons] at hpath hother
        exact ih (h.getImmediateChild k') (fun hp => hpath ⟨rfl, hp⟩) (fun hp => hother ⟨rfl, hp⟩)
      · rfl

end found

/-! ## Section 4: Leaves -/

section leaves
variable {cmp : K → K → Ordering} {node newChild : FNode K V}

@[simp] theorem leafAt_leaf_nil (value : V) :
    leafAt cmp (.leaf value : FNode K V) [] = some value := rfl

theorem leafAt_append (path rest : FPath K) :
    node.leafAt cmp (path ++ rest) = (node.getChild cmp path).leafAt cmp rest := by
  rw [leafAt, getChild_append, leafAt]

theorem leafAt_empty (path : FPath K) : (empty : FNode K V).leafAt cmp path = none := by
  rw [leafAt, getChild_empty]
  rfl

/-- What a write of something makes of a node is not empty. -/
theorem isEmpty_updateChild (hnew : newChild.isEmpty = false) (path : FPath K) :
    (node.updateChild cmp path newChild).isEmpty = false := by
  induction path generalizing node with
  | nil => rwa [updateChild_nil]
  | cons k path ih =>
    rw [updateChild_cons]
    unfold updateImmediateChild
    rw [ih]
    cases node with
    | leaf value => rfl
    | children entries =>
      cases entries with
      | nil => rfl
      | cons e entries =>
        simp only [isEmpty, put, Bool.false_eq_true, if_false]
        cases cmp k e.1 <;> rfl

/-- A node with a path of its own below it stays a leaf only if nothing is written. -/
theorem value?_updateChild_cons (k : K) (path : FPath K) :
    (node.updateChild cmp (k :: path) newChild).value?
      = if newChild.isEmpty then node.value? else none := by
  rw [updateChild_cons]
  cases hnew : newChild.isEmpty with
  | true =>
    rw [eq_empty_of_isEmpty hnew]
    cases node with
    | leaf value =>
      rw [FNode.getImmediateChild, updateChild_empty]
      rfl
    | children entries =>
      unfold updateImmediateChild
      dsimp only
      split <;> rfl
  | false =>
    have hchild : ((node.getImmediateChild cmp k).updateChild cmp path newChild).isEmpty = false :=
      isEmpty_updateChild hnew path
    unfold updateImmediateChild
    rw [hchild]
    cases node <;> rfl

variable [Std.TransCmp cmp]

/-- A pruned node that is not empty has a leaf. -/
theorem Pruned.exists_leaf (h : Pruned cmp node) (hnonempty : node.isEmpty = false) :
    ∃ path value, node.leafAt cmp path = some value := by
  induction h with
  | leaf value => exact ⟨[], value, rfl⟩
  | @children entries ascending nonempty pruned ih =>
    cases entries with
    | nil => cases hnonempty
    | cons e entries =>
      obtain ⟨path, value, hvalue⟩ := ih e (by simp) (nonempty e (by simp))
      have hfirst : lookup cmp e.1 (e :: entries) = some e.2 :=
        lookup_cons_eq Std.ReflCmp.compare_self
      refine ⟨e.1 :: path, value, ?_⟩
      rw [leafAt, getChild_cons, FNode.getImmediateChild, hfirst]
      exact hvalue

variable [Std.LawfulEqCmp cmp]

/-- A pruned node is determined by its leaves. -/
theorem Pruned.ext_leafAt (h : Pruned cmp node) {other : FNode K V} (hother : Pruned cmp other)
    (hleaf : ∀ path, node.leafAt cmp path = other.leafAt cmp path) : node = other := by
  induction h generalizing other with
  | leaf value =>
    have hroot := hleaf []
    cases other with
    | leaf value' => simpa using hroot
    | children entries => simp [leafAt, value?] at hroot
  | @children entries ascending nonempty pruned ih =>
    cases hother with
    | leaf value =>
      have hroot := hleaf []
      simp [leafAt, value?] at hroot
    | @children entries' ascending' nonempty' pruned' =>
      have hchild : ∀ k path,
          ((lookup cmp k entries).getD FNode.empty).leafAt cmp path
            = ((lookup cmp k entries').getD FNode.empty).leafAt cmp path :=
        fun k path => hleaf (k :: path)
      rw [ascending.ext_lookup ascending' ?_]
      intro k
      have hk := hchild k
      -- A child that only one of the two has would have a leaf that the other lacks.
      cases hfirst : lookup cmp k entries with
      | none =>
        cases hsecond : lookup cmp k entries' with
        | none => rfl
        | some child' =>
          rw [hfirst, hsecond] at hk
          obtain ⟨path, value, hvalue⟩ :=
            ((forall_values_iff ascending').mp pruned' k child' hsecond).exists_leaf
              ((forall_values_iff ascending' (p := (·.isEmpty = false))).mp nonempty' k child'
                hsecond)
          have hnone := (hk path).symm.trans (leafAt_empty path)
          rw [Option.getD_some, hvalue] at hnone
          cases hnone
      | some child =>
        cases hsecond : lookup cmp k entries' with
        | none =>
          rw [hfirst, hsecond] at hk
          obtain ⟨path, value, hvalue⟩ :=
            ((forall_values_iff ascending).mp pruned k child hfirst).exists_leaf
              ((forall_values_iff ascending (p := (·.isEmpty = false))).mp nonempty k child hfirst)
          have hnone := (hk path).trans (leafAt_empty path)
          rw [Option.getD_some, hvalue] at hnone
          cases hnone
        | some child' =>
          rw [hfirst, hsecond] at hk
          obtain ⟨e, he, -, rfl⟩ := mem_of_lookup hfirst
          rw [ih e he ((forall_values_iff ascending').mp pruned' k child' hsecond) hk]

/-- Writing what is there changes nothing. -/
theorem updateImmediateChild_getImmediateChild (h : Pruned cmp node) (k : K) :
    node.updateImmediateChild cmp k (node.getImmediateChild cmp k) = node := by
  refine (h.updateImmediateChild (h.getImmediateChild k) k).ext_leafAt h ?_
  intro other
  cases other with
  | nil =>
    rw [leafAt, leafAt, getChild_nil, getChild_nil]
    cases node with
    | leaf value => rfl
    | children entries =>
      unfold updateImmediateChild
      dsimp only
      split <;> rfl
  | cons k' other =>
    rw [leafAt, leafAt, getChild_cons, getChild_cons, getImmediateChild_updateImmediateChild h]
    split
    · next heq =>
      obtain rfl : k' = k := Std.LawfulEqCmp.eq_of_compare heq
      rfl
    · rfl

theorem updateChild_getChild (h : Pruned cmp node) (path : FPath K) :
    node.updateChild cmp path (node.getChild cmp path) = node := by
  induction path generalizing node with
  | nil => simp
  | cons k path ih =>
    rw [updateChild_cons, getChild_cons, ih (h.getImmediateChild k),
      updateImmediateChild_getImmediateChild h]

variable [DecidableEq K]

/-- All that a write does: below its path are the leaves of what was written, above it no
    leaf is left unless the write removes, and apart from it everything is as before. -/
theorem leafAt_updateChild (h : Pruned cmp node) (path other : FPath K) :
    (node.updateChild cmp path newChild).leafAt cmp other
      = if path <+: other then newChild.leafAt cmp (other.drop path.length)
        else if other <+: path ∧ newChild.isEmpty = false then none
        else node.leafAt cmp other := by
  split
  · next hbelow =>
    obtain ⟨rest, rfl⟩ := hbelow
    rw [leafAt_append, getChild_updateChild_self h, List.drop_left]
  · next hbelow =>
    by_cases habove : other <+: path
    · obtain ⟨rest, rfl⟩ := habove
      cases rest with
      | nil => exact absurd (by simp) hbelow
      | cons k rest =>
        rw [leafAt, getChild_updateChild_append h, value?_updateChild_cons, leafAt]
        cases newChild.isEmpty <;> simp
    · rw [if_neg (fun hcon => habove hcon.1), leafAt,
        getChild_updateChild_of_apart h hbelow habove, leafAt]

end leaves

/-! ## Section 5: Equality -/

section equality
variable {cmp : K → K → Ordering} [DecidableEq V] {node other : FNode K V}

theorem isEqualChildren_iff {entries : List (K × FNode K V)} :
    isEqualChildren cmp entries other
      ↔ ∀ e ∈ entries, e.2.isEqual cmp (other.getImmediateChild cmp e.1) := by
  induction entries with
  | nil => simp [isEqualChildren]
  | cons e entries ih =>
    obtain ⟨k, node⟩ := e
    simp [isEqualChildren, ih]

variable [Std.TransCmp cmp] [Std.LawfulEqCmp cmp]

/-- On pruned nodes the comparison is equality. -/
theorem Pruned.isEqual_iff (h : Pruned cmp node) (hother : Pruned cmp other) :
    node.isEqual cmp other ↔ node = other := by
  induction h generalizing other with
  | leaf value =>
    cases other with
    | leaf value' => simp [isEqual, value?, eq_comm]
    | children entries => simp [isEqual, value?]
  | @children entries ascending nonempty pruned ih =>
    cases hother with
    | leaf value => simp [isEqual, isLeafNode]
    | @children entries' ascending' nonempty' pruned' =>
      have hchild : ∀ k, Pruned cmp ((FNode.children entries').getImmediateChild cmp k) :=
        (Pruned.children ascending' nonempty' pruned').getImmediateChild
      have hall : isEqualChildren cmp entries (FNode.children entries')
          ↔ ∀ e ∈ entries, e.2 = (FNode.children entries').getImmediateChild cmp e.1 := by
        rw [isEqualChildren_iff]
        exact forall₂_congr (fun e he => ih e he (hchild e.1))
      rw [isEqual]
      simp only [isLeafNode, Bool.false_eq_true, if_false]
      by_cases hempty : (entries.isEmpty && (FNode.children entries').isEmpty) = true
      · simp only [isEmpty, Bool.and_eq_true, List.isEmpty_iff] at hempty
        rw [hempty.1, hempty.2]
        simp [isEmpty]
      rw [if_neg hempty]
      by_cases hlength : entries.length = (FNode.children entries').enumerateChildren.length
      · rw [if_pos hlength, hall]
        constructor
        · intro hequal
          -- As many children, and each of them is found in the other node.
          have hsub : entries ⊆ entries' := by
            intro e he
            have heq := hequal e he
            rw [mem_iff_lookup ascending']
            cases hlookup : lookup cmp e.1 entries' with
            | some child =>
              rw [FNode.getImmediateChild, hlookup, Option.getD_some] at heq
              rw [heq]
            | none =>
              rw [FNode.getImmediateChild, hlookup, Option.getD_none] at heq
              have hnonempty := nonempty e he
              rw [heq] at hnonempty
              cases hnonempty
          have hperm := (List.subperm_of_subset ascending.nodup hsub).perm_of_length_le hlength.ge
          rw [ascending.eq_of_perm ascending' hperm]
        · intro heq e he
          obtain rfl := FNode.children.inj heq
          rw [FNode.getImmediateChild, (mem_iff_lookup ascending).mp he, Option.getD_some]
      · rw [if_neg hlength]
        constructor
        · intro hfalse
          cases hfalse
        · intro heq
          exact absurd (congrArg List.length (FNode.children.inj heq)) hlength

end equality

/-! ## Section 6: Children in a dictionary -/

section dictionary
variable {cmp : K → K → Ordering} [Std.TransCmp cmp]
  (d : FImmutableSortedDictionary cmp (FNode K V))

/-- The list of the children answers as the dictionary that holds them. -/
theorem getImmediateChild_dictionary (childName : K) :
    (children d.entries).getImmediateChild cmp childName
      = (d.objectForKey childName).getD empty := by
  rw [getImmediateChild, d.objectForKey_eq]

theorem predecessorChildKey_dictionary (childKey : K) :
    (children d.entries).predecessorChildKey cmp childKey = d.getPredecessorKey childKey := by
  rw [predecessorChildKey, d.getPredecessorKey_eq, d.objectForKey_eq]

/-- The list changes as the dictionary does, which never raises its exception here. -/
theorem updateImmediateChild_dictionary [Std.LawfulEqCmp cmp] (childName : K)
    (newChildNode : FNode K V) :
    ∃ d', (if newChildNode.isEmpty then some (d.removeObjectForKey childName)
        else d.setObject childName newChildNode) = some d'
      ∧ (children d.entries).updateImmediateChild cmp childName newChildNode
        = children d'.entries := by
  unfold updateImmediateChild
  dsimp only
  split
  · exact ⟨_, rfl, by rw [d.entries_removeObjectForKey]⟩
  · obtain ⟨d', hd', keepKey, hentries⟩ := d.entries_setObject childName newChildNode
    exact ⟨d', hd', by rw [hentries, put_keepKey true keepKey]⟩

end dictionary

end FNode

end MeetupApp.Firebase
