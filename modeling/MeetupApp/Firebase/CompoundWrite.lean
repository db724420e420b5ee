import MeetupApp.Firebase.Node

/-! # Core/Utilities/FImmutableTree.m, Snapshot/FCompoundWrite.m

    A compound write is a tree with nodes to be written at some of its paths.  A
    further write goes into the node that is already written at or above its path,
    or replaces the writes below it.  The keys are those of the nodes, so no write
    is one of a priority.

    Applied to a node, the tree has the effect of its writes one after another, if
    the node has no leaf above a written path.  With such a leaf it may not: an
    intermediate write destroys the leaf, and what is merged later may leave
    nothing of that write. -/

namespace MeetupApp.Firebase

open SortedEntries

/-! ## Section 1: Trees of values -/

/-- `FImmutableTree` -/
inductive FImmutableTree (K T : Type) where
  | mk (value : Option T) (children : List (K × FImmutableTree K T))

namespace FImmutableTree

variable {K T : Type}

/-- `empty` -/
def empty : FImmutableTree K T := .mk none []

/-- `isEmpty` -/
def isEmpty : FImmutableTree K T → Bool
  | mk value children => value.isNone && children.isEmpty

/-- `initWithValue:` -/
def ofValue (value : T) : FImmutableTree K T := .mk (some value) []

section operations
variable (scmp : K → K → Ordering)

/-- `[self.children get:front]`, or the empty tree. -/
def child (children : List (K × FImmutableTree K T)) (front : K) : FImmutableTree K T :=
  (lookup scmp front children).getD empty

/-- `findRootMostValueAndPath:` -/
def findRootMostValueAndPath : FImmutableTree K T → FPath K → Option (FPath K × T)
  | mk (some value) _, _ => some ([], value)
  | mk none _, [] => none
  | mk none children, front :: path =>
    match lookup scmp front children with
    | none => none
    | some child => (child.findRootMostValueAndPath path).map (fun r => (front :: r.1, r.2))

/-- `subtreeAtPath:` -/
def subtreeAtPath : FImmutableTree K T → FPath K → FImmutableTree K T
  | tree, [] => tree
  | mk _ children, front :: path =>
    match lookup scmp front children with
    | none => empty
    | some child => child.subtreeAtPath path

/-- `setValue:atPath:` -/
def setValue (newValue : T) : FImmutableTree K T → FPath K → FImmutableTree K T
  | mk _ children, [] => .mk (some newValue) children
  | mk value children, front :: path =>
    .mk value (put scmp true front (setValue newValue (child scmp children front) path) children)

/-- `setTree:atPath:` -/
def setTree (newTree : FImmutableTree K T) : FImmutableTree K T → FPath K → FImmutableTree K T
  | _, [] => newTree
  | mk value children, front :: path =>
    let newChild := setTree newTree (child scmp children front) path
    .mk value
      (if newChild.isEmpty then erase scmp front children
       else put scmp true front newChild children)

end operations

mutual
/-- `forEach:`, as the list of the paths and values its block is called with. -/
def forEach : FImmutableTree K T → List (FPath K × T)
  | mk none children => forEachChild children
  | mk (some value) children => forEachChild children ++ [([], value)]

/-- `forEachPathSoFar:withBlock:` on the children. -/
def forEachChild : List (K × FImmutableTree K T) → List (FPath K × T)
  | [] => []
  | (childKey, childTree) :: rest =>
    childTree.forEach.map (fun w => (childKey :: w.1, w.2)) ++ forEachChild rest
end

end FImmutableTree

/-! ## Section 2: Compound writes -/

/-- `FCompoundWrite`, as its `writeTree`. -/
abbrev FCompoundWrite (K V : Type) := FImmutableTree K (FNode K V)

namespace FCompoundWrite

open FImmutableTree

variable {K V : Type}

/-- `emptyWrite` -/
def emptyWrite : FCompoundWrite K V := FImmutableTree.empty

section operations
variable (cmp scmp : K → K → Ordering) [DecidableEq K]

/-- `addWrite:atPath:`; the exception of `relativePathFrom:to:` is `none`. -/
def addWrite (write : FCompoundWrite K V) (node : FNode K V) (path : FPath K) :
    Option (FCompoundWrite K V) :=
  if path = [] then some (ofValue node)
  else
    match findRootMostValueAndPath scmp write path with
    | some (rootMostPath, rootMostValue) => do
      let relativePath ← FPath.relativePathFrom rootMostPath path
      some (setValue scmp (rootMostValue.updateChild cmp relativePath node) write rootMostPath)
    | none => some (setTree scmp (ofValue node) write path)

/-- `addCompoundWrite:atPath:` -/
def addCompoundWrite (write compoundWrite : FCompoundWrite K V) (path : FPath K) :
    Option (FCompoundWrite K V) :=
  compoundWrite.forEach.foldlM (fun newWrite w => addWrite cmp scmp newWrite w.2 (path.child w.1))
    write

/-- `removeWriteAtPath:` -/
def removeWriteAtPath (write : FCompoundWrite K V) (path : FPath K) : FCompoundWrite K V :=
  if path = [] then emptyWrite else setTree scmp FImmutableTree.empty write path

/-- `completeNodeAtPath:`; `nil` and the exception are `none`. -/
def completeNodeAtPath (write : FCompoundWrite K V) (path : FPath K) : Option (FNode K V) := do
  let rootMost ← findRootMostValueAndPath scmp write path
  let relativePath ← FPath.relativePathFrom rootMost.1 path
  some (rootMost.2.getChild cmp relativePath)

/-- `hasCompleteWriteAtPath:` -/
def hasCompleteWriteAtPath (write : FCompoundWrite K V) (path : FPath K) : Bool :=
  (completeNodeAtPath cmp scmp write path).isSome

/-- `childCompoundWriteAtPath:` -/
def childCompoundWriteAtPath (write : FCompoundWrite K V) (path : FPath K) : FCompoundWrite K V :=
  if path = [] then write
  else
    match completeNodeAtPath cmp scmp write path with
    | some shadowingNode => ofValue shadowingNode
    | none => subtreeAtPath scmp write path

end operations

section apply
variable (cmp : K → K → Ordering)

mutual
/-- `applySubtreeWrite:atPath:toNode:`; a child `.priority` would be applied last, and no key
    is one. -/
def applySubtreeWrite : FCompoundWrite K V → FPath K → FNode K V → FNode K V
  | mk (some value) _, relativePath, node => node.updateChild cmp relativePath value
  | mk none children, relativePath, node => applyChildren children relativePath node

/-- The enumeration of the children in it. -/
def applyChildren : List (K × FCompoundWrite K V) → FPath K → FNode K V → FNode K V
  | [], _, blockNode => blockNode
  | (childKey, childTree) :: rest, relativePath, blockNode =>
    applyChildren rest relativePath
      (applySubtreeWrite childTree (relativePath.child [childKey]) blockNode)
end

/-- `applyToNode:` -/
def applyToNode (write : FCompoundWrite K V) (node : FNode K V) : FNode K V :=
  applySubtreeWrite cmp write [] node

end apply

/-- Every node to be written is pruned and sits at the end of its branch. -/
inductive Valid (cmp scmp : K → K → Ordering) : FCompoundWrite K V → Prop where
  | leaf {value : FNode K V} (pruned : value.Pruned cmp) : Valid cmp scmp (ofValue value)
  | node {children : List (K × FCompoundWrite K V)} (ascending : Ascending scmp children)
      (valid : ∀ e ∈ children, Valid cmp scmp e.2) : Valid cmp scmp (.mk none children)

/-! ## Section 3: One step down -/

section steps
variable {cmp scmp : K → K → Ordering}

theorem Valid.empty : Valid cmp scmp (FImmutableTree.empty : FCompoundWrite K V) :=
  .node ascending_nil (by simp)

theorem Valid.child {children : List (K × FCompoundWrite K V)}
    (h : Valid cmp scmp (.mk none children)) (k : K) :
    Valid cmp scmp (FImmutableTree.child scmp children k) := by
  cases h with
  | node ascending valid =>
    rw [FImmutableTree.child]
    cases hlookup : lookup scmp k children with
    | none => exact .empty
    | some child =>
      obtain ⟨e, he, -, rfl⟩ := mem_of_lookup hlookup
      exact valid e he

theorem find_empty (path : FPath K) :
    findRootMostValueAndPath scmp (FImmutableTree.empty : FCompoundWrite K V) path = none := by
  cases path <;> rfl

theorem find_cons {children : List (K × FCompoundWrite K V)} (k : K) (path : FPath K) :
    findRootMostValueAndPath scmp (.mk none children) (k :: path)
      = (findRootMostValueAndPath scmp (FImmutableTree.child scmp children k) path).map
          (fun r => (k :: r.1, r.2)) := by
  rw [findRootMostValueAndPath, FImmutableTree.child]
  cases lookup scmp k children with
  | none => rw [Option.getD_none, find_empty, Option.map_none]
  | some child => rfl

/-- A tree with something set below it is not empty. -/
theorem isEmpty_setTree {newTree : FCompoundWrite K V} (hnew : newTree.isEmpty = false)
    (write : FCompoundWrite K V) (path : FPath K) :
    (setTree scmp newTree write path).isEmpty = false := by
  induction path generalizing write with
  | nil =>
    cases write
    exact hnew
  | cons k path ih =>
    obtain ⟨value, children⟩ := write
    rw [setTree, ih, isEmpty]
    cases children with
    | nil => simp [put]
    | cons e children =>
      simp only [put, Bool.false_eq_true, if_false]
      cases scmp k e.1 <;> simp

theorem eq_empty_of_isEmpty {write : FCompoundWrite K V} (h : write.isEmpty = true) :
    write = FImmutableTree.empty := by
  obtain ⟨value, children⟩ := write
  simp only [isEmpty, Bool.and_eq_true, Option.isNone_iff_eq_none, List.isEmpty_iff] at h
  rw [h.1, h.2]
  rfl

/-- The path is removed with everything below it. -/
theorem removeWriteAtPath_eq (write : FCompoundWrite K V) (path : FPath K) :
    removeWriteAtPath scmp write path = setTree scmp FImmutableTree.empty write path := by
  rw [removeWriteAtPath]
  split
  · next hnil =>
    subst hnil
    cases write
    rfl
  · rfl

/-- There is nothing to remove from the empty tree. -/
theorem setTree_empty (path : FPath K) :
    setTree scmp FImmutableTree.empty (FImmutableTree.empty : FCompoundWrite K V) path
      = FImmutableTree.empty := by
  induction path with
  | nil => rfl
  | cons k path ih =>
    have hchild : FImmutableTree.child scmp ([] : List (K × FCompoundWrite K V)) k
        = FImmutableTree.empty := rfl
    calc setTree scmp FImmutableTree.empty (.mk none []) (k :: path)
        = .mk none
            (if (setTree scmp FImmutableTree.empty (FImmutableTree.child scmp [] k) path).isEmpty
              then []
              else put scmp true k
                (setTree scmp FImmutableTree.empty (FImmutableTree.child scmp [] k) path) []) := rfl
      _ = FImmutableTree.empty := by
        rw [hchild, ih]
        rfl

theorem Valid.removeWriteAtPath [Std.TransCmp scmp] {write : FCompoundWrite K V}
    (h : Valid cmp scmp write) (path : FPath K) :
    Valid cmp scmp (FCompoundWrite.removeWriteAtPath scmp write path) := by
  rw [removeWriteAtPath_eq]
  induction path generalizing write with
  | nil =>
    cases write
    exact .empty
  | cons k path ih =>
    cases h with
    | @leaf value pruned =>
      have hchild : FImmutableTree.child scmp ([] : List (K × FCompoundWrite K V)) k
          = FImmutableTree.empty := rfl
      rw [ofValue, setTree, hchild, setTree_empty]
      exact .leaf pruned
    | @node children ascending valid =>
      have hnew := ih ((Valid.node ascending valid).child k)
      rw [setTree]
      split
      · exact .node ascending.erase (fun e he => valid e (mem_of_mem_erase he))
      · refine .node ascending.put ((forall_values_iff ascending.put).mpr ?_)
        intro k' v hv
        rw [lookup_put ascending] at hv
        split at hv
        · obtain rfl := Option.some.inj hv
          exact hnew
        · exact (forall_values_iff ascending).mp valid k' v hv

variable [DecidableEq K]

theorem addWrite_nil (write : FCompoundWrite K V) (node : FNode K V) :
    addWrite cmp scmp write node [] = some (ofValue node) := rfl

theorem addWrite_leaf (value node : FNode K V) (k : K) (path : FPath K) :
    addWrite cmp scmp (ofValue value) node (k :: path)
      = some (ofValue (value.updateChild cmp (k :: path) node)) := rfl

theorem relativePathFrom_cons (k : K) (outer inner : FPath K) :
    FPath.relativePathFrom (k :: outer) (k :: inner) = FPath.relativePathFrom outer inner := by
  simp [FPath.relativePathFrom]

/-- Above the written nodes, a write is a write to the child. -/
theorem addWrite_cons {children : List (K × FCompoundWrite K V)}
    (h : Valid cmp scmp (.mk none children)) (node : FNode K V) (k : K) (path : FPath K) :
    addWrite cmp scmp (.mk none children) node (k :: path)
      = (addWrite cmp scmp (FImmutableTree.child scmp children k) node path).map
          (fun newChild => .mk none (put scmp true k newChild children)) := by
  have hchild := h.child k
  unfold addWrite
  rw [if_neg (List.cons_ne_nil k path), find_cons]
  cases hfind : findRootMostValueAndPath scmp (FImmutableTree.child scmp children k) path with
  | some rootMost =>
    obtain ⟨rootMostPath, rootMostValue⟩ := rootMost
    simp only [Option.map_some, relativePathFrom_cons]
    split
    · next hnil =>
      subst hnil
      -- The child itself is written, and is replaced.
      cases hchild' : FImmutableTree.child scmp children k with
      | mk value grandchildren =>
        rw [hchild'] at hfind hchild
        cases hchild with
        | leaf pruned =>
          obtain ⟨rfl, rfl⟩ := Prod.mk.inj (Option.some.inj hfind)
          simp [FPath.relativePathFrom, setValue, hchild', ofValue]
        | node ascending valid => cases hfind
    · cases FPath.relativePathFrom rootMostPath path <;> rfl
  | none =>
    simp only [Option.map_none]
    rw [setTree, isEmpty_setTree rfl, if_neg Bool.false_ne_true]
    split
    · next hnil =>
      subst hnil
      rw [setTree]
      rfl
    · rfl

theorem completeNodeAtPath_leaf (value : FNode K V) (path : FPath K) :
    completeNodeAtPath cmp scmp (ofValue value) path = some (value.getChild cmp path) := by
  cases path <;> rfl

theorem completeNodeAtPath_nil (children : List (K × FCompoundWrite K V)) :
    completeNodeAtPath cmp scmp (.mk none children) [] = none := rfl

theorem completeNodeAtPath_cons (children : List (K × FCompoundWrite K V)) (k : K)
    (path : FPath K) :
    completeNodeAtPath cmp scmp (.mk none children) (k :: path)
      = completeNodeAtPath cmp scmp (FImmutableTree.child scmp children k) path := by
  unfold completeNodeAtPath
  rw [find_cons]
  cases findRootMostValueAndPath scmp (FImmutableTree.child scmp children k) path with
  | none => rfl
  | some r => simp [relativePathFrom_cons]

theorem completeNodeAtPath_empty (path : FPath K) :
    completeNodeAtPath cmp scmp (FImmutableTree.empty : FCompoundWrite K V) path = none := by
  unfold completeNodeAtPath
  rw [find_empty]
  rfl

/-! ## Section 4: What a further write does -/

theorem exists_addWrite {write : FCompoundWrite K V} (h : Valid cmp scmp write) (node : FNode K V)
    (path : FPath K) : ∃ write', addWrite cmp scmp write node path = some write' := by
  induction path generalizing write with
  | nil => exact ⟨_, addWrite_nil write node⟩
  | cons k path ih =>
    cases h with
    | leaf pruned => exact ⟨_, addWrite_leaf _ node k path⟩
    | node ascending valid =>
      obtain ⟨newChild, hnew⟩ := ih ((Valid.node ascending valid).child k)
      exact ⟨_, by rw [addWrite_cons (.node ascending valid), hnew, Option.map_some]⟩

variable [Std.TransCmp scmp] [Std.LawfulEqCmp scmp]

theorem child_put {children : List (K × FCompoundWrite K V)} (h : Ascending scmp children)
    (newChild : FCompoundWrite K V) (k k' : K) :
    FImmutableTree.child scmp (put scmp true k newChild children) k'
      = if k' = k then newChild else FImmutableTree.child scmp children k' := by
  rw [FImmutableTree.child, lookup_put h]
  by_cases hk : k' = k
  · rw [if_pos (by rw [hk]; exact Std.ReflCmp.compare_self), if_pos hk, Option.getD_some]
  · rw [if_neg (fun heq => hk (Std.LawfulEqCmp.eq_of_compare heq)), if_neg hk, FImmutableTree.child]

/-- The children after `setTree:atPath:` replaced one of them, which is dropped if it
    became empty. -/
theorem child_replaced {children : List (K × FCompoundWrite K V)} (h : Ascending scmp children)
    (newChild : FCompoundWrite K V) (k k' : K) :
    FImmutableTree.child scmp (if newChild.isEmpty then erase scmp k children
        else put scmp true k newChild children) k'
      = if k' = k then newChild else FImmutableTree.child scmp children k' := by
  split
  · next hempty =>
    rw [FImmutableTree.child, lookup_erase h, eq_empty_of_isEmpty hempty]
    by_cases hk : k' = k
    · rw [if_pos (by rw [hk]; exact Std.ReflCmp.compare_self), if_pos hk, Option.getD_none]
    · rw [if_neg (fun hcmp => hk (Std.LawfulEqCmp.eq_of_compare hcmp)), if_neg hk,
        FImmutableTree.child]
  · exact child_put h newChild k k'

/-- Where nothing is written above a path, removing the writes there removes what is
    written at the path and below. -/
theorem completeNodeAtPath_removeWriteAtPath {write : FCompoundWrite K V}
    (h : Valid cmp scmp write) {path : FPath K}
    (habove : ∀ above, above <+: path → above ≠ path →
      completeNodeAtPath cmp scmp write above = none) (other : FPath K) :
    completeNodeAtPath cmp scmp (removeWriteAtPath scmp write path) other
      = if path <+: other then none else completeNodeAtPath cmp scmp write other := by
  rw [removeWriteAtPath_eq]
  induction path generalizing write other with
  | nil =>
    cases write
    simp [setTree, completeNodeAtPath_empty]
  | cons k path ih =>
    cases h with
    | leaf pruned =>
      have hroot := habove [] List.nil_prefix (by simp)
      rw [completeNodeAtPath_leaf] at hroot
      cases hroot
    | @node children ascending valid =>
      have hbelow := ih ((Valid.node ascending valid).child k) (fun above hpre hne => by
        have hnone := habove (k :: above) (by simpa [List.cons_prefix_cons] using hpre)
          (by simpa using hne)
        rwa [completeNodeAtPath_cons] at hnone)
      rw [setTree]
      cases other with
      | nil => simp [completeNodeAtPath_nil]
      | cons k' other =>
        rw [completeNodeAtPath_cons, completeNodeAtPath_cons, child_replaced ascending]
        by_cases hk : k' = k
        · subst hk
          rw [if_pos rfl, hbelow other]
          simp only [List.cons_prefix_cons, true_and]
        · rw [if_neg hk]
          simp [List.cons_prefix_cons, Ne.symm hk]

variable [Std.TransCmp cmp]

theorem Valid.addWrite {write write' : FCompoundWrite K V} (h : Valid cmp scmp write)
    {node : FNode K V} (hnode : node.Pruned cmp) {path : FPath K}
    (hwrite : FCompoundWrite.addWrite cmp scmp write node path = some write') :
    Valid cmp scmp write' := by
  induction path generalizing write write' with
  | nil =>
    obtain rfl := Option.some.inj hwrite
    exact .leaf hnode
  | cons k path ih =>
    cases h with
    | leaf pruned =>
      obtain rfl := Option.some.inj hwrite
      exact .leaf (pruned.updateChild hnode _)
    | @node children ascending valid =>
      have hthis := Valid.node ascending valid
      rw [addWrite_cons hthis] at hwrite
      obtain ⟨newChild, hnew, rfl⟩ := Option.map_eq_some_iff.mp hwrite
      refine .node ascending.put ?_
      intro e he
      rcases (mem_put_iff ascending).mp he with rfl | ⟨-, hold⟩
      · exact ih (hthis.child k) hnew
      · exact valid e hold

variable [Std.LawfulEqCmp cmp]

/-- After a write the nodes below its path are those of the written one; a node that was
    written above is updated, and everything else is written as before. -/
theorem completeNodeAtPath_addWrite {write write' : FCompoundWrite K V}
    (h : Valid cmp scmp write) {node : FNode K V} {path : FPath K}
    (hwrite : FCompoundWrite.addWrite cmp scmp write node path = some write') (other : FPath K) :
    completeNodeAtPath cmp scmp write' other
      = if path <+: other then some (node.getChild cmp (other.drop path.length))
        else (completeNodeAtPath cmp scmp write other).map (fun complete =>
          if other <+: path then complete.updateChild cmp (path.drop other.length) node
          else complete) := by
  induction path generalizing write write' other with
  | nil =>
    obtain rfl := Option.some.inj hwrite
    simp [completeNodeAtPath_leaf]
  | cons k path ih =>
    cases h with
    | @leaf value pruned =>
      obtain rfl := Option.some.inj ((addWrite_leaf value node k path).symm.trans hwrite)
      rw [completeNodeAtPath_leaf, completeNodeAtPath_leaf, Option.map_some]
      split
      · next hbelow =>
        obtain ⟨rest, rfl⟩ := hbelow
        rw [FNode.getChild_append, FNode.getChild_updateChild_self pruned, List.drop_left]
      · next hbelow =>
        split
        · next habove =>
          obtain ⟨rest, hrest⟩ := habove
          rw [← hrest, FNode.getChild_updateChild_append pruned, List.drop_left]
        · next habove => rw [FNode.getChild_updateChild_of_apart pruned hbelow habove]
    | @node children ascending valid =>
      have hthis := Valid.node ascending valid
      rw [addWrite_cons hthis] at hwrite
      obtain ⟨newChild, hnew, rfl⟩ := Option.map_eq_some_iff.mp hwrite
      cases other with
      | nil => simp [completeNodeAtPath_nil]
      | cons k' other =>
        rw [completeNodeAtPath_cons, completeNodeAtPath_cons, child_put ascending]
        by_cases hk : k' = k
        · subst hk
          rw [if_pos rfl, ih (hthis.child k') hnew other]
          simp only [List.cons_prefix_cons, true_and, List.length_cons, List.drop_succ_cons]
        · rw [if_neg hk]
          simp [List.cons_prefix_cons, hk, Ne.symm hk]

end steps

end FCompoundWrite

end MeetupApp.Firebase
