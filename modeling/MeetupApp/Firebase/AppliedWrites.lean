import MeetupApp.Firebase.EnumeratedWrites
import MeetupApp.Firebase.Names

/-! # Applying pending writes to a node

    The client shows what it has written before the server answers: it applies the
    compound write of the pending writes to the node it has from the server.  The
    result is the one of the writes one after another, and below each path it is
    what `FWriteTree` computes from the writes and the node below that path.

    Both hold for a node without a leaf above a written path, which is how a
    database is read by an app that writes to fixed depths. -/

namespace MeetupApp.Firebase

open SortedEntries

variable {K V : Type} {cmp scmp : K → K → Ordering}

/-! ## Section 1: Writes to a node without leaves above -/

/-- No leaf of the node is above the path. -/
def OpenAt (cmp : K → K → Ordering) (node : FNode K V) (path : FPath K) : Prop :=
  ∀ above, above <+: path → above ≠ path → node.leafAt cmp above = none

/-- The writes of a list, one after another. -/
def updateChildren (cmp : K → K → Ordering) (node : FNode K V)
    (writes : List (FPath K × FNode K V)) : FNode K V :=
  writes.foldl (fun n w => n.updateChild cmp w.1 w.2) node

section writes
variable [Std.TransCmp cmp] {node newChild : FNode K V} {path : FPath K}

theorem pruned_updateChildren {writes : List (FPath K × FNode K V)} (h : node.Pruned cmp)
    (hwrites : ∀ w ∈ writes, w.2.Pruned cmp) : (updateChildren cmp node writes).Pruned cmp := by
  induction writes generalizing node with
  | nil => exact h
  | cons w writes ih =>
    exact ih (h.updateChild (hwrites w (by simp)) w.1) (fun w' hw' => hwrites w' (by simp [hw']))

variable [Std.LawfulEqCmp cmp] [DecidableEq K]

theorem leafAt_updateChild_of_open (h : node.Pruned cmp) (hopen : OpenAt cmp node path)
    (other : FPath K) :
    (node.updateChild cmp path newChild).leafAt cmp other
      = if path <+: other then newChild.leafAt cmp (other.drop path.length)
        else node.leafAt cmp other := by
  rw [FNode.leafAt_updateChild h]
  split
  · rfl
  · next hbelow =>
    split
    · next habove =>
      have hne : other ≠ path := by
        rintro rfl
        exact hbelow List.prefix_rfl
      exact (hopen other habove.1 hne).symm
    · rfl

/-- A write makes no leaf above a path, if what it writes has none there. -/
theorem OpenAt.updateChild_of (h : node.Pruned cmp) {other : FPath K}
    (hopen : OpenAt cmp node other)
    (hnew : ∀ above, above <+: other → above ≠ other → path <+: above →
      newChild.leafAt cmp (above.drop path.length) = none) :
    OpenAt cmp (node.updateChild cmp path newChild) other := by
  intro above habove hne
  rw [FNode.leafAt_updateChild h]
  split
  · next hbelow => exact hnew above habove hne hbelow
  · split
    · rfl
    · exact hopen above habove hne

/-- A write makes no leaf above a path that is apart from it. -/
theorem OpenAt.updateChild (h : node.Pruned cmp) {other : FPath K} (hopen : OpenAt cmp node other)
    (hapart : FPath.Apart path other) :
    OpenAt cmp (node.updateChild cmp path newChild) other :=
  hopen.updateChild_of h (fun _ habove _ hbelow => absurd (hbelow.trans habove) hapart.1)

/-- After writes that are apart, the leaves below one of them are those it wrote, and the
    others are as before. -/
theorem leafAt_updateChildren {writes : List (FPath K × FNode K V)} (h : node.Pruned cmp)
    (hwrites : ∀ w ∈ writes, w.2.Pruned cmp)
    (hapart : writes.Pairwise (fun w w' => FPath.Apart w.1 w'.1))
    (hopen : ∀ w ∈ writes, OpenAt cmp node w.1) (other : FPath K) :
    (∀ w ∈ writes, w.1 <+: other →
      (updateChildren cmp node writes).leafAt cmp other
        = w.2.leafAt cmp (other.drop w.1.length))
    ∧ ((∀ w ∈ writes, ¬ w.1 <+: other) →
      (updateChildren cmp node writes).leafAt cmp other = node.leafAt cmp other) := by
  induction writes generalizing node with
  | nil => exact ⟨by simp, fun _ => rfl⟩
  | cons w writes ih =>
    obtain ⟨hw, hrest⟩ := List.pairwise_cons.mp hapart
    have hfirst : (node.updateChild cmp w.1 w.2).leafAt cmp other
        = if w.1 <+: other then w.2.leafAt cmp (other.drop w.1.length)
          else node.leafAt cmp other :=
      leafAt_updateChild_of_open h (hopen w (by simp)) other
    obtain ⟨hbelow, helse⟩ := ih (h.updateChild (hwrites w (by simp)) w.1)
      (fun w' hw' => hwrites w' (by simp [hw'])) hrest
      (fun w' hw' => (hopen w' (by simp [hw'])).updateChild h (hw w' hw'))
    constructor
    · intro w' hw' hpre
      rcases List.mem_cons.mp hw' with rfl | hw'
      · -- No later write is at or above the path, or it would not be apart from this one.
        rw [updateChildren, List.foldl_cons]
        refine (helse ?_).trans (by rw [hfirst, if_pos hpre])
        intro w'' hw'' hpre''
        rcases List.prefix_or_prefix_of_prefix hpre hpre'' with hle | hle
        · exact (hw w'' hw'').1 hle
        · exact (hw w'' hw'').2 hle
      · exact hbelow w' hw' hpre
    · intro hnone
      exact (helse (fun w' hw' => hnone w' (by simp [hw']))).trans
        (by rw [hfirst, if_neg (hnone w (by simp))])

end writes

namespace FCompoundWrite

open FImmutableTree

/-! ## Section 2: The node with the writes applied -/

/-- `addWrite:atPath:` for each write of a list. -/
def addWrites (cmp scmp : K → K → Ordering) [DecidableEq K]
    (write : FCompoundWrite K V) (writes : List (FPath K × FNode K V)) :
    Option (FCompoundWrite K V) :=
  writes.foldlM (fun newWrite w => addWrite cmp scmp newWrite w.2 w.1) write

theorem addWrites_cons [DecidableEq K] (write : FCompoundWrite K V) (w : FPath K × FNode K V)
    (writes : List (FPath K × FNode K V)) :
    addWrites cmp scmp write (w :: writes)
      = (addWrite cmp scmp write w.2 w.1).bind (addWrites cmp scmp · writes) := rfl

/-- `FWriteTree calculateCompleteEventCacheAtPath:completeServerCache:`, without writes to
    exclude and without hidden ones. -/
def calculateCompleteEventCacheAtPath (cmp scmp : K → K → Ordering) [DecidableEq K]
    (visibleWrites : FCompoundWrite K V) (treePath : FPath K)
    (completeServerCache : Option (FNode K V)) : Option (FNode K V) :=
  match completeNodeAtPath cmp scmp visibleWrites treePath with
  | some shadowingNode => some shadowingNode
  | none =>
    let subMerge := childCompoundWriteAtPath cmp scmp visibleWrites treePath
    if subMerge.isEmpty then completeServerCache
    else if completeServerCache.isNone && !hasCompleteWriteAtPath cmp scmp subMerge [] then none
    else some (applyToNode cmp subMerge (completeServerCache.getD .empty))

section applied
variable {node : FNode K V} {write : FCompoundWrite K V}

theorem applyToNode_eq (hwrite : Valid cmp scmp write) (node : FNode K V) :
    applyToNode cmp write node = updateChildren cmp node write.forEach := by
  rw [applyToNode, applySubtreeWrite_eq hwrite]
  rfl

variable [Std.TransCmp cmp]

theorem pruned_applyToNode (hwrite : Valid cmp scmp write) (h : node.Pruned cmp) :
    (applyToNode cmp write node).Pruned cmp := by
  rw [applyToNode_eq hwrite]
  exact pruned_updateChildren h hwrite.pruned

variable [Std.TransCmp scmp] [Std.LawfulEqCmp cmp] [Std.LawfulEqCmp scmp] [DecidableEq K]

/-- The leaves are those of the written node where there is one. -/
theorem leafAt_applyToNode (hwrite : Valid cmp scmp write) (h : node.Pruned cmp)
    (hopen : ∀ w ∈ write.forEach, OpenAt cmp node w.1) (path : FPath K) :
    (applyToNode cmp write node).leafAt cmp path
      = (completeNodeAtPath cmp scmp write path).elim (node.leafAt cmp path) FNode.value? := by
  obtain ⟨hbelow, helse⟩ :=
    leafAt_updateChildren h hwrite.pruned hwrite.pairwise_apart hopen path
  rw [applyToNode_eq hwrite]
  cases hcomplete : completeNodeAtPath cmp scmp write path with
  | some complete =>
    obtain ⟨w, hw, hpre, rfl⟩ := exists_of_completeNodeAtPath hwrite hcomplete
    exact hbelow w hw hpre
  | none => exact helse (not_prefix_of_completeNodeAtPath hwrite hcomplete)

/-- Adding a write to the tree is writing to the node with the tree applied. -/
theorem applyToNode_addWrite {write' : FCompoundWrite K V} (hwrite : Valid cmp scmp write)
    (h : node.Pruned cmp) (hopen : ∀ w ∈ write.forEach, OpenAt cmp node w.1)
    {newNode : FNode K V} (hnew : newNode.Pruned cmp) {path : FPath K}
    (hpath : OpenAt cmp node path) (hadd : addWrite cmp scmp write newNode path = some write') :
    applyToNode cmp write' node
      = (applyToNode cmp write node).updateChild cmp path newNode := by
  have hwrite' : Valid cmp scmp write' := hwrite.addWrite hnew hadd
  have hopen' : ∀ w ∈ write'.forEach, OpenAt cmp node w.1 := by
    intro w hw
    rcases mem_forEach_addWrite hwrite hadd w hw with heq | ⟨old, hold, heq⟩
    · rwa [heq]
    · rw [← heq]
      exact hopen old hold
  have happlied := pruned_applyToNode hwrite h
  refine (pruned_applyToNode hwrite' h).ext_leafAt (happlied.updateChild hnew path) ?_
  intro other
  rw [leafAt_applyToNode hwrite' h hopen', completeNodeAtPath_addWrite hwrite hadd,
    FNode.leafAt_updateChild happlied, leafAt_applyToNode hwrite h hopen]
  by_cases hbelow : path <+: other
  · rw [if_pos hbelow, if_pos hbelow]
    rfl
  · rw [if_neg hbelow, if_neg hbelow]
    have hne : other ≠ path := by
      rintro rfl
      exact hbelow List.prefix_rfl
    cases hcomplete : completeNodeAtPath cmp scmp write other with
    | none =>
      -- Above the path the node has no leaf to lose.
      rw [Option.map_none, Option.elim_none]
      split
      · next habove => exact hpath other habove.1 hne
      · rfl
    | some complete =>
      rw [Option.map_some, Option.elim_some, Option.elim_some]
      by_cases habove : other <+: path
      · rw [if_pos habove]
        obtain ⟨rest, rfl⟩ := habove
        cases rest with
        | nil => exact absurd (List.append_nil other).symm hne
        | cons k rest =>
          rw [List.drop_left, FNode.value?_updateChild_cons]
          cases newNode.isEmpty <;> simp
      · rw [if_neg habove, if_neg (fun hcon => habove hcon.1)]

/-! ## Section 3: Merging is writing one after another -/

/-- By induction on the writes, from any tree. -/
theorem exists_addWrites (hwrite : Valid cmp scmp write) (h : node.Pruned cmp)
    (hopen : ∀ w ∈ write.forEach, OpenAt cmp node w.1) {writes : List (FPath K × FNode K V)}
    (hwrites : ∀ w ∈ writes, w.2.Pruned cmp) (hpaths : ∀ w ∈ writes, OpenAt cmp node w.1) :
    ∃ write', addWrites cmp scmp write writes = some write' ∧ Valid cmp scmp write'
      ∧ (∀ w ∈ write'.forEach, OpenAt cmp node w.1)
      ∧ applyToNode cmp write' node
        = updateChildren cmp (applyToNode cmp write node) writes := by
  induction writes generalizing write with
  | nil => exact ⟨write, rfl, hwrite, hopen, rfl⟩
  | cons w writes ih =>
    obtain ⟨next, hnext⟩ := exists_addWrite hwrite w.2 w.1
    have hvalid : Valid cmp scmp next := hwrite.addWrite (hwrites w (by simp)) hnext
    have hstep := applyToNode_addWrite hwrite h hopen (hwrites w (by simp))
      (hpaths w (by simp)) hnext
    have hopen' : ∀ w' ∈ next.forEach, OpenAt cmp node w'.1 := by
      intro w' hw'
      rcases mem_forEach_addWrite hwrite hnext w' hw' with heq | ⟨old, hold, heq⟩
      · rw [heq]
        exact hpaths w (by simp)
      · rw [← heq]
        exact hopen old hold
    obtain ⟨write', hwrite', hvalid', hopen'', happlied⟩ := ih hvalid hopen'
      (fun w' hw' => hwrites w' (by simp [hw'])) (fun w' hw' => hpaths w' (by simp [hw']))
    refine ⟨write', ?_, hvalid', hopen'', ?_⟩
    · rw [addWrites_cons, hnext, Option.bind_some, hwrite']
    · rw [happlied, hstep]
      rfl

variable (cmp scmp) in
/-- Any writes, merged into one compound write and applied at once, have the effect of the
    writes one after another on a node without a leaf above them. -/
theorem applyToNode_addWrites (node : FNode K V) (writes : List (FPath K × FNode K V))
    (h : node.Pruned cmp) (hwrites : ∀ w ∈ writes, w.2.Pruned cmp)
    (hpaths : ∀ w ∈ writes, OpenAt cmp node w.1) :
    ∃ write, addWrites cmp scmp emptyWrite writes = some write
      ∧ applyToNode cmp write node = updateChildren cmp node writes := by
  have hempty : Valid cmp scmp (emptyWrite : FCompoundWrite K V) := .empty
  obtain ⟨write, hwrite, -, -, happlied⟩ := exists_addWrites hempty h
    (by simp [emptyWrite, FImmutableTree.empty, forEach, forEachChild]) hwrites hpaths
  exact ⟨write, hwrite, happlied⟩

/-! ## Section 4: The event cache of a path -/

omit [Std.TransCmp scmp] [Std.LawfulEqCmp scmp] in
/-- Writes below one child change that child and no other. -/
theorem getImmediateChild_updateChildren (k : K) {writes : List (FPath K × FNode K V)}
    (h : node.Pruned cmp) (hwrites : ∀ w ∈ writes, w.2.Pruned cmp) (k' : K) :
    (updateChildren cmp node (writes.map (fun w => (k :: w.1, w.2)))).getImmediateChild cmp k'
      = if k' = k then updateChildren cmp (node.getImmediateChild cmp k) writes
        else node.getImmediateChild cmp k' := by
  induction writes generalizing node with
  | nil =>
    split
    · next heq =>
      subst heq
      rfl
    · rfl
  | cons w writes ih =>
    have hnext : (node.updateChild cmp (k :: w.1) w.2).Pruned cmp :=
      h.updateChild (hwrites w (by simp)) _
    have hchild : ∀ k', (node.updateChild cmp (k :: w.1) w.2).getImmediateChild cmp k'
        = if k' = k then (node.getImmediateChild cmp k).updateChild cmp w.1 w.2
          else node.getImmediateChild cmp k' := by
      intro k'
      rw [FNode.updateChild_cons, FNode.getImmediateChild_updateImmediateChild h]
      simp only [Std.LawfulEqCmp.compare_eq_iff_eq]
    have hrest := ih hnext (fun w' hw' => hwrites w' (by simp [hw']))
    rw [hchild, hchild, if_pos rfl] at hrest
    exact hrest.trans (by split <;> rfl)

/-- A child of the node with the writes applied is the child with its writes applied. -/
theorem getImmediateChild_applyToNode {children : List (K × FCompoundWrite K V)}
    (hwrite : Valid cmp scmp (.mk none children)) (h : node.Pruned cmp) (k : K) :
    (applyToNode cmp (.mk none children) node).getImmediateChild cmp k
      = applyToNode cmp (FImmutableTree.child scmp children k) (node.getImmediateChild cmp k) := by
  rw [applyToNode_eq hwrite, applyToNode_eq (hwrite.child k), forEach]
  cases hwrite with
  | node ascending valid =>
    induction children generalizing node with
    | nil => rfl
    | cons e children ih =>
      obtain ⟨k₀, write⟩ := e
      obtain ⟨hlt, hasc⟩ := ascending_cons.mp ascending
      have hwrites : ∀ w ∈ write.forEach, w.2.Pruned cmp := (valid (k₀, write) (by simp)).pruned
      have hnext : (updateChildren cmp node
          (write.forEach.map (fun w => (k₀ :: w.1, w.2)))).Pruned cmp := by
        refine pruned_updateChildren h ?_
        intro w hw
        obtain ⟨w', hw', rfl⟩ := List.mem_map.mp hw
        exact hwrites w' hw'
      have hrest := ih hnext hasc (fun e he => valid e (by simp [he]))
      rw [getImmediateChild_updateChildren k₀ h hwrites] at hrest
      rw [forEachChild, updateChildren, List.foldl_append, ← updateChildren, ← updateChildren,
        hrest, FImmutableTree.child, FImmutableTree.child]
      -- No later child has the key of the first one.
      obtain ⟨hfirst, hother⟩ := ascending.lookup_cons
      by_cases hk : k = k₀
      · subst hk
        have hself : lookup scmp k ((k, write) :: children) = some write :=
          lookup_cons_eq (e := (k, write)) Std.ReflCmp.compare_self
        rw [if_pos rfl, hfirst, hself]
        rfl
      · rw [if_neg hk, hother k hk]

/-- The node at a path with the writes applied: what is written there, or what was there with
    the writes below. -/
theorem getChild_applyToNode {write : FCompoundWrite K V} (hwrite : Valid cmp scmp write)
    {node : FNode K V} (h : node.Pruned cmp) (path : FPath K) :
    (applyToNode cmp write node).getChild cmp path
      = (completeNodeAtPath cmp scmp write path).getD
          (applyToNode cmp (subtreeAtPath scmp write path) (node.getChild cmp path)) := by
  induction path generalizing write node with
  | nil =>
    cases hwrite with
    | leaf pruned =>
      rw [completeNodeAtPath_leaf, Option.getD_some, applyToNode, ofValue, applySubtreeWrite,
        FNode.updateChild_nil]
    | node ascending valid =>
      rw [completeNodeAtPath_nil, Option.getD_none, subtreeAtPath, FNode.getChild_nil,
        FNode.getChild_nil]
  | cons k path ih =>
    cases hwrite with
    | leaf pruned =>
      rw [completeNodeAtPath_leaf, Option.getD_some, applyToNode, ofValue, applySubtreeWrite,
        FNode.updateChild_nil]
    | @node children ascending valid =>
      have hvalid : Valid cmp scmp (.mk none children) := .node ascending valid
      rw [FNode.getChild_cons, getImmediateChild_applyToNode hvalid h,
        ih (hvalid.child k) (h.getImmediateChild k), completeNodeAtPath_cons, subtreeAtPath_cons,
        FNode.getChild_cons]

variable (cmp scmp) in
/-- The event cache that is computed at a path from what is there is the node at that path
    of the whole tree with all writes applied. -/
theorem calculateCompleteEventCacheAtPath_eq (write : FCompoundWrite K V) (node : FNode K V)
    (hwrite : Valid cmp scmp write) (h : node.Pruned cmp) (path : FPath K) :
    calculateCompleteEventCacheAtPath cmp scmp write path (some (node.getChild cmp path))
      = some ((applyToNode cmp write node).getChild cmp path) := by
  rw [calculateCompleteEventCacheAtPath, getChild_applyToNode hwrite h]
  cases hcomplete : completeNodeAtPath cmp scmp write path with
  | some complete => rfl
  | none =>
    dsimp only
    rw [childCompoundWriteAtPath_eq hcomplete]
    split
    · next hempty =>
      -- An empty subtree applies nothing.
      rw [eq_empty_of_isEmpty hempty]
      rfl
    · rw [Option.isNone_some, Bool.false_and, if_neg Bool.false_ne_true]
      rfl

end applied

/-- A write and one below it, on the empty node. -/
theorem applyToNode_addWrites_two :
    ∃ write, addWrites keyComparator stringComparator emptyWrite
        [([.ofString "a"], .leaf 5), ([.ofString "a", .ofString "b"], .leaf 6)] = some write
      ∧ applyToNode keyComparator write (.empty : FNode Name Nat)
        = .children [(.ofString "a", .children [(.ofString "b", .leaf 6)])] := by
  have hempty : ∀ path, OpenAt keyComparator (.empty : FNode Name Nat) path :=
    fun path above _ _ => FNode.leafAt_empty above
  obtain ⟨write, hwrite, happlied⟩ := applyToNode_addWrites keyComparator stringComparator
    (.empty : FNode Name Nat)
    [([.ofString "a"], .leaf 5), ([.ofString "a", .ofString "b"], .leaf 6)] .empty
    (by simp [FNode.Pruned.leaf]) (fun w _ => hempty w.1)
  exact ⟨write, hwrite, happlied⟩

/-- A leaf above two writes of which the second removes what the first made: one after
    another they remove the leaf, merged they keep it. -/
theorem merged_below_leaf :
    ∃ write, addWrites compare compare emptyWrite [([1, 2], .leaf 5), ([1, 2], .empty)] = some write
      ∧ applyToNode compare write (.children [(1, .leaf 0)] : FNode Nat Nat)
        = .children [(1, .leaf 0)]
      ∧ updateChildren compare (.children [(1, .leaf 0)] : FNode Nat Nat)
          [([1, 2], .leaf 5), ([1, 2], .empty)] = .empty :=
  ⟨_, rfl, rfl, rfl⟩

/-- The cache of the root with one of its two leaves overwritten. -/
theorem calculateCompleteEventCacheAtPath_root :
    calculateCompleteEventCacheAtPath keyComparator stringComparator
        (.mk none [(.ofString "9", ofValue (.leaf 5))]) []
        (some (.children [(.ofString "9", .leaf 0), (.ofString "10", .leaf 7)] : FNode Name Nat))
      = some (.children [(.ofString "9", .leaf 5), (.ofString "10", .leaf 7)]) := by
  refine calculateCompleteEventCacheAtPath_eq keyComparator stringComparator
    (.mk none [(.ofString "9", ofValue (.leaf 5))])
    (.children [(.ofString "9", .leaf 0), (.ofString "10", .leaf 7)] : FNode Name Nat) ?_ ?_ []
  · exact .node (by simp [Ascending]) (by simp [Valid.leaf, FNode.Pruned.leaf])
  · refine .children ?_ ?_ ?_
    · exact List.pairwise_pair.mpr (by decide)
    · simp [FNode.isEmpty]
    · simp [FNode.Pruned.leaf]

end FCompoundWrite

end MeetupApp.Firebase
