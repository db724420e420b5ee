import MeetupApp.Firebase.ChildChanges
import MeetupApp.Firebase.PendingWrites

/-! # Core/FWriteTreeRef.m, Core/View/FCacheNode.m

    What the pending writes make of the data at one location.  Besides the whole
    node, the parts of it that a change of the server concerns are computed one by
    one, from the writes at and below the path of the part.

    The result is that the parts are those of the whole. -/

namespace MeetupApp.Firebase

open SortedEntries FImmutableTree FCompoundWrite FIndexedFilter

variable {K V : Type}

/-! ## Section 1: Caches -/

/-- `FCacheNode` of a query that does not filter. -/
structure FCacheNode (K V : Type) where
  node : FNode K V
  isFullyInitialized : Bool

namespace FCacheNode

variable (cmp : K → K → Ordering)

/-- `isCompleteForChild:` -/
def isCompleteForChild (cache : FCacheNode K V) (childKey : K) : Bool :=
  cache.isFullyInitialized || cache.node.hasChild cmp childKey

/-- `isCompleteForPath:` -/
def isCompleteForPath (cache : FCacheNode K V) (path : FPath K) : Bool :=
  match path with
  | [] => cache.isFullyInitialized
  | childKey :: _ => cache.isCompleteForChild cmp childKey

end FCacheNode

/-- `completeChildren` -/
def FCompoundWrite.completeChildren : FCompoundWrite K V → List (K × FNode K V)
  | .mk (some node) _ => node.enumerateChildren
  | .mk none children =>
    children.filterMap (fun e => match e with
      | (childKey, .mk value _) => value.map (fun node => (childKey, node)))

/-! ## Section 2: The writes at a location -/

/-- `FWriteTreeRef` -/
structure FWriteTreeRef (K V : Type) where
  path : FPath K
  writeTree : FWriteTree K V

namespace FWriteTreeRef

section operations
variable (cmp scmp : K → K → Ordering) [DecidableEq K] (ref : FWriteTreeRef K V)

/-- `calculateCompleteEventCacheWithCompleteServerCache:` -/
def calculateCompleteEventCache (completeServerCache : Option (FNode K V)) :
    Option (FNode K V) :=
  calculateCompleteEventCacheAtPath cmp scmp ref.writeTree.visibleWrites ref.path
    completeServerCache

/-- `calculateCompleteEventChildrenWithCompleteServerChildren:` -/
def calculateCompleteEventChildren (completeServerChildren : FNode K V) : FNode K V :=
  let addChild (completeChildren : FNode K V) (e : K × FNode K V) : FNode K V :=
    completeChildren.updateImmediateChild cmp e.1 e.2
  match completeNodeAtPath cmp scmp ref.writeTree.visibleWrites ref.path with
  -- a leaf has no children to enumerate
  | some topLevelSet => topLevelSet.enumerateChildren.foldl addChild .empty
  | none =>
    let merge := childCompoundWriteAtPath cmp scmp ref.writeTree.visibleWrites ref.path
    let completeChildren := completeServerChildren.enumerateChildren.foldl
      (fun completeChildren e =>
        let childMerge := childCompoundWriteAtPath cmp scmp merge [e.1]
        addChild completeChildren (e.1, applyToNode cmp childMerge e.2)) .empty
    merge.completeChildren.foldl addChild completeChildren

/-- `calculateEventCacheAfterServerOverwriteWithChildPath:existingEventSnap:existingServerSnap:` -/
def calculateEventCacheAfterServerOverwrite (childPath : FPath K)
    (existingServerSnap : FNode K V) : Option (FNode K V) :=
  let path := ref.path.child childPath
  if hasCompleteWriteAtPath cmp scmp ref.writeTree.visibleWrites path then none
  else
    let childMerge := childCompoundWriteAtPath cmp scmp ref.writeTree.visibleWrites path
    if childMerge.isEmpty then some (existingServerSnap.getChild cmp childPath)
    else some (applyToNode cmp childMerge (existingServerSnap.getChild cmp childPath))

/-- `shadowingWriteAtPath:` -/
def shadowingWriteAtPath (path : FPath K) : Option (FNode K V) :=
  completeNodeAtPath cmp scmp ref.writeTree.visibleWrites (ref.path.child path)

/-- `calculateCompleteChild:cache:` -/
def calculateCompleteChild (childKey : K) (existingServerCache : FCacheNode K V) :
    Option (FNode K V) :=
  let path := ref.path.child [childKey]
  match completeNodeAtPath cmp scmp ref.writeTree.visibleWrites path with
  | some shadowingNode => some shadowingNode
  | none =>
    if existingServerCache.isCompleteForChild cmp childKey then
      let childMerge := childCompoundWriteAtPath cmp scmp ref.writeTree.visibleWrites path
      some (applyToNode cmp childMerge (existingServerCache.node.getImmediateChild cmp childKey))
    else none

end operations

/-- `childWriteTreeRef:`, for any number of keys. -/
def childRef (ref : FWriteTreeRef K V) (path : FPath K) : FWriteTreeRef K V :=
  { ref with path := ref.path.child path }

/-! ## Section 3: What is shown of a complete node -/

/-- The complete event cache of a complete server cache. -/
def shown (cmp scmp : K → K → Ordering) [DecidableEq K] (ref : FWriteTreeRef K V)
    (serverSnap : FNode K V) : FNode K V :=
  (ref.calculateCompleteEventCache cmp scmp (some serverSnap)).getD .empty

/-- The node has no leaf above a written path. -/
def OpenIn (cmp : K → K → Ordering) (ref : FWriteTreeRef K V) (node : FNode K V) : Prop :=
  ∀ w ∈ ref.writeTree.visibleWrites.forEach, ∀ rest, w.1 = ref.path ++ rest →
    OpenAt cmp node rest

section shown
variable {cmp scmp : K → K → Ordering} [DecidableEq K] {ref : FWriteTreeRef K V}
  {serverSnap : FNode K V}

theorem shadowingWriteAtPath_childRef (path rest : FPath K) :
    (ref.childRef path).shadowingWriteAtPath cmp scmp rest
      = ref.shadowingWriteAtPath cmp scmp (path ++ rest) := by
  simp [shadowingWriteAtPath, childRef, FPath.child]

omit [DecidableEq K] in
theorem OpenIn.childRef (h : ref.OpenIn cmp serverSnap) (path : FPath K) :
    (ref.childRef path).OpenIn cmp (serverSnap.getChild cmp path) := by
  intro w hw rest hrest above habove hne
  rw [← FNode.leafAt_append]
  refine h w hw (path ++ rest) ?_ _ ((List.prefix_append_right_inj path).mpr habove)
    (fun heq => hne (List.append_cancel_left heq))
  rw [hrest, FWriteTreeRef.childRef, FPath.child, List.append_assoc]

/-- A location that is written shows what was written. -/
theorem shown_of_shadowing {node : FNode K V}
    (h : ref.shadowingWriteAtPath cmp scmp [] = some node) :
    ref.shown cmp scmp serverSnap = node := by
  rw [shadowingWriteAtPath, FPath.child, List.append_nil] at h
  rw [shown, calculateCompleteEventCache, calculateCompleteEventCacheAtPath, h]
  rfl

/-- Elsewhere the writes below are applied. -/
theorem shown_of_not_shadowing (h : ref.shadowingWriteAtPath cmp scmp [] = none) :
    ref.shown cmp scmp serverSnap
      = applyToNode cmp (subtreeAtPath scmp ref.writeTree.visibleWrites ref.path) serverSnap := by
  rw [shadowingWriteAtPath, FPath.child, List.append_nil] at h
  rw [shown, calculateCompleteEventCache, calculateCompleteEventCacheAtPath, h]
  dsimp only
  rw [childCompoundWriteAtPath_eq h]
  split
  · next hempty =>
    rw [eq_empty_of_isEmpty hempty]
    rfl
  · rfl

/-- It is what is calculated. -/
theorem calculateCompleteEventCache_some (serverSnap : FNode K V) :
    ref.calculateCompleteEventCache cmp scmp (some serverSnap)
      = some (ref.shown cmp scmp serverSnap) := by
  have hsome : (ref.calculateCompleteEventCache cmp scmp (some serverSnap)).isSome := by
    rw [calculateCompleteEventCache, calculateCompleteEventCacheAtPath]
    split
    · rfl
    · dsimp only
      split
      · rfl
      · rw [Option.isNone_some, Bool.false_and, if_neg Bool.false_ne_true]
        rfl
  obtain ⟨node, hnode⟩ := Option.isSome_iff_exists.mp hsome
  rw [shown, hnode, Option.getD_some]

variable [Std.TransCmp cmp] [Std.TransCmp scmp] [Std.LawfulEqCmp cmp] [Std.LawfulEqCmp scmp]
  (hvalid : Valid cmp scmp ref.writeTree.visibleWrites)
include hvalid

omit [Std.TransCmp cmp] [Std.LawfulEqCmp cmp] in
/-- Without the server's data nothing is calculated but what is written. -/
theorem calculateCompleteEventCache_none :
    ref.calculateCompleteEventCache cmp scmp none = ref.shadowingWriteAtPath cmp scmp [] := by
  rw [calculateCompleteEventCache, calculateCompleteEventCacheAtPath, shadowingWriteAtPath,
    FPath.child, List.append_nil]
  cases hcomplete : completeNodeAtPath cmp scmp ref.writeTree.visibleWrites ref.path with
  | some node => rfl
  | none =>
    have hroot : hasCompleteWriteAtPath cmp scmp (childCompoundWriteAtPath cmp scmp
        ref.writeTree.visibleWrites ref.path) [] = false := by
      rw [childCompoundWriteAtPath_eq hcomplete, hasCompleteWriteAtPath,
        (subtreeAtPath_spec hvalid hcomplete).2.1, List.append_nil, hcomplete]
      rfl
    dsimp only
    rw [hroot]
    split <;> rfl

omit [Std.LawfulEqCmp cmp] in
theorem pruned_shadowing {path : FPath K} {node : FNode K V}
    (h : ref.shadowingWriteAtPath cmp scmp path = some node) : node.Pruned cmp := by
  obtain ⟨w, hw, -, rfl⟩ := exists_of_completeNodeAtPath hvalid h
  exact (hvalid.pruned w hw).getChild _

omit [Std.LawfulEqCmp cmp] in
theorem pruned_calculateCompleteChild {childKey : K} {cache : FCacheNode K V}
    (hcache : cache.node.Pruned cmp) {node : FNode K V}
    (h : ref.calculateCompleteChild cmp scmp childKey cache = some node) : node.Pruned cmp := by
  rw [calculateCompleteChild] at h
  cases hcomplete : completeNodeAtPath cmp scmp ref.writeTree.visibleWrites
      (ref.path.child [childKey]) with
  | some complete =>
    rw [hcomplete] at h
    obtain rfl := Option.some.inj h
    exact pruned_shadowing hvalid hcomplete
  | none =>
    rw [hcomplete] at h
    dsimp only at h
    split at h
    · obtain rfl := Option.some.inj h
      exact pruned_applyToNode (hvalid.childCompoundWriteAtPath _)
        (hcache.getImmediateChild childKey)
    · cases h

omit [Std.LawfulEqCmp cmp] in
/-- Only a path that is written has no update of its event cache. -/
theorem exists_calculateEventCacheAfterServerOverwrite {path : FPath K}
    (h : ref.shadowingWriteAtPath cmp scmp path = none) (hserver : serverSnap.Pruned cmp) :
    ∃ node, ref.calculateEventCacheAfterServerOverwrite cmp scmp path serverSnap = some node
      ∧ node.Pruned cmp := by
  rw [shadowingWriteAtPath] at h
  rw [calculateEventCacheAfterServerOverwrite, hasCompleteWriteAtPath, h]
  dsimp only
  rw [if_neg (by simp)]
  split
  · exact ⟨_, rfl, hserver.getChild path⟩
  · exact ⟨_, rfl, pruned_applyToNode (hvalid.childCompoundWriteAtPath _)
      (hserver.getChild path)⟩

omit [Std.LawfulEqCmp cmp] in
theorem pruned_calculateCompleteEventChildren (hserver : serverSnap.Pruned cmp) :
    (ref.calculateCompleteEventChildren cmp scmp serverSnap).Pruned cmp := by
  -- Children that are pruned are added to a node that is.
  have hadd : ∀ {f : FNode K V → K × FNode K V → FNode K V} {entries : List (K × FNode K V)}
      {node : FNode K V},
      (∀ e ∈ entries, ∀ n, n.Pruned cmp → (f n e).Pruned cmp) → node.Pruned cmp →
      (entries.foldl f node).Pruned cmp := by
    intro f entries node hf hnode
    induction entries generalizing node with
    | nil => exact hnode
    | cons e entries ih =>
      exact ih (fun e' he' => hf e' (by simp [he'])) (hf e (by simp) node hnode)
  rw [calculateCompleteEventChildren]
  cases hcomplete : completeNodeAtPath cmp scmp ref.writeTree.visibleWrites ref.path with
  | some complete =>
    have hpruned : complete.Pruned cmp := by
      obtain ⟨w, hw, -, rfl⟩ := exists_of_completeNodeAtPath hvalid hcomplete
      exact (hvalid.pruned w hw).getChild _
    refine hadd (fun e he n hn => ?_) .empty
    exact hn.updateImmediateChild ((pruned_enumerateChildren hpruned).2 e he).2 e.1
  | none =>
    have hmerge := hvalid.childCompoundWriteAtPath ref.path
    refine hadd ?_ (hadd ?_ .empty)
    · intro e he n hn
      refine hn.updateImmediateChild ?_ e.1
      revert he
      generalize childCompoundWriteAtPath cmp scmp ref.writeTree.visibleWrites ref.path = merge
        at hmerge
      intro he
      cases hmerge with
      | leaf pruned => exact ((pruned_enumerateChildren pruned).2 e he).2
      | @node children ascending valid =>
        obtain ⟨⟨k, write⟩, hwrite, hvalue⟩ := List.mem_filterMap.mp he
        have hchild := valid _ hwrite
        cases hchild with
        | leaf pruned =>
          obtain rfl := Option.some.inj hvalue
          exact pruned
        | node _ _ => cases hvalue
    · intro e he n hn
      exact hn.updateImmediateChild (pruned_applyToNode (hmerge.childCompoundWriteAtPath [e.1])
        ((pruned_enumerateChildren hserver).2 e he).2) e.1

omit [Std.LawfulEqCmp cmp] in
theorem pruned_shown (hserver : serverSnap.Pruned cmp) :
    (ref.shown cmp scmp serverSnap).Pruned cmp := by
  cases hshadow : ref.shadowingWriteAtPath cmp scmp [] with
  | some node =>
    rw [shown_of_shadowing hshadow]
    exact pruned_shadowing hvalid hshadow
  | none =>
    rw [shown_of_not_shadowing hshadow]
    rw [shadowingWriteAtPath, FPath.child, List.append_nil] at hshadow
    exact pruned_applyToNode (subtreeAtPath_spec hvalid hshadow).1 hserver

/-- The leaves that are shown. -/
theorem leafAt_shown (hserver : serverSnap.Pruned cmp) (hopen : ref.OpenIn cmp serverSnap)
    (path : FPath K) :
    (ref.shown cmp scmp serverSnap).leafAt cmp path
      = (ref.shadowingWriteAtPath cmp scmp path).elim (serverSnap.leafAt cmp path)
          FNode.value? := by
  cases hshadow : ref.shadowingWriteAtPath cmp scmp [] with
  | some node =>
    rw [shown_of_shadowing hshadow]
    rw [shadowingWriteAtPath, FPath.child, List.append_nil] at hshadow
    rw [shadowingWriteAtPath, FPath.child, completeNodeAtPath_append hvalid hshadow]
    rfl
  | none =>
    rw [shown_of_not_shadowing hshadow]
    rw [shadowingWriteAtPath, FPath.child, List.append_nil] at hshadow
    obtain ⟨hsub, hbelow, hwrites⟩ := subtreeAtPath_spec hvalid hshadow
    rw [leafAt_applyToNode hsub hserver (fun w hw => hopen _ (hwrites w hw) _ rfl), hbelow]
    rfl

/-- The node at a path is what is shown of the server's node at the path. -/
theorem getChild_shown (hserver : serverSnap.Pruned cmp) (hopen : ref.OpenIn cmp serverSnap)
    (path : FPath K) :
    (ref.shown cmp scmp serverSnap).getChild cmp path
      = (ref.childRef path).shown cmp scmp (serverSnap.getChild cmp path) := by
  have hchild := hserver.getChild path
  have hpruned : ((ref.childRef path).shown cmp scmp (serverSnap.getChild cmp path)).Pruned cmp :=
    pruned_shown hvalid hchild
  have hleaf : ∀ rest, ((ref.childRef path).shown cmp scmp
      (serverSnap.getChild cmp path)).leafAt cmp rest
        = ((ref.childRef path).shadowingWriteAtPath cmp scmp rest).elim
          ((serverSnap.getChild cmp path).leafAt cmp rest) FNode.value? :=
    leafAt_shown hvalid hchild (hopen.childRef path)
  refine ((pruned_shown hvalid hserver).getChild path).ext_leafAt hpruned ?_
  intro rest
  rw [hleaf, ← FNode.leafAt_append, ← FNode.leafAt_append, leafAt_shown hvalid hserver hopen,
    shadowingWriteAtPath_childRef]

/-- What a server overwrite is found to make of a path that is not written. -/
theorem calculateEventCacheAfterServerOverwrite_eq (hserver : serverSnap.Pruned cmp)
    (hopen : ref.OpenIn cmp serverSnap) {path : FPath K}
    (h : ref.shadowingWriteAtPath cmp scmp path = none) :
    ref.calculateEventCacheAfterServerOverwrite cmp scmp path serverSnap
      = some ((ref.shown cmp scmp serverSnap).getChild cmp path) := by
  have hhere : (ref.childRef path).shadowingWriteAtPath cmp scmp [] = none := by
    rw [shadowingWriteAtPath_childRef, List.append_nil, h]
  rw [getChild_shown hvalid hserver hopen, shown_of_not_shadowing hhere]
  rw [shadowingWriteAtPath] at h
  rw [calculateEventCacheAfterServerOverwrite, hasCompleteWriteAtPath, h,
    childCompoundWriteAtPath_eq h]
  dsimp only
  rw [if_neg (by simp)]
  split
  · next hempty =>
    rw [childRef, eq_empty_of_isEmpty hempty]
    rfl
  · rfl

/-- The complete child is the child of what is shown. -/
theorem calculateCompleteChild_eq (hserver : serverSnap.Pruned cmp)
    (hopen : ref.OpenIn cmp serverSnap) (childKey : K) :
    ref.calculateCompleteChild cmp scmp childKey ⟨serverSnap, true⟩
      = some ((ref.shown cmp scmp serverSnap).getImmediateChild cmp childKey) := by
  have hchild : (ref.shown cmp scmp serverSnap).getImmediateChild cmp childKey
      = (ref.childRef [childKey]).shown cmp scmp (serverSnap.getImmediateChild cmp childKey) := by
    have h := getChild_shown hvalid hserver hopen [childKey]
    rwa [FNode.getChild_cons, FNode.getChild_nil, FNode.getChild_cons, FNode.getChild_nil] at h
  rw [hchild, calculateCompleteChild]
  cases hshadow : (ref.childRef [childKey]).shadowingWriteAtPath cmp scmp [] with
  | some node =>
    rw [shown_of_shadowing hshadow]
    rw [shadowingWriteAtPath_childRef, shadowingWriteAtPath, List.append_nil] at hshadow
    rw [hshadow]
  | none =>
    rw [shown_of_not_shadowing hshadow]
    rw [shadowingWriteAtPath_childRef, shadowingWriteAtPath, List.append_nil] at hshadow
    rw [hshadow]
    simp only [FCacheNode.isCompleteForChild, Bool.true_or, if_true]
    rw [childCompoundWriteAtPath_eq hshadow]
    rfl

end shown

end FWriteTreeRef

end MeetupApp.Firebase
