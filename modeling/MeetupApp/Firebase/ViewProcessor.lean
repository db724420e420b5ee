import MeetupApp.Firebase.WriteTreeRef

/-! # FViewProcessor.m, Core/View/FViewCache.m, Core/Operation

    The view of a listener: the data of the server and what is shown of it.  Each
    operation, of the user or of the server, changes the view at its path only.

    The view is that of a default query: nothing is filtered, the children are in
    the order of their keys, and the nodes have no priorities. -/

namespace MeetupApp.Firebase

open FImmutableTree FCompoundWrite FIndexedFilter

variable {K V : Type}

/-- `value` -/
def FImmutableTree.value {T : Type} : FImmutableTree K T → Option T
  | .mk value _ => value

/-- `childCompoundWrites` -/
def FCompoundWrite.childCompoundWrites : FCompoundWrite K V → List (K × FCompoundWrite K V)
  | .mk _ children => children

/-! ## Section 1: Views -/

/-- `FViewCache` -/
structure FViewCache (K V : Type) where
  cachedEventSnap : FCacheNode K V
  cachedServerSnap : FCacheNode K V

namespace FViewCache

/-- `updateEventSnap:isComplete:isFiltered:` -/
def updateEventSnap (viewCache : FViewCache K V) (eventSnap : FNode K V) (complete : Bool) :
    FViewCache K V :=
  { viewCache with cachedEventSnap := ⟨eventSnap, complete⟩ }

/-- `updateServerSnap:isComplete:isFiltered:` -/
def updateServerSnap (viewCache : FViewCache K V) (serverSnap : FNode K V) (complete : Bool) :
    FViewCache K V :=
  { viewCache with cachedServerSnap := ⟨serverSnap, complete⟩ }

/-- `completeEventSnap` -/
def completeEventSnap (viewCache : FViewCache K V) : Option (FNode K V) :=
  if viewCache.cachedEventSnap.isFullyInitialized then some viewCache.cachedEventSnap.node
  else none

/-- `completeServerSnap` -/
def completeServerSnap (viewCache : FViewCache K V) : Option (FNode K V) :=
  if viewCache.cachedServerSnap.isFullyInitialized then some viewCache.cachedServerSnap.node
  else none

end FViewCache

/-! ## Section 2: Operations -/

/-- `FOperationSource`, without tagged queries. -/
inductive FOperationSource where
  | user
  | server

/-- `FOverwrite`, `FMerge`, `FAckUserWrite` and `FListenComplete`. -/
inductive FOperation (K V : Type) where
  | overwrite (source : FOperationSource) (path : FPath K) (snap : FNode K V)
  | merge (source : FOperationSource) (path : FPath K) (children : FCompoundWrite K V)
  | ackUserWrite (path : FPath K) (affectedTree : FImmutableTree K Unit) (revert : Bool)
  | listenComplete (path : FPath K)

/-- `path` -/
def FOperation.path : FOperation K V → FPath K
  | overwrite _ path _ | merge _ path _ | ackUserWrite path _ _ | listenComplete path => path

/-! ## Section 3: The processor -/

namespace FViewProcessor

/-- The view and the changes of its children. -/
abbrev Tracked (K V : Type) := FViewCache K V × FChildChangeAccumulator K V

section operations
variable (cmp scmp : K → K → Ordering) [DecidableEq K] [DecidableEq V] (debug : Bool)

/-- `updateChildIn:` of the filter with the accumulator. -/
def updateEventChild (eventSnap : FNode K V) (childKey : K) (newChild : FNode K V)
    (affectedPath : FPath K) (accumulator : FChildChangeAccumulator K V) :
    Option (FNode K V × FChildChangeAccumulator K V) := do
  let (newEventSnap, optAccumulator) ←
    updateChildIn cmp debug eventSnap childKey newChild affectedPath (some accumulator)
  some (newEventSnap, ← optAccumulator)

/-- `completeChild:` of `FWriteTreeCompleteChildSource`. -/
def completeChild (writes : FWriteTreeRef K V) (viewCache : FViewCache K V)
    (optCompleteServerCache : Option (FNode K V)) (childKey : K) : Option (FNode K V) :=
  let node := viewCache.cachedEventSnap
  if node.isCompleteForChild cmp childKey then some (node.node.getImmediateChild cmp childKey)
  else
    let serverNode := match optCompleteServerCache with
      | some completeServerCache => ⟨completeServerCache, true⟩
      | none => viewCache.cachedServerSnap
    writes.calculateCompleteChild cmp scmp childKey serverNode

/-- `generateEventCacheAfterServerEvent:path:writesCache:source:accumulator:` -/
def generateEventCacheAfterServerEvent (viewCache : FViewCache K V) (changePath : FPath K)
    (writesCache : FWriteTreeRef K V) (accumulator : FChildChangeAccumulator K V) :
    Option (Tracked K V) := do
  let oldEventSnap := viewCache.cachedEventSnap
  if (writesCache.shadowingWriteAtPath cmp scmp changePath).isSome then
    some (viewCache, accumulator)
  else
    match changePath with
    | [] =>
      -- the assertion that the server data is complete
      let serverCache ← viewCache.completeServerSnap
      let nodeWithLocalWrites ← writesCache.calculateCompleteEventCache cmp scmp (some serverCache)
      let (newEventCache, accumulator) ←
        updateFullNode cmp oldEventSnap.node nodeWithLocalWrites accumulator
      some (viewCache.updateEventSnap newEventCache true, accumulator)
    | childKey :: childChangePath =>
      let newEventChild :=
        if oldEventSnap.isCompleteForChild cmp childKey then
          let oldEventChild := oldEventSnap.node.getImmediateChild cmp childKey
          match writesCache.calculateEventCacheAfterServerOverwrite cmp scmp changePath
              viewCache.cachedServerSnap.node with
          | some eventChildUpdate =>
            some (oldEventChild.updateChild cmp childChangePath eventChildUpdate)
          | none => some oldEventChild
        else writesCache.calculateCompleteChild cmp scmp childKey viewCache.cachedServerSnap
      let (newEventCache, accumulator) ← match newEventChild with
        | some newEventChild =>
          updateEventChild cmp debug oldEventSnap.node childKey newEventChild childChangePath
            accumulator
        | none => some (oldEventSnap.node, accumulator)
      some (viewCache.updateEventSnap newEventCache oldEventSnap.isFullyInitialized, accumulator)

/-- `applyServerOverwriteTo:changePath:snap:writesCache:completeCache:filterServerNode:accumulator:` -/
def applyServerOverwriteTo (oldViewCache : FViewCache K V) (changePath : FPath K)
    (changedSnap : FNode K V) (writesCache : FWriteTreeRef K V)
    (accumulator : FChildChangeAccumulator K V) : Option (Tracked K V) := do
  let oldServerSnap := oldViewCache.cachedServerSnap
  match changePath with
  | [] =>
    generateEventCacheAfterServerEvent cmp scmp debug
      (oldViewCache.updateServerSnap changedSnap true) changePath writesCache accumulator
  | childKey :: childChangePath =>
    if !oldServerSnap.isCompleteForPath cmp changePath && decide (changePath.length > 1) then
      some (oldViewCache, accumulator)
    else
      let childNode := oldServerSnap.node.getImmediateChild cmp childKey
      let newChildNode := childNode.updateChild cmp childChangePath changedSnap
      let (newServerCache, _) ←
        updateChildIn cmp debug oldServerSnap.node childKey newChildNode childChangePath none
      generateEventCacheAfterServerEvent cmp scmp debug
        (oldViewCache.updateServerSnap newServerCache oldServerSnap.isFullyInitialized)
        changePath writesCache accumulator

/-- `applyUserOverwriteTo:changePath:changedSnap:writesCache:completeCache:accumulator:` -/
def applyUserOverwriteTo (oldViewCache : FViewCache K V) (changePath : FPath K)
    (changedSnap : FNode K V) (writesCache : FWriteTreeRef K V)
    (optCompleteCache : Option (FNode K V)) (accumulator : FChildChangeAccumulator K V) :
    Option (Tracked K V) := do
  let oldEventSnap := oldViewCache.cachedEventSnap
  match changePath with
  | [] =>
    let (newEventCache, accumulator) ←
      updateFullNode cmp oldEventSnap.node changedSnap accumulator
    some (oldViewCache.updateEventSnap newEventCache true, accumulator)
  | childKey :: childChangePath =>
    let oldChild := oldEventSnap.node.getImmediateChild cmp childKey
    let newChild :=
      if childChangePath = [] then changedSnap
      else
        match completeChild cmp scmp writesCache oldViewCache optCompleteCache childKey with
        | some childNode => childNode.updateChild cmp childChangePath changedSnap
        | none => .empty
    if !oldChild.isEqual cmp newChild then
      let (newEventSnap, accumulator) ←
        updateEventChild cmp debug oldEventSnap.node childKey newChild childChangePath accumulator
      some (oldViewCache.updateEventSnap newEventSnap oldEventSnap.isFullyInitialized, accumulator)
    else some (oldViewCache, accumulator)

/-- `cache:hasChild:`; a query about the root is one about no child. -/
def cacheHasChild (viewCache : FViewCache K V) (writePath : FPath K) : Bool :=
  match writePath with
  | [] => viewCache.cachedEventSnap.isFullyInitialized
  | childKey :: _ => viewCache.cachedEventSnap.isCompleteForChild cmp childKey

/-- `applyUserMergeTo:path:changedChildren:writesCache:completeCache:accumulator:` -/
def applyUserMergeTo (viewCache : FViewCache K V) (path : FPath K)
    (changedChildren : FCompoundWrite K V) (writesCache : FWriteTreeRef K V)
    (serverCache : Option (FNode K V)) (accumulator : FChildChangeAccumulator K V) :
    Option (Tracked K V) := do
  let apply (inView : Bool) (cur : Tracked K V) (w : FPath K × FNode K V) :
      Option (Tracked K V) :=
    let writePath := path.child w.1
    if cacheHasChild cmp viewCache writePath = inView then
      applyUserOverwriteTo cmp scmp debug cur.1 writePath w.2 writesCache serverCache cur.2
    else some cur
  let curViewCache ← changedChildren.forEach.foldlM (apply true) (viewCache, accumulator)
  changedChildren.forEach.foldlM (apply false) curViewCache

/-- The order in which a dictionary is enumerated. -/
abbrev DictionaryOrder (K V : Type) := List (K × FCompoundWrite K V) → List (K × FCompoundWrite K V)

variable (order : DictionaryOrder K V)

/-- `applyServerMergeTo:path:changedChildren:writesCache:completeCache:filterServerNode:accumulator:` -/
def applyServerMergeTo (viewCache : FViewCache K V) (path : FPath K)
    (changedChildren : FCompoundWrite K V) (writesCache : FWriteTreeRef K V)
    (accumulator : FChildChangeAccumulator K V) : Option (Tracked K V) := do
  if viewCache.cachedServerSnap.node.isEmpty && !viewCache.cachedServerSnap.isFullyInitialized then
    some (viewCache, accumulator)
  else
    let actualMerge ←
      if path = [] then some changedChildren
      else addCompoundWrite cmp scmp emptyWrite changedChildren path
    let serverNode := viewCache.cachedServerSnap.node
    let apply (cur : Tracked K V) (e : K × FCompoundWrite K V) : Option (Tracked K V) :=
      let serverChild := serverNode.getImmediateChild cmp e.1
      let newChild := applyToNode cmp e.2 serverChild
      applyServerOverwriteTo cmp scmp debug cur.1 [e.1] newChild writesCache cur.2
    let known (cur : Tracked K V) (e : K × FCompoundWrite K V) : Option (Tracked K V) :=
      if serverNode.hasChild cmp e.1 then apply cur e else some cur
    let unknown (cur : Tracked K V) (e : K × FCompoundWrite K V) : Option (Tracked K V) :=
      let isUnknownDeepMerge :=
        !viewCache.cachedServerSnap.isCompleteForChild cmp e.1 && e.2.value.isNone
      if !serverNode.hasChild cmp e.1 && !isUnknownDeepMerge then apply cur e else some cur
    let curViewCache ← (order (childCompoundWrites actualMerge)).foldlM known
      (viewCache, accumulator)
    (order (childCompoundWrites actualMerge)).foldlM unknown curViewCache

/-- `ackUserWriteOn:ackPath:affectedTree:writesCache:completeCache:accumulator:` -/
def ackUserWriteOn (viewCache : FViewCache K V) (ackPath : FPath K)
    (affectedTree : FImmutableTree K Unit) (writesCache : FWriteTreeRef K V)
    (accumulator : FChildChangeAccumulator K V) : Option (Tracked K V) := do
  if (writesCache.shadowingWriteAtPath cmp scmp ackPath).isSome then some (viewCache, accumulator)
  else
    let serverCache := viewCache.cachedServerSnap
    if affectedTree.value.isSome then
      -- This is an overwrite.
      if (ackPath = [] ∧ serverCache.isFullyInitialized) ∨ serverCache.isCompleteForPath cmp ackPath
      then
        applyServerOverwriteTo cmp scmp debug viewCache ackPath
          (serverCache.node.getChild cmp ackPath) writesCache accumulator
      else if ackPath = [] then
        let changedChildren ← serverCache.node.enumerateChildren.foldlM
          (fun changedChildren child => addWrite cmp scmp changedChildren child.2 [child.1])
          emptyWrite
        applyServerMergeTo cmp scmp debug order viewCache ackPath changedChildren writesCache
          accumulator
      else some (viewCache, accumulator)
    else
      -- This is a merge.
      let changedChildren ← affectedTree.forEach.foldlM
        (fun changedChildren mergePath =>
          let serverCachePath := ackPath.child mergePath.1
          if serverCache.isCompleteForPath cmp serverCachePath then
            addWrite cmp scmp changedChildren (serverCache.node.getChild cmp serverCachePath)
              mergePath.1
          else some changedChildren)
        emptyWrite
      applyServerMergeTo cmp scmp debug order viewCache ackPath changedChildren writesCache
        accumulator

/-- `revertUserWriteOn:path:writesCache:completeCache:accumulator:` -/
def revertUserWriteOn (viewCache : FViewCache K V) (path : FPath K)
    (writesCache : FWriteTreeRef K V) (accumulator : FChildChangeAccumulator K V) :
    Option (Tracked K V) := do
  if (writesCache.shadowingWriteAtPath cmp scmp path).isSome then some (viewCache, accumulator)
  else
    let oldEventCache := viewCache.cachedEventSnap.node
    let serverCache := viewCache.cachedServerSnap
    let (newEventCache, accumulator) ← match path with
      | [] => do
        let newNode ←
          if serverCache.isFullyInitialized then
            writesCache.calculateCompleteEventCache cmp scmp viewCache.completeServerSnap
          else some (writesCache.calculateCompleteEventChildren cmp scmp serverCache.node)
        updateFullNode cmp oldEventCache newNode accumulator
      | childKey :: affectedPath => do
        let newChild := (writesCache.calculateCompleteChild cmp scmp childKey serverCache).or
          (if serverCache.isCompleteForChild cmp childKey then
            some (oldEventCache.getImmediateChild cmp childKey) else none)
        let (newEventCache, accumulator) ← match newChild with
          | some newChild =>
            updateEventChild cmp debug oldEventCache childKey newChild affectedPath accumulator
          | none =>
            if oldEventCache.hasChild cmp childKey then
              updateEventChild cmp debug oldEventCache childKey .empty affectedPath accumulator
            else some (oldEventCache, accumulator)
        if newEventCache.isEmpty && serverCache.isFullyInitialized then
          -- The old event may have been a leaf.
          let complete ←
            writesCache.calculateCompleteEventCache cmp scmp viewCache.completeServerSnap
          if complete.isLeafNode then updateFullNode cmp newEventCache complete accumulator
          else some (newEventCache, accumulator)
        else some (newEventCache, accumulator)
    let complete := serverCache.isFullyInitialized
      || (writesCache.shadowingWriteAtPath cmp scmp []).isSome
    some (viewCache.updateEventSnap newEventCache complete, accumulator)

/-- `listenCompleteOldCache:path:writesCache:serverCache:accumulator:` -/
def listenCompleteOldCache (viewCache : FViewCache K V) (path : FPath K)
    (writesCache : FWriteTreeRef K V) (accumulator : FChildChangeAccumulator K V) :
    Option (Tracked K V) :=
  let oldServerNode := viewCache.cachedServerSnap
  let newViewCache := viewCache.updateServerSnap oldServerNode.node
    (oldServerNode.isFullyInitialized || decide (path = []))
  generateEventCacheAfterServerEvent cmp scmp debug newViewCache path writesCache accumulator

/-- `maybeAddValueFromOldViewCache:newViewCache:changes:` -/
def maybeAddValue (oldViewCache newViewCache : FViewCache K V) (changes : List (FChange K V)) :
    List (FChange K V) :=
  let eventSnap := newViewCache.cachedEventSnap
  if eventSnap.isFullyInitialized then
    let isLeafOrEmpty := eventSnap.node.isLeafNode || eventSnap.node.isEmpty
    let differs := match oldViewCache.completeEventSnap with
      | some oldNode => !eventSnap.node.isEqual cmp oldNode
      | none => true
    if decide (changes.length > 0) || !oldViewCache.cachedEventSnap.isFullyInitialized
        || (isLeafOrEmpty && differs) then
      changes ++ [.value eventSnap.node]
    else changes
  else changes

/-- `applyOperationOn:operation:writesCache:completeCache:` -/
def applyOperationOn (oldViewCache : FViewCache K V) (operation : FOperation K V)
    (writesCache : FWriteTreeRef K V) (optCompleteCache : Option (FNode K V)) :
    Option (FViewCache K V × List (FChange K V)) := do
  let (newViewCache, accumulator) ← match operation with
    | .overwrite .user path snap =>
      applyUserOverwriteTo cmp scmp debug oldViewCache path snap writesCache optCompleteCache []
    | .overwrite .server path snap =>
      applyServerOverwriteTo cmp scmp debug oldViewCache path snap writesCache []
    | .merge .user path children =>
      applyUserMergeTo cmp scmp debug oldViewCache path children writesCache optCompleteCache []
    | .merge .server path children =>
      applyServerMergeTo cmp scmp debug order oldViewCache path children writesCache []
    | .ackUserWrite path affectedTree false =>
      ackUserWriteOn cmp scmp debug order oldViewCache path affectedTree writesCache []
    | .ackUserWrite path _ true => revertUserWriteOn cmp scmp debug oldViewCache path writesCache []
    | .listenComplete path => listenCompleteOldCache cmp scmp debug oldViewCache path writesCache []
  some (newViewCache, maybeAddValue cmp oldViewCache newViewCache accumulator.changes)

end operations

end FViewProcessor

end MeetupApp.Firebase
