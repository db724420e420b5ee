import MeetupApp.Firebase.AppliedWrites
import MeetupApp.Framework.Runs

/-! # Core/FWriteTree.m, Core/FWriteRecord.m

    The pending writes of the client: the list of all of them, and the compound
    write `visibleWrites` of those that are shown.  When the server has answered a
    write it is removed.  A removal rebuilds the compound write only if it seems
    necessary: it leaves it alone if a later write covers the removed one, and
    takes the removed paths out if no other write touches them.

    For the writes this app issues (visible ones, to the direct children of a path)
    and answers in the order of the writes, the shortcut is right: the compound
    write always has the effect of the pending writes one after another. -/

namespace MeetupApp.Firebase

open FImmutableTree FCompoundWrite

variable {K V : Type}

/-! ## Section 1: Records -/

/-- What a record holds besides its path. -/
inductive FWriteRecord.Data (K V : Type) where
  | overwrite (node : FNode K V)
  | merge (write : FCompoundWrite K V)

/-- `FWriteRecord` -/
structure FWriteRecord (K V : Type) where
  writeId : Int
  path : FPath K
  data : FWriteRecord.Data K V
  visible : Bool

/-- The writes of a record, at their full paths. -/
def FWriteRecord.writes (record : FWriteRecord K V) : List (FPath K × FNode K V) :=
  match record.data with
  | .overwrite node => [(record.path, node)]
  | .merge write => write.forEach.map (fun w => (record.path.child w.1, w.2))

/-- `FWriteTree` -/
structure FWriteTree (K V : Type) where
  visibleWrites : FCompoundWrite K V
  allWrites : List (FWriteRecord K V)
  lastWriteId : Int

namespace FWriteTree

/-- `init` -/
def init : FWriteTree K V where
  visibleWrites := emptyWrite
  allWrites := []
  lastWriteId := -1

section operations
variable (cmp scmp : K → K → Ordering) [DecidableEq K]

/-- `addOverwriteAtPath:newData:writeId:isVisible:`; the assertion is `none`. -/
def addOverwriteAtPath (tree : FWriteTree K V) (path : FPath K) (newData : FNode K V)
    (writeId : Int) (visible : Bool) : Option (FWriteTree K V) := do
  if writeId > tree.lastWriteId then
    some {
      visibleWrites :=
        ← if visible then addWrite cmp scmp tree.visibleWrites newData path
          else some tree.visibleWrites
      allWrites := tree.allWrites ++ [⟨writeId, path, .overwrite newData, visible⟩]
      lastWriteId := writeId }
  else none

/-- `addMergeAtPath:changedChildren:writeId:` -/
def addMergeAtPath (tree : FWriteTree K V) (path : FPath K)
    (changedChildren : FCompoundWrite K V) (writeId : Int) : Option (FWriteTree K V) := do
  if writeId > tree.lastWriteId then
    some {
      visibleWrites := ← addCompoundWrite cmp scmp tree.visibleWrites changedChildren path
      allWrites := tree.allWrites ++ [⟨writeId, path, .merge changedChildren, true⟩]
      lastWriteId := writeId }
  else none

/-- `record:containsPath:` -/
def recordContainsPath (record : FWriteRecord K V) (path : FPath K) : Bool :=
  match record.data with
  | .overwrite _ => record.path.contains path
  | .merge merge => merge.forEach.any (fun w => (record.path.child w.1).contains path)

/-- The block of `layerTreeFromWrites:filter:treeRoot:`. -/
def layerWrite (filter : FWriteRecord K V → Bool) (treeRoot : FPath K)
    (compoundWrite : FCompoundWrite K V) (record : FWriteRecord K V) :
    Option (FCompoundWrite K V) :=
  if filter record then
    match record.data with
    | .overwrite node =>
      if treeRoot.contains record.path then do
        addWrite cmp scmp compoundWrite node (← FPath.relativePathFrom treeRoot record.path)
      else if record.path.contains treeRoot then do
        let relativePath ← FPath.relativePathFrom record.path treeRoot
        addWrite cmp scmp compoundWrite (node.getChild cmp relativePath) []
      else some compoundWrite
    | .merge merge =>
      if treeRoot.contains record.path then do
        addCompoundWrite cmp scmp compoundWrite merge
          (← FPath.relativePathFrom treeRoot record.path)
      else if record.path.contains treeRoot then do
        let relativePath ← FPath.relativePathFrom record.path treeRoot
        if relativePath = [] then addCompoundWrite cmp scmp compoundWrite merge []
        else
          match completeNodeAtPath cmp scmp merge relativePath with
          | some child => addWrite cmp scmp compoundWrite (child.getChild cmp relativePath.tail) []
          | none => some compoundWrite
      else some compoundWrite
  else some compoundWrite

/-- `layerTreeFromWrites:filter:treeRoot:` -/
def layerTreeFromWrites (writes : List (FWriteRecord K V)) (filter : FWriteRecord K V → Bool)
    (treeRoot : FPath K) : Option (FCompoundWrite K V) :=
  writes.foldlM (layerWrite cmp scmp filter treeRoot) emptyWrite

/-- `defaultFilter`, which keeps hidden writes as well. -/
def defaultFilter : FWriteRecord K V → Bool := fun _ => true

/-- `resetTree` -/
def resetTree (tree : FWriteTree K V) : Option (FWriteTree K V) := do
  some { tree with
    visibleWrites := ← layerTreeFromWrites cmp scmp tree.allWrites defaultFilter []
    lastWriteId := (tree.allWrites.getLast?.map (·.writeId)).getD (-1) }

/-- The loop of `removeWriteId:`, from the last write to the first: whether the removed
    write was visible, and whether it overlaps with other writes. -/
def overlapLoop (writeToRemove : FWriteRecord K V) (index : Nat)
    (allWrites : List (FWriteRecord K V)) : Nat → Bool × Bool → Bool × Bool
  | 0, flags => flags
  | i + 1, (visible, overlaps) =>
    if visible then
      match allWrites[i]? with
      -- not reached: the loop starts at the length
      | none => (visible, overlaps)
      | some currentWrite =>
        if currentWrite.visible then
          if i ≥ index && recordContainsPath currentWrite writeToRemove.path then
            overlapLoop writeToRemove index allWrites i (false, overlaps)
          else if writeToRemove.path.contains currentWrite.path then
            overlapLoop writeToRemove index allWrites i (visible, true)
          else overlapLoop writeToRemove index allWrites i (visible, overlaps)
        else overlapLoop writeToRemove index allWrites i (visible, overlaps)
    else (visible, overlaps)

/-- `removeWriteId:` -/
def removeWriteId (tree : FWriteTree K V) (writeId : Int) : Option (FWriteTree K V × Bool) := do
  let index ← tree.allWrites.findIdx? (fun record => record.writeId = writeId)
  let writeToRemove ← tree.allWrites[index]?
  let tree := { tree with allWrites := tree.allWrites.eraseIdx index }
  match overlapLoop writeToRemove index tree.allWrites tree.allWrites.length
      (writeToRemove.visible, false) with
  | (false, _) => some (tree, false)
  | (true, true) => some (← resetTree cmp scmp tree, true)
  | (true, false) =>
    match writeToRemove.data with
    | .overwrite _ =>
      some ({ tree with
        visibleWrites := removeWriteAtPath scmp tree.visibleWrites writeToRemove.path }, true)
    | .merge merge =>
      some ({ tree with
        visibleWrites := merge.forEach.foldl
          (fun write w => removeWriteAtPath scmp write (writeToRemove.path.child w.1))
          tree.visibleWrites }, true)

end operations

end FWriteTree

end MeetupApp.Firebase
