import MeetupApp.Firebase.Operation
import MeetupApp.Firebase.Repo
import MeetupApp.Firebase.ViewWrites

/-! # Core/FSyncTree.m

    The client with one listener: its pending writes and the view of a location.
    Writes of the user go to the pending writes and to the view, the server sends its
    data, and it answers the writes in their order, accepting or rejecting them.

    In every state of every run the view shows what is computed from scratch. -/

namespace MeetupApp.Firebase

open SortedEntries FImmutableTree FCompoundWrite FViewProcessor

variable {K V : Type}

/-! ## Section 1: The client -/

section operations
variable (cmp scmp : K → K → Ordering) [DecidableEq K]

/-- `FSyncTree`, with one view. -/
structure FSyncTree (K V : Type) where
  pendingWriteTree : FWriteTree K V
  view : FView K V

namespace FSyncTree

variable [DecidableEq V] (debug : Bool) (order : DictionaryOrder K V) (location : FPath K)

/-- `applyOperationToSyncPoints:` -/
def applyOperationToSyncPoints (tree : FSyncTree K V) (operation : FOperation K V) :
    Option (FSyncTree K V) :=
  match operation.operationAt cmp scmp location with
  | none => some tree
  | some operation => do
    let view ← tree.view.applyOperation cmp scmp debug order ⟨location, tree.pendingWriteTree⟩
      (operation, tree.view.viewCache.completeServerSnap)
    some { tree with view := view }

/-- `applyUserOverwriteAtPath:newData:writeId:isVisible:`, for a visible write. -/
def applyUserOverwriteAtPath (tree : FSyncTree K V) (path : FPath K) (newData : FNode K V)
    (writeId : Int) : Option (FSyncTree K V) := do
  let pendingWriteTree ←
    tree.pendingWriteTree.addOverwriteAtPath cmp scmp path newData writeId true
  applyOperationToSyncPoints cmp scmp debug order location
    { tree with pendingWriteTree := pendingWriteTree } (.overwrite .user path newData)

/-- `applyUserMergeAtPath:changedChildren:writeId:` -/
def applyUserMergeAtPath (tree : FSyncTree K V) (path : FPath K)
    (changedChildren : FCompoundWrite K V) (writeId : Int) : Option (FSyncTree K V) := do
  let pendingWriteTree ←
    tree.pendingWriteTree.addMergeAtPath cmp scmp path changedChildren writeId
  applyOperationToSyncPoints cmp scmp debug order location
    { tree with pendingWriteTree := pendingWriteTree } (.merge .user path changedChildren)

/-- The `affectedTree` of `ackUserWriteWithWriteId:revert:persist:clock:`. -/
def affectedTree (write : FWriteRecord K V) : FImmutableTree K Unit :=
  match write.data with
  | .overwrite _ => setValue scmp () empty []
  | .merge merge =>
    merge.forEach.foldl (fun affectedTree w => setValue scmp () affectedTree w.1) empty

/-- `ackUserWriteWithWriteId:revert:persist:clock:` -/
def ackUserWriteWithWriteId (tree : FSyncTree K V) (writeId : Int) (revert : Bool) :
    Option (FSyncTree K V) := do
  let write ← tree.pendingWriteTree.allWrites.find? (fun record => record.writeId = writeId)
  let (pendingWriteTree, needToReevaluate) ←
    tree.pendingWriteTree.removeWriteId cmp scmp writeId
  let tree := { tree with pendingWriteTree := pendingWriteTree }
  if needToReevaluate then
    applyOperationToSyncPoints cmp scmp debug order location tree
      (.ackUserWrite write.path (affectedTree scmp write) revert)
  else some tree

/-- What happens to the client. -/
inductive Label (K V : Type) where
  /-- The server sends data, or says that it has sent all. -/
  | server (operation : FOperation K V)
  | overwrite (path : FPath K) (newData : FNode K V) (writeId : Int)
  | merge (path : FPath K) (changedChildren : FCompoundWrite K V) (writeId : Int)
  /-- The server accepts or rejects the oldest pending write. -/
  | answered (revert : Bool)

/-- One step; `none` where something throws or no write is pending. -/
def step (tree : FSyncTree K V) : Label K V → Option (FSyncTree K V)
  | .server operation => applyOperationToSyncPoints cmp scmp debug order location tree operation
  | .overwrite path newData writeId =>
    applyUserOverwriteAtPath cmp scmp debug order location tree path newData writeId
  | .merge path changedChildren writeId =>
    applyUserMergeAtPath cmp scmp debug order location tree path changedChildren writeId
  | .answered revert => do
    let record ← tree.pendingWriteTree.allWrites.head?
    ackUserWriteWithWriteId cmp scmp debug order location tree record.writeId revert

end FSyncTree

end operations

/-! ## Section 2: What holds between two steps -/

namespace FSyncTree

section steps
variable {cmp scmp : K → K → Ordering} [DecidableEq K] {interior : FPath K → Prop}
  {location : FPath K} {debug : Bool} {order : DictionaryOrder K V} {tree tree' : FSyncTree K V}

/-- A step as this app and its server make it: stored nodes, merges with direct children, and
    no leaf of the server above a path that is written. -/
def Plain (cmp scmp : K → K → Ordering) (interior : FPath K → Prop) : Label K V → Prop
  | .server operation => FView.FromServer cmp scmp interior [] operation
  | .overwrite path newData _ => newData.Pruned cmp
    ∧ ∀ above, above <+: path → above ≠ path → interior above
  | .merge path changedChildren _ => Valid cmp scmp changedChildren ∧ changedChildren.Direct
    ∧ ∀ w ∈ changedChildren.forEach, ∀ above, above <+: path.child w.1 →
      above ≠ path.child w.1 → interior above
  | .answered _ => True

/-- New writes have higher numbers, and only pending writes are answered. -/
def Enabled (tree : FSyncTree K V) : Label K V → Prop
  | .server _ => True
  | .overwrite _ _ writeId | .merge _ _ writeId => writeId > tree.pendingWriteTree.lastWriteId
  | .answered _ => tree.pendingWriteTree.allWrites ≠ []

/-- The view shows what the pending writes make of the server's data. -/
structure Consistent (cmp scmp : K → K → Ordering) (interior : FPath K → Prop)
    (location : FPath K) (tree : FSyncTree K V) : Prop where
  agrees : tree.pendingWriteTree.Agrees cmp scmp
  above : ∀ w ∈ tree.pendingWriteTree.pending, ∀ above, above <+: w.1 → above ≠ w.1 →
    interior above
  followed : FView.Followed cmp scmp interior ⟨location, tree.pendingWriteTree⟩ tree.view

variable [Std.TransCmp cmp] [Std.LawfulEqCmp cmp] [Std.TransCmp scmp] [Std.LawfulEqCmp scmp]

omit [Std.TransCmp cmp] [Std.LawfulEqCmp cmp] in
theorem inside_of_pending {pendingWriteTree : FWriteTree K V}
    (h : pendingWriteTree.Agrees cmp scmp)
    (habove : ∀ w ∈ pendingWriteTree.pending, ∀ above, above <+: w.1 → above ≠ w.1 →
      interior above) : Inside interior pendingWriteTree.visibleWrites.forEach := by
  intro w hw above hpre hne
  obtain ⟨w', hw', heq⟩ := FWriteTree.exists_pending h hw
  rw [← heq] at hpre hne
  exact habove w' hw' above hpre hne

omit [DecidableEq K] in
theorem direct_length {changedChildren : FCompoundWrite K V} (h : changedChildren.Direct)
    {w : FPath K × FNode K V} (hw : w ∈ changedChildren.forEach) : w.1.length = 1 := by
  obtain ⟨value, children⟩ := changedChildren
  obtain ⟨hvalue, hchildren⟩ := h
  obtain rfl : value = none := hvalue
  rw [forEach, mem_forEachChild] at hw
  obtain ⟨e, he, below, hbelow, rfl⟩ := hw
  obtain ⟨node, hnode⟩ := hchildren e he
  rw [hnode] at hbelow
  obtain rfl : below = ([], node) := by simpa [ofValue, forEach, forEachChild] using hbelow
  rfl

omit [Std.TransCmp cmp] [Std.LawfulEqCmp cmp] in
/-- Writes beside a path change nothing there. -/
theorem cover_apart {writes : List (FPath K × FNode K V)} {other : FPath K}
    (h : ∀ w ∈ writes, ¬ w.1 <+: other ∧ ¬ other <+: w.1) (complete : Option (FNode K V)) :
    cover cmp writes other complete = complete := by
  induction writes generalizing complete with
  | nil => rfl
  | cons w writes ih =>
    obtain ⟨hbelow, habove⟩ := h w (by simp)
    have hstep : coverStep cmp other complete w = complete := by
      rw [coverStep, if_neg hbelow]
      simp [habove]
    rw [cover, List.foldl_cons, hstep]
    exact ih (fun w' hw' => h w' (by simp [hw'])) complete

omit [Std.TransCmp cmp] [Std.LawfulEqCmp cmp] in
/-- What is written below a path beside the location changes nothing there. -/
theorem cover_beside {writes : List (FPath K × FNode K V)} {path : FPath K}
    (hbelow : ¬ location <+: path) (hcovers : ¬ path <+: location)
    (hwrites : ∀ w ∈ writes, path <+: w.1) (other : FPath K) (z : Option (FNode K V)) :
    cover cmp writes (location ++ other) z = z := by
  refine cover_apart (fun w hw => ⟨fun hpre => ?_, fun hpre => ?_⟩) z
  · exact (List.prefix_or_prefix_of_prefix ((hwrites w hw).trans hpre)
      (List.prefix_append _ _)).elim hcovers hbelow
  · exact (List.prefix_or_prefix_of_prefix (hwrites w hw)
      ((List.prefix_append _ _).trans hpre)).elim hcovers hbelow

omit [Std.TransCmp cmp] [Std.LawfulEqCmp cmp] in
/-- Of direct children one covers a path below. -/
theorem cover_direct {l : List (FPath K × FNode K V)} {path rest : FPath K} {k : K}
    {node : FNode K V} (hl : ∀ w ∈ l, w.1.length = 1 ∧ (w.1 = [k] → w.2 = node))
    {complete : Option (FNode K V)}
    (hcomplete : (∃ w ∈ l, w.1 = [k]) ∨ complete = some (node.getChild cmp rest)) :
    cover cmp (l.map (fun w => (path.child w.1, w.2))) (path ++ k :: rest) complete
      = some (node.getChild cmp rest) := by
  induction l generalizing complete with
  | nil =>
    refine hcomplete.resolve_left ?_
    rintro ⟨w, hw, -⟩
    cases hw
  | cons w l ih =>
    obtain ⟨hlength, hnode⟩ := hl w (by simp)
    rw [List.map_cons, cover, List.foldl_cons]
    refine ih (fun w' hw' => hl w' (by simp [hw'])) ?_
    obtain ⟨j, hj⟩ := List.length_eq_one_iff.mp hlength
    by_cases hk : j = k
    · subst hk
      right
      have hpre : path.child w.1 <+: path ++ j :: rest := by
        rw [FPath.child, hj]
        exact (List.prefix_append_right_inj path).mpr (by simp)
      rw [coverStep, if_pos hpre, hnode hj, FPath.child, hj]
      simp
    · have hnot : w.1 ≠ [k] := by
        rw [hj]
        simpa using hk
      refine hcomplete.imp ?_ (fun heq => ?_)
      · rintro ⟨w', hw', heq⟩
        rcases List.mem_cons.mp hw' with rfl | hw'
        · exact absurd heq hnot
        · exact ⟨w', hw', heq⟩
      · have hbelow : ¬ path ++ [j] <+: path ++ k :: rest := by
          rw [List.prefix_append_right_inj, List.cons_prefix_cons]
          exact fun hcon => hk hcon.1
        have habove : ¬ path ++ k :: rest <+: path ++ [j] := by
          rw [List.prefix_append_right_inj, List.cons_prefix_cons]
          exact fun hcon => hk hcon.1.symm
        rw [heq, coverStep, FPath.child, hj]
        dsimp only
        rw [if_neg hbelow, Option.map_some, if_neg habove]

omit [Std.TransCmp cmp] [Std.LawfulEqCmp cmp] in
variable (scmp) in
theorem affectedTree_spec (write : FWriteRecord K V) :
    Ordered scmp (FSyncTree.affectedTree scmp write)
      ∧ ∀ w ∈ write.writes, ∃ m ∈ (FSyncTree.affectedTree scmp write).forEach,
        write.path ++ m.1 = w.1 := by
  obtain ⟨writeId, path, data, visible⟩ := write
  cases data with
  | overwrite node =>
    refine ⟨ordered_empty.setValue () [], ?_⟩
    intro w hw
    obtain rfl := List.mem_singleton.mp hw
    exact ⟨([], ()), mem_forEach_setValue ordered_empty (.inl rfl), List.append_nil path⟩
  | merge merge =>
    have hfold : ∀ (l : List (FPath K × FNode K V)) (tree : FImmutableTree K Unit),
        Ordered scmp tree →
        Ordered scmp (l.foldl (fun affectedTree w =>
          FImmutableTree.setValue scmp () affectedTree w.1) tree)
        ∧ ∀ other, ((∃ w ∈ l, w.1 = other) ∨ (other, ()) ∈ tree.forEach) →
          (other, ()) ∈ (l.foldl (fun affectedTree w =>
            FImmutableTree.setValue scmp () affectedTree w.1) tree).forEach := by
      intro l
      induction l with
      | nil =>
        intro tree htree
        refine ⟨htree, fun other hother => hother.resolve_left ?_⟩
        rintro ⟨w, hw, -⟩
        cases hw
      | cons w l ih =>
        intro tree htree
        obtain ⟨hordered, hmem⟩ := ih _ (htree.setValue () w.1)
        refine ⟨hordered, fun other hother => hmem other ?_⟩
        rcases hother with ⟨w', hw', rfl⟩ | hother
        · rcases List.mem_cons.mp hw' with rfl | hw'
          · exact .inr (mem_forEach_setValue htree (.inl rfl))
          · exact .inl ⟨w', hw', rfl⟩
        · exact .inr (mem_forEach_setValue htree (.inr hother))
    obtain ⟨hordered, hmem⟩ := hfold merge.forEach empty ordered_empty
    refine ⟨hordered, ?_⟩
    intro w hw
    obtain ⟨below, hbelow, rfl⟩ := List.mem_map.mp hw
    exact ⟨(below.1, ()), hmem below.1 (.inl ⟨below, hbelow, rfl⟩), rfl⟩

omit [Std.LawfulEqCmp cmp] in
/-- One step down, an operation of the server is one still. -/
theorem fromServer_operationForChild {base : FPath K} {k : K}
    {operation operation' : FOperation K V} (h : FView.FromServer cmp scmp interior base operation)
    (hfront : ∀ front rest, operation.path = front :: rest → front = k)
    (harrives : operation.operationForChild cmp scmp k = some operation') :
    FView.FromServer cmp scmp interior (base ++ [k]) operation' := by
  have hbase : ∀ path : FPath K, base ++ k :: path = base ++ [k] ++ path := by simp
  cases h with
  | @overwrite path snap pruned fits =>
    cases path with
    | nil =>
      obtain rfl := Option.some.inj harrives
      rw [List.append_nil] at fits
      have hchild := fits.getChild [k]
      rw [FNode.getChild_cons, FNode.getChild_nil] at hchild
      exact .overwrite (pruned.getImmediateChild k) (by rwa [List.append_nil])
    | cons front path =>
      obtain rfl := hfront front path rfl
      obtain rfl := Option.some.inj harrives
      exact .overwrite pruned (by rwa [← hbase])
  | @merge path children valid fits =>
    cases path with
    | nil =>
      rw [List.append_nil] at fits
      have hvalid := valid.childCompoundWriteAtPath [k]
      have hbelow : ∀ rest node, completeNodeAtPath cmp scmp
          (childCompoundWriteAtPath cmp scmp children [k]) rest = some node →
          Fits cmp interior (base ++ [k] ++ [] ++ rest) node := by
        intro rest node hnode
        rw [completeNodeAtPath_childCompoundWriteAtPath valid] at hnode
        have hfit := fits _ _ hnode
        rwa [List.append_nil, List.append_assoc]
      rw [FOperation.operationForChild] at harrives
      generalize childCompoundWriteAtPath cmp scmp children [k] = childTree at *
      split at harrives
      · cases harrives
      · split at harrives
        · next rootWrite hroot =>
          obtain rfl := Option.some.inj harrives
          cases hvalid with
          | leaf pruned =>
            obtain rfl := Option.some.inj hroot
            have hfit := hbelow [] _ (completeNodeAtPath_leaf _ [])
            rw [FNode.getChild_nil, List.append_nil] at hfit
            exact .overwrite pruned hfit
          | node ascending valid => cases hroot
        · obtain rfl := Option.some.inj harrives
          exact .merge hvalid hbelow
    | cons front path =>
      obtain rfl := hfront front path rfl
      obtain rfl := Option.some.inj harrives
      exact .merge valid (by rwa [← hbase])
  | listenComplete path =>
    cases path with
    | nil =>
      obtain rfl := Option.some.inj harrives
      exact .listenComplete []
    | cons front path =>
      obtain rfl := Option.some.inj harrives
      exact .listenComplete path

omit [Std.LawfulEqCmp cmp] in
/-- What arrives at a location of an operation of the server. -/
theorem fromServer_operationAt {base : FPath K} {operation operation' : FOperation K V}
    (h : FView.FromServer cmp scmp interior base operation)
    (harrives : operation.operationAt cmp scmp location = some operation') :
    FView.FromServer cmp scmp interior (base ++ location) operation' := by
  induction location generalizing base operation with
  | nil =>
    obtain rfl := Option.some.inj harrives
    rwa [List.append_nil]
  | cons k location ih =>
    rw [FOperation.operationAt] at harrives
    rw [List.append_cons]
    cases hpath : operation.path with
    | nil =>
      rw [hpath] at harrives
      obtain ⟨next, hnext, hrest⟩ := Option.bind_eq_some_iff.mp harrives
      exact ih (fromServer_operationForChild h (by simp [hpath]) hnext) hrest
    | cons front path =>
      rw [hpath] at harrives
      dsimp only at harrives
      split at harrives
      · next hfront =>
        obtain ⟨next, hnext, hrest⟩ := Option.bind_eq_some_iff.mp harrives
        refine ih (fromServer_operationForChild h ?_ hnext) hrest
        intro front' rest heq
        rw [hpath] at heq
        rw [← (List.cons.inj heq).1, hfront]
      · cases harrives

variable [DecidableEq V]

omit [DecidableEq V] in
/-- The view stays current if the same is written at the location and below. -/
theorem Consistent.followed_congr {pendingWriteTree : FWriteTree K V}
    (h : Consistent cmp scmp interior location tree)
    (hagrees : pendingWriteTree.Agrees cmp scmp)
    (hinside : Inside interior pendingWriteTree.visibleWrites.forEach)
    (hsame : ∀ path, completeNodeAtPath cmp scmp pendingWriteTree.visibleWrites (location ++ path)
      = completeNodeAtPath cmp scmp tree.pendingWriteTree.visibleWrites (location ++ path)) :
    FView.Followed cmp scmp interior ⟨location, pendingWriteTree⟩ tree.view := by
  let ref : FWriteTreeRef K V := ⟨location, tree.pendingWriteTree⟩
  let ref' : FWriteTreeRef K V := ⟨location, pendingWriteTree⟩
  have hvalid : Valid cmp scmp ref.writeTree.visibleWrites := h.agrees.valid
  have hvalid' : Valid cmp scmp ref'.writeTree.visibleWrites := hagrees.valid
  have hpath : ref'.path = ref.path := rfl
  exact ⟨h.followed.kept.congr hvalid hvalid' (inside_of_pending h.agrees h.above) hinside hpath
    (fun path _ => hsame path), h.followed.child, h.followed.value⟩

omit [Std.TransCmp cmp] [Std.LawfulEqCmp cmp] [Std.TransCmp scmp] [Std.LawfulEqCmp scmp]
  [DecidableEq V] in
theorem Consistent.pruned_cache (h : Consistent cmp scmp interior location tree) :
    ∀ node, tree.view.viewCache.completeServerSnap = some node → node.Pruned cmp := by
  intro node hnode
  rw [FViewCache.completeServerSnap] at hnode
  split at hnode
  · obtain rfl := Option.some.inj hnode
    exact h.followed.kept.sound.server
  · cases hnode

/-! ## Section 3: Writes of the user -/

omit [Std.TransCmp scmp] [Std.LawfulEqCmp scmp] in
/-- An operation that arrives is applied. -/
theorem exists_applyOperationToSyncPoints {pendingWriteTree : FWriteTree K V}
    {operation operation' : FOperation K V}
    (hfollowed : FView.Followed cmp scmp interior ⟨location, tree.pendingWriteTree⟩ tree.view)
    (harrives : operation.operationAt cmp scmp location = some operation') {r : Tracked K V}
    (hr : applyOperationOn cmp scmp debug order tree.view.viewCache operation'
        ⟨location, pendingWriteTree⟩ tree.view.viewCache.completeServerSnap
      = some (r.1, maybeAddValue cmp tree.view.viewCache r.1 r.2.changes))
    (hkept : Kept cmp scmp interior ⟨location, pendingWriteTree⟩ (fun _ => False)
      (tree.view.viewCache.cachedEventSnap.node.getImmediateChild cmp) r)
    (hfull : tree.view.viewCache.cachedServerSnap.isFullyInitialized = true →
      r.1.cachedServerSnap.isFullyInitialized = true) :
    ∃ view, applyOperationToSyncPoints cmp scmp debug order location
        { tree with pendingWriteTree := pendingWriteTree } operation
          = some ⟨pendingWriteTree, view⟩
      ∧ FView.Followed cmp scmp interior ⟨location, pendingWriteTree⟩ view := by
  obtain ⟨view, hview, h⟩ := hfollowed.exists_applyOperation hr hkept hfull
  refine ⟨view, ?_, h⟩
  rw [applyOperationToSyncPoints, harrives]
  dsimp only
  rw [hview]
  rfl

omit [Std.TransCmp cmp] [Std.LawfulEqCmp cmp] [Std.TransCmp scmp] [Std.LawfulEqCmp scmp] in
/-- Operations that do not arrive change nothing. -/
theorem applyOperationToSyncPoints_none {operation : FOperation K V}
    (harrives : operation.operationAt cmp scmp location = none) :
    applyOperationToSyncPoints cmp scmp debug order location tree operation = some tree := by
  rw [applyOperationToSyncPoints, harrives]

omit [Std.TransCmp cmp] [Std.LawfulEqCmp cmp] [Std.TransCmp scmp] [Std.LawfulEqCmp scmp]
  [DecidableEq V] in
/-- Above what is pending there are no leaves, after one more write too. -/
theorem Consistent.above_append (h : Consistent cmp scmp interior location tree)
    {record : FWriteRecord K V}
    (habove : ∀ w ∈ record.writes, ∀ above, above <+: w.1 → above ≠ w.1 → interior above)
    (write : FCompoundWrite K V) (writeId : Int) :
    ∀ w ∈ FWriteTree.pending ⟨write, tree.pendingWriteTree.allWrites ++ [record], writeId⟩,
      ∀ above, above <+: w.1 → above ≠ w.1 → interior above := by
  intro w hw
  rw [FWriteTree.pending_append] at hw
  rcases List.mem_append.mp hw with hw | hw
  · exact h.above w hw
  · exact habove w hw

/-- A write that covers the location is what the view shows. -/
theorem Consistent.covered (h : Consistent cmp scmp interior location tree)
    {pendingWriteTree : FWriteTree K V} (hagrees : pendingWriteTree.Agrees cmp scmp)
    {operation : FOperation K V} {node : FNode K V} (hpruned : node.Pruned cmp)
    (harrives : operation.operationAt cmp scmp location = some (.overwrite .user [] node))
    (hcomplete : completeNodeAtPath cmp scmp pendingWriteTree.visibleWrites location = some node) :
    ∃ view, applyOperationToSyncPoints cmp scmp debug order location
        { tree with pendingWriteTree := pendingWriteTree } operation
          = some ⟨pendingWriteTree, view⟩
      ∧ FView.Followed cmp scmp interior ⟨location, pendingWriteTree⟩ view := by
  let ref : FWriteTreeRef K V := ⟨location, tree.pendingWriteTree⟩
  let ref' : FWriteTreeRef K V := ⟨location, pendingWriteTree⟩
  have hvalid' : Valid cmp scmp ref'.writeTree.visibleWrites := hagrees.valid
  have hpath : ref'.path = ref.path := rfl
  have hshadow : ref'.shadowingWriteAtPath cmp scmp [] = some node := by
    rw [FWriteTreeRef.shadowingWriteAtPath, FPath.child, List.append_nil, hcomplete]
  obtain ⟨r, hr, hkept, hserver⟩ := h.followed.kept.coverUser hvalid' hpath h.pruned_cache
    hpruned hshadow
  refine exists_applyOperationToSyncPoints h.followed harrives ?_ hkept
    (fun hold => by rw [hserver, hold])
  rw [applyOperationOn, hr]
  rfl

theorem Consistent.overwrite (h : Consistent cmp scmp interior location tree) {path : FPath K}
    {newData : FNode K V} {writeId : Int}
    (hplain : Plain cmp scmp interior (.overwrite path newData writeId))
    (hwriteId : writeId > tree.pendingWriteTree.lastWriteId) :
    ∃ tree', applyUserOverwriteAtPath cmp scmp debug order location tree path newData writeId
        = some tree'
      ∧ Consistent cmp scmp interior location tree' := by
  obtain ⟨hpruned, habove⟩ := hplain
  obtain ⟨write, hadd⟩ := exists_addWrite h.agrees.valid newData path
  let pendingWriteTree : FWriteTree K V :=
    ⟨write, tree.pendingWriteTree.allWrites ++ [⟨writeId, path, .overwrite newData, true⟩], writeId⟩
  have hadded : tree.pendingWriteTree.addOverwriteAtPath cmp scmp path newData writeId true
      = some pendingWriteTree := by
    rw [FWriteTree.addOverwriteAtPath, if_pos hwriteId, if_pos rfl, hadd]
    rfl
  have hagrees : pendingWriteTree.Agrees cmp scmp :=
    h.agrees.add (FWriteTree.plainRecord_overwrite hpruned)
      ((FWriteTree.addWrites_singleton _ _).trans hadd) writeId
  have haboveAll : ∀ w ∈ pendingWriteTree.pending, ∀ above, above <+: w.1 → above ≠ w.1 →
      interior above := by
    refine h.above_append (fun w hw => ?_) write writeId
    obtain rfl := List.mem_singleton.mp hw
    exact habove
  have hinside := inside_of_pending h.agrees h.above
  have hinside' := inside_of_pending hagrees haboveAll
  let ref : FWriteTreeRef K V := ⟨location, tree.pendingWriteTree⟩
  let ref' : FWriteTreeRef K V := ⟨location, pendingWriteTree⟩
  have hvalid : Valid cmp scmp ref.writeTree.visibleWrites := h.agrees.valid
  have hvalid' : Valid cmp scmp ref'.writeTree.visibleWrites := hagrees.valid
  have hpath : ref'.path = ref.path := rfl
  -- The write is at or below the location, above it, or beside it.
  have hview : ∃ view, applyOperationToSyncPoints cmp scmp debug order location
        { tree with pendingWriteTree := pendingWriteTree } (.overwrite .user path newData)
          = some ⟨pendingWriteTree, view⟩
      ∧ FView.Followed cmp scmp interior ⟨location, pendingWriteTree⟩ view := by
    by_cases hbelow : location <+: path
    · obtain ⟨rest, rfl⟩ := hbelow
      obtain ⟨r, hr, hkept, hserver⟩ := h.followed.kept.applyUserOverwriteTo hvalid hvalid'
        hinside hinside' hpath h.pruned_cache hpruned hadd habove
      refine exists_applyOperationToSyncPoints h.followed
        (FOperation.operationAt_overwrite_below location rest .user newData) ?_ hkept
        (fun hold => by rw [hserver, hold])
      rw [applyOperationOn, hr]
      rfl
    by_cases hcovers : path <+: location
    · obtain ⟨rest, rfl⟩ := hcovers
      refine h.covered hagrees (hpruned.getChild rest)
        (FOperation.operationAt_overwrite_above path rest .user newData) ?_
      rw [completeNodeAtPath_addWrite h.agrees.valid hadd, if_pos (List.prefix_append _ _),
        List.drop_left]
    · refine ⟨tree.view, applyOperationToSyncPoints_none
        (FOperation.operationAt_apart hbelow hcovers), h.followed_congr hagrees hinside' ?_⟩
      intro other
      rw [hagrees.complete, h.agrees.complete, FWriteTree.pending_append, cover_append]
      refine cover_beside hbelow hcovers (fun w hw => ?_) other _
      obtain rfl := List.mem_singleton.mp hw
      exact List.prefix_refl _
  obtain ⟨view, hview, hfollowed⟩ := hview
  refine ⟨⟨pendingWriteTree, view⟩, ?_, hagrees, haboveAll, hfollowed⟩
  rw [applyUserOverwriteAtPath, hadded]
  exact hview

/-- A merge above the location covers it, or writes beside it only. -/
theorem Consistent.mergedAbove {path : FPath K} {k : K} {rest : FPath K}
    (h : Consistent cmp scmp interior (path ++ k :: rest) tree)
    {changedChildren : FCompoundWrite K V} (hchanged : Valid cmp scmp changedChildren)
    (hdirect : changedChildren.Direct) {pendingWriteTree : FWriteTree K V}
    (hagrees : pendingWriteTree.Agrees cmp scmp)
    (hinside' : Inside interior pendingWriteTree.visibleWrites.forEach)
    (hcomplete : ∀ other, completeNodeAtPath cmp scmp pendingWriteTree.visibleWrites other
      = cover cmp (changedChildren.forEach.map (fun w => (path.child w.1, w.2))) other
        (completeNodeAtPath cmp scmp tree.pendingWriteTree.visibleWrites other)) :
    ∃ view, applyOperationToSyncPoints cmp scmp debug order (path ++ k :: rest)
        { tree with pendingWriteTree := pendingWriteTree } (.merge .user path changedChildren)
          = some ⟨pendingWriteTree, view⟩
      ∧ FView.Followed cmp scmp interior ⟨path ++ k :: rest, pendingWriteTree⟩ view := by
  have hlength : ∀ w ∈ changedChildren.forEach, w.1.length = 1 :=
    fun w hw => direct_length hdirect hw
  have harrives := FOperation.operationAt_merge_above cmp scmp hdirect path k rest .user
  cases hchild : completeNodeAtPath cmp scmp changedChildren [k] with
  | some node =>
    rw [hchild, Option.map_some] at harrives
    obtain ⟨w, hw, hpre, hnode⟩ := exists_of_completeNodeAtPath hchanged hchild
    have hkey : w.1 = [k] := hpre.eq_of_length (hlength w hw)
    have hprunedNode : node.Pruned cmp := by
      rw [hnode]
      exact (hchanged.pruned w hw).getChild _
    refine h.covered hagrees (hprunedNode.getChild rest) harrives ?_
    rw [hcomplete]
    refine cover_direct (fun w' hw' => ⟨hlength w' hw', fun hkey' => ?_⟩) (.inl ⟨w, hw, hkey⟩)
    have hsame := (completeNodeAtPath_of_mem hchanged hw').1
    rw [hkey', hchild] at hsame
    exact (Option.some.inj hsame).symm
  | none =>
    rw [hchild, Option.map_none] at harrives
    refine ⟨tree.view, applyOperationToSyncPoints_none harrives,
      h.followed_congr hagrees hinside' (fun other => ?_)⟩
    rw [hcomplete]
    refine cover_apart (fun _ hmem => ?_) _
    obtain ⟨w, hw, rfl⟩ := List.mem_map.mp hmem
    obtain ⟨j, hj⟩ := List.length_eq_one_iff.mp (hlength w hw)
    have hk : j ≠ k := by
      rintro rfl
      have hsame := (completeNodeAtPath_of_mem hchanged hw).1
      rw [hj, hchild] at hsame
      cases hsame
    rw [FPath.child, hj, List.append_assoc, List.prefix_append_right_inj,
      List.prefix_append_right_inj, List.cons_append, List.cons_prefix_cons,
      List.cons_prefix_cons]
    exact ⟨fun hcon => hk hcon.1, fun hcon => hk hcon.1.symm⟩

theorem Consistent.merge (h : Consistent cmp scmp interior location tree) {path : FPath K}
    {changedChildren : FCompoundWrite K V} {writeId : Int}
    (hplain : Plain cmp scmp interior (.merge path changedChildren writeId))
    (hwriteId : writeId > tree.pendingWriteTree.lastWriteId) :
    ∃ tree', applyUserMergeAtPath cmp scmp debug order location tree path changedChildren writeId
        = some tree'
      ∧ Consistent cmp scmp interior location tree' := by
  obtain ⟨hchanged, hdirect, habove⟩ := hplain
  have hlength : ∀ w ∈ changedChildren.forEach, w.1.length = 1 :=
    fun w hw => direct_length hdirect hw
  have hpruned : ∀ w ∈ changedChildren.forEach.map (fun w => (path.child w.1, w.2)),
      w.2.Pruned cmp := by
    intro _ hmem
    obtain ⟨w, hw, rfl⟩ := List.mem_map.mp hmem
    exact hchanged.pruned w hw
  obtain ⟨write, hadd, -, -⟩ := addWrites_spec h.agrees.valid hpruned
  have hmerge := (FWriteTree.addCompoundWrite_eq _ _ _).trans hadd
  let pendingWriteTree : FWriteTree K V :=
    ⟨write, tree.pendingWriteTree.allWrites ++ [⟨writeId, path, .merge changedChildren, true⟩],
      writeId⟩
  have hadded : tree.pendingWriteTree.addMergeAtPath cmp scmp path changedChildren writeId
      = some pendingWriteTree := by
    rw [FWriteTree.addMergeAtPath, if_pos hwriteId, hmerge]
    rfl
  have hagrees : pendingWriteTree.Agrees cmp scmp :=
    h.agrees.add (FWriteTree.plainRecord_merge hchanged hlength) hadd writeId
  have haboveAll : ∀ w ∈ pendingWriteTree.pending, ∀ above, above <+: w.1 → above ≠ w.1 →
      interior above := by
    refine h.above_append (fun w hw => ?_) write writeId
    obtain ⟨below, hbelow, rfl⟩ := List.mem_map.mp hw
    exact habove below hbelow
  have hinside := inside_of_pending h.agrees h.above
  have hinside' := inside_of_pending hagrees haboveAll
  have hcomplete : ∀ other, completeNodeAtPath cmp scmp pendingWriteTree.visibleWrites other
      = cover cmp (changedChildren.forEach.map (fun w => (path.child w.1, w.2))) other
        (completeNodeAtPath cmp scmp tree.pendingWriteTree.visibleWrites other) := by
    intro other
    rw [hagrees.complete, h.agrees.complete, FWriteTree.pending_append, cover_append]
    rfl
  let ref : FWriteTreeRef K V := ⟨location, tree.pendingWriteTree⟩
  let ref' : FWriteTreeRef K V := ⟨location, pendingWriteTree⟩
  have hvalid : Valid cmp scmp ref.writeTree.visibleWrites := h.agrees.valid
  have hvalid' : Valid cmp scmp ref'.writeTree.visibleWrites := hagrees.valid
  have hpath : ref'.path = ref.path := rfl
  have hview : ∃ view, applyOperationToSyncPoints cmp scmp debug order location
        { tree with pendingWriteTree := pendingWriteTree } (.merge .user path changedChildren)
          = some ⟨pendingWriteTree, view⟩
      ∧ FView.Followed cmp scmp interior ⟨location, pendingWriteTree⟩ view := by
    by_cases hbelow : location <+: path
    · obtain ⟨rest, rfl⟩ := hbelow
      obtain ⟨r, hr, hkept, hserver⟩ := h.followed.kept.applyUserMergeTo hvalid hvalid'
        hinside hinside' hpath h.pruned_cache hchanged
        (fun w hw hnil => by have := hlength w hw; rw [hnil] at this; cases this) hmerge habove
      refine exists_applyOperationToSyncPoints h.followed
        (FOperation.operationAt_merge_below location rest .user changedChildren) ?_ hkept
        (fun hold => by rw [hserver, hold])
      rw [applyOperationOn, hr]
      rfl
    by_cases hcovers : path <+: location
    · obtain ⟨tail, rfl⟩ := hcovers
      cases tail with
      | nil => exact absurd (by rw [List.append_nil]) hbelow
      | cons k rest =>
        exact h.mergedAbove hchanged hdirect hagrees hinside' hcomplete
    · refine ⟨tree.view, applyOperationToSyncPoints_none
        (FOperation.operationAt_apart hbelow hcovers), h.followed_congr hagrees hinside' ?_⟩
      intro other
      rw [hcomplete]
      refine cover_beside hbelow hcovers (fun _ hmem => ?_) other _
      obtain ⟨w, -, rfl⟩ := List.mem_map.mp hmem
      exact List.prefix_append _ _
  obtain ⟨view, hview, hfollowed⟩ := hview
  refine ⟨⟨pendingWriteTree, view⟩, ?_, hagrees, haboveAll, hfollowed⟩
  rw [applyUserMergeAtPath, hadded]
  exact hview

/-! ## Section 4: Answers of the server -/

omit [DecidableEq V] [Std.TransCmp cmp] [Std.LawfulEqCmp cmp] [Std.TransCmp scmp]
  [Std.LawfulEqCmp scmp] in
/-- If nothing has to be evaluated again the compound write is the same. -/
theorem removeWriteId_unchanged {pendingWriteTree pendingWriteTree' : FWriteTree K V}
    {record : FWriteRecord K V} {rest : List (FWriteRecord K V)}
    (hall : pendingWriteTree.allWrites = record :: rest)
    (h : pendingWriteTree.removeWriteId cmp scmp record.writeId = some (pendingWriteTree', false)) :
    pendingWriteTree'.visibleWrites = pendingWriteTree.visibleWrites := by
  simp only [FWriteTree.removeWriteId, hall, List.findIdx?_cons, decide_true, if_true,
    Option.bind_eq_bind, Option.bind_some, List.getElem?_cons_zero, List.eraseIdx_cons_zero] at h
  generalize FWriteTree.overlapLoop record 0 rest rest.length (record.visible, false) = flags at h
  obtain ⟨visible, overlaps⟩ := flags
  cases visible with
  | false =>
    obtain ⟨rfl, -⟩ := Prod.mk.inj (Option.some.inj h)
    rfl
  | true =>
    cases overlaps with
    | true =>
      simp only [Option.bind_eq_some_iff] at h
      obtain ⟨_, -, heq⟩ := h
      cases (Prod.mk.inj (Option.some.inj heq)).2
    | false =>
      obtain ⟨writeId, path, data, visible⟩ := record
      cases data with
      | overwrite node => cases (Prod.mk.inj (Option.some.inj h)).2
      | merge merge => cases (Prod.mk.inj (Option.some.inj h)).2

omit [DecidableEq V] in
/-- Once a record is answered, the other writes show the same, except where it wrote. -/
theorem Consistent.kept_answered (h : Consistent cmp scmp interior location tree)
    {pendingWriteTree : FWriteTree K V} (hagrees : pendingWriteTree.Agrees cmp scmp)
    (hinside' : Inside interior pendingWriteTree.visibleWrites.forEach)
    {record : FWriteRecord K V}
    (hpending : tree.pendingWriteTree.pending = record.writes ++ pendingWriteTree.pending) :
    Kept cmp scmp interior ⟨location, pendingWriteTree⟩
      (fun other => ∃ w ∈ record.writes, w.1 <+: location ++ other)
      (tree.view.viewCache.cachedEventSnap.node.getImmediateChild cmp)
      (tree.view.viewCache, []) := by
  let ref : FWriteTreeRef K V := ⟨location, tree.pendingWriteTree⟩
  let ref' : FWriteTreeRef K V := ⟨location, pendingWriteTree⟩
  have hvalid : Valid cmp scmp ref.writeTree.visibleWrites := h.agrees.valid
  have hvalid' : Valid cmp scmp ref'.writeTree.visibleWrites := hagrees.valid
  have hpath : ref'.path = ref.path := rfl
  have hinside := inside_of_pending h.agrees h.above
  refine h.followed.kept.congr hvalid hvalid' hinside hinside' hpath (fun other hother => ?_)
  change ((∃ w ∈ record.writes, w.1 <+: location ++ other) →
    (completeNodeAtPath cmp scmp pendingWriteTree.visibleWrites (location ++ other)).isSome)
    at hother
  change completeNodeAtPath cmp scmp pendingWriteTree.visibleWrites (location ++ other)
    = completeNodeAtPath cmp scmp tree.pendingWriteTree.visibleWrites (location ++ other)
  rw [hagrees.complete] at hother ⊢
  rw [h.agrees.complete, hpending, cover_append]
  by_cases haffected : ∃ w ∈ record.writes, w.1 <+: location ++ other
  · -- A later write covers what the record wrote.
    have hsome := hother haffected
    by_cases hlater : ∃ w ∈ pendingWriteTree.pending, w.1 <+: location ++ other
    · obtain ⟨w, hw, hpre⟩ := hlater
      exact cover_eq_of_mem hw hpre _ _
    · rw [cover_none (fun w hw hpre => hlater ⟨w, hw, hpre⟩)] at hsome
      cases hsome
  · have hnothing : cover cmp record.writes (location ++ other) none = none :=
      cover_none (fun w hw hpre => haffected ⟨w, hw, hpre⟩)
    rw [hnothing]

/-- The acknowledgement evaluates again what the answered record wrote. -/
theorem Consistent.exists_ackUserWrite (h : Consistent cmp scmp interior location tree)
    (hdebug : debug = true → tree.view.viewCache.cachedServerSnap.isFullyInitialized = true)
    (horder : ∀ l, (order l).Perm l) {pendingWriteTree : FWriteTree K V}
    (hagrees : pendingWriteTree.Agrees cmp scmp)
    (hinside' : Inside interior pendingWriteTree.visibleWrites.forEach)
    {record : FWriteRecord K V} (revert : Bool)
    (hkept : Kept cmp scmp interior ⟨location, pendingWriteTree⟩
      (fun other => ∃ w ∈ record.writes, w.1 <+: location ++ other)
      (tree.view.viewCache.cachedEventSnap.node.getImmediateChild cmp)
      (tree.view.viewCache, [])) :
    ∃ view, applyOperationToSyncPoints cmp scmp debug order location
        { tree with pendingWriteTree := pendingWriteTree }
        (.ackUserWrite record.path (affectedTree scmp record) revert)
          = some ⟨pendingWriteTree, view⟩
      ∧ FView.Followed cmp scmp interior ⟨location, pendingWriteTree⟩ view := by
  let ref' : FWriteTreeRef K V := ⟨location, pendingWriteTree⟩
  have hvalid' : Valid cmp scmp ref'.writeTree.visibleWrites := hagrees.valid
  obtain ⟨hordered, hwritten⟩ := affectedTree_spec scmp record
  have haffected : ∀ other, (∃ w ∈ record.writes, w.1 <+: location ++ other) →
      ∃ m ∈ (affectedTree scmp record).forEach, record.path ++ m.1 <+: location ++ other := by
    rintro other ⟨w, hw, hpre⟩
    obtain ⟨m, hm, heq⟩ := hwritten w hw
    exact ⟨m, hm, by rwa [heq]⟩
  rcases operationAt_ackUserWrite V cmp hordered revert haffected with
    ⟨harrives, hnothing⟩ | ⟨path', affectedTree', harrives, haffected'⟩
  · exact ⟨tree.view, applyOperationToSyncPoints_none harrives,
      hkept.mono (fun other hother => hnothing other hother), h.followed.child,
      h.followed.value⟩
  · cases revert with
    | false =>
      obtain ⟨r, hr, hkept', hfull⟩ :=
        hkept.ackUserWriteOn hvalid' hinside' horder haffected'
      refine exists_applyOperationToSyncPoints h.followed harrives ?_ hkept' hfull
      rw [applyOperationOn, hr]
      rfl
    | true =>
      obtain ⟨r, hr, hkept', hserver⟩ := hkept.revertUserWriteOn hvalid' hinside' hdebug
        (fun other hother => by
          obtain ⟨m, -, hpre⟩ := haffected' other hother
          exact (List.prefix_append path' m.1).trans hpre)
      refine exists_applyOperationToSyncPoints h.followed harrives ?_ hkept'
        (fun hold => by rw [hserver, hold])
      rw [applyOperationOn, hr]
      rfl

theorem Consistent.answered (h : Consistent cmp scmp interior location tree)
    (hdebug : debug = true → tree.view.viewCache.cachedServerSnap.isFullyInitialized = true)
    (horder : ∀ l, (order l).Perm l) {record : FWriteRecord K V} {rest : List (FWriteRecord K V)}
    (hall : tree.pendingWriteTree.allWrites = record :: rest) (revert : Bool) :
    ∃ tree', ackUserWriteWithWriteId cmp scmp debug order location tree record.writeId revert
        = some tree'
      ∧ Consistent cmp scmp interior location tree' := by
  obtain ⟨pendingWriteTree, changed, hremoved, hrest, -⟩ :=
    FRepo.exists_removeWriteId h.agrees hall
  have hagrees : pendingWriteTree.Agrees cmp scmp := by
    refine FWriteTree.agrees_step (show FWriteTree.Plain cmp scmp .answered from trivial)
      h.agrees ?_
    rw [FWriteTree.step, hall]
    simp only [List.head?_cons, Option.bind_eq_bind, Option.bind_some, hremoved]
  have hpending : tree.pendingWriteTree.pending = record.writes ++ pendingWriteTree.pending := by
    simp [FWriteTree.pending, hall, hrest]
  have haboveAll : ∀ w ∈ pendingWriteTree.pending, ∀ above, above <+: w.1 → above ≠ w.1 →
      interior above :=
    fun w hw => h.above w (by rw [hpending]; exact List.mem_append_right _ hw)
  have hinside' := inside_of_pending hagrees haboveAll
  have hfind : tree.pendingWriteTree.allWrites.find? (fun r => r.writeId = record.writeId)
      = some record := by
    simp [hall]
  rw [ackUserWriteWithWriteId, hfind, hremoved]
  simp only [Option.bind_eq_bind, Option.bind_some]
  cases changed with
  | false =>
    refine ⟨_, if_neg Bool.false_ne_true, hagrees, haboveAll, h.followed_congr hagrees hinside' ?_⟩
    intro other
    rw [removeWriteId_unchanged hall hremoved]
  | true =>
    rw [if_pos rfl]
    obtain ⟨view, hview, hfollowed⟩ := h.exists_ackUserWrite hdebug horder hagrees hinside' revert
      (h.kept_answered hagrees hinside' hpending)
    exact ⟨⟨pendingWriteTree, view⟩, hview, hagrees, haboveAll, hfollowed⟩

theorem Consistent.server (h : Consistent cmp scmp interior location tree)
    (horder : ∀ l, (order l).Perm l) {operation : FOperation K V}
    (hserver : FView.FromServer cmp scmp interior [] operation) :
    ∃ tree', applyOperationToSyncPoints cmp scmp debug order location tree operation = some tree'
      ∧ Consistent cmp scmp interior location tree' := by
  cases harrives : operation.operationAt cmp scmp location with
  | none => exact ⟨tree, applyOperationToSyncPoints_none harrives, h⟩
  | some operation' =>
    let ref : FWriteTreeRef K V := ⟨location, tree.pendingWriteTree⟩
    have hvalid : Valid cmp scmp ref.writeTree.visibleWrites := h.agrees.valid
    have harrived := fromServer_operationAt hserver harrives
    obtain ⟨r, hr, hkept, hfull⟩ := FView.exists_applyOperationOn hvalid
      (inside_of_pending h.agrees h.above) horder harrived h.followed.kept
      tree.view.viewCache.completeServerSnap
    obtain ⟨view, hview, hfollowed⟩ :=
      exists_applyOperationToSyncPoints h.followed harrives hr hkept hfull
    exact ⟨⟨tree.pendingWriteTree, view⟩, hview, h.agrees, h.above, hfollowed⟩

theorem Consistent.exists_step (h : Consistent cmp scmp interior location tree)
    (hdebug : debug = true → tree.view.viewCache.cachedServerSnap.isFullyInitialized = true)
    (horder : ∀ l, (order l).Perm l) {l : Label K V} (hplain : Plain cmp scmp interior l)
    (henabled : Enabled tree l) :
    ∃ tree', step cmp scmp debug order location tree l = some tree'
      ∧ Consistent cmp scmp interior location tree' := by
  cases l with
  | server operation => exact h.server horder hplain
  | overwrite path newData writeId => exact h.overwrite hplain henabled
  | merge path changedChildren writeId => exact h.merge hplain henabled
  | answered revert =>
    obtain ⟨record, rest, hall⟩ := List.exists_cons_of_ne_nil henabled
    obtain ⟨tree', hstep, hconsistent⟩ := h.answered hdebug horder hall revert
    refine ⟨tree', ?_, hconsistent⟩
    rw [step, hall]
    exact hstep

/-! ## Section 5: Data that is complete -/

omit [Std.TransCmp cmp] [Std.LawfulEqCmp cmp] [Std.TransCmp scmp] [Std.LawfulEqCmp scmp] in
/-- Data of the server that is complete stays complete. -/
theorem complete_applyOperationToSyncPoints {operation : FOperation K V}
    (h : applyOperationToSyncPoints cmp scmp debug order location tree operation = some tree')
    (hfull : tree.view.viewCache.cachedServerSnap.isFullyInitialized = true) :
    tree'.view.viewCache.cachedServerSnap.isFullyInitialized = true := by
  rw [applyOperationToSyncPoints] at h
  split at h
  · obtain rfl := Option.some.inj h
    exact hfull
  · obtain ⟨view, hview, heq⟩ := Option.bind_eq_some_iff.mp h
    obtain rfl := Option.some.inj heq
    rw [FView.applyOperation] at hview
    obtain ⟨r, -, happlied⟩ := Option.bind_eq_some_iff.mp hview
    dsimp only at happlied
    split at happlied
    · next hnever =>
      obtain ⟨events, -, heq⟩ := Option.bind_eq_some_iff.mp happlied
      obtain rfl := Option.some.inj heq
      simpa [hfull] using hnever
    · cases happlied

omit [Std.TransCmp cmp] [Std.LawfulEqCmp cmp] [Std.TransCmp scmp] [Std.LawfulEqCmp scmp] in
theorem complete_step {l : Label K V}
    (h : step cmp scmp debug order location tree l = some tree')
    (hfull : tree.view.viewCache.cachedServerSnap.isFullyInitialized = true) :
    tree'.view.viewCache.cachedServerSnap.isFullyInitialized = true := by
  cases l with
  | server operation => exact complete_applyOperationToSyncPoints h hfull
  | overwrite path newData writeId =>
    obtain ⟨pendingWriteTree, -, happlied⟩ := Option.bind_eq_some_iff.mp h
    exact complete_applyOperationToSyncPoints happlied hfull
  | merge path changedChildren writeId =>
    obtain ⟨pendingWriteTree, -, happlied⟩ := Option.bind_eq_some_iff.mp h
    exact complete_applyOperationToSyncPoints happlied hfull
  | answered revert =>
    obtain ⟨record, -, hacked⟩ := Option.bind_eq_some_iff.mp h
    obtain ⟨write, -, hfound⟩ := Option.bind_eq_some_iff.mp hacked
    obtain ⟨removed, -, happlied⟩ := Option.bind_eq_some_iff.mp hfound
    dsimp only at happlied
    split at happlied
    · exact complete_applyOperationToSyncPoints happlied hfull
    · obtain rfl := Option.some.inj happlied
      exact hfull

/-! ## Section 6: Runs -/

omit [Std.TransCmp cmp] [Std.LawfulEqCmp cmp] [Std.TransCmp scmp] [Std.LawfulEqCmp scmp]
  [DecidableEq V] in
variable (cmp scmp location) in
/-- A client that starts to listen with what it has of the server's data. -/
def listening (serverCache : FCacheNode K V) : Option (FSyncTree K V) := do
  let view ← FSyncPoint.addEventRegistration cmp scmp ⟨location, .init⟩ serverCache
  some ⟨.init, view⟩

variable (scmp) in
omit [DecidableEq V] in
theorem consistent_listening {serverCache : FCacheNode K V}
    (hpruned : serverCache.node.Pruned cmp) (hfits : Fits cmp interior location serverCache.node) :
    ∃ start, listening cmp scmp location serverCache = some start
      ∧ start.view.viewCache.cachedServerSnap = serverCache
      ∧ Consistent cmp scmp interior location start := by
  have hagrees : (FWriteTree.init : FWriteTree K V).Agrees cmp scmp := FWriteTree.agrees_init
  let ref : FWriteTreeRef K V := ⟨location, .init⟩
  have hvalid : Valid cmp scmp ref.writeTree.visibleWrites := hagrees.valid
  have hfitsRef : Fits cmp interior ref.path serverCache.node := hfits
  obtain ⟨view, hview, hserver, hfollowed⟩ :=
    FView.exists_addEventRegistration hvalid hpruned hfitsRef
  refine ⟨⟨.init, view⟩, ?_, hserver, hagrees, ?_, hfollowed⟩
  · rw [listening, hview]
    rfl
  · intro w hw
    cases hw

end steps

/-- A child of the location. -/
def tenthChild : FPath Name := [.ofString "room", .ofString "10"]

/-- A write, the server's data with it, and the answer. -/
def acceptedWrite : List (Label Name Nat) :=
  [.overwrite tenthChild (.leaf 5) 0, .server (.overwrite .server tenthChild (.leaf 5)),
   .answered false]

end FSyncTree

end MeetupApp.Firebase
