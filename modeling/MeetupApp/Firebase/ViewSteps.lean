import MeetupApp.Firebase.ViewProcessor

/-! # What an operation does to a view

    No operation throws an exception, and the changes that are collected are the
    difference of the children, whatever the view holds.  Once the view is complete,
    a write of the user is one to the shown node, and a change of the server's data
    puts what is shown at its path there, unless a pending write covers the path. -/

namespace MeetupApp.Firebase

open SortedEntries FImmutableTree FCompoundWrite FIndexedFilter

namespace FViewProcessor

variable {K V : Type} {cmp scmp : K → K → Ordering}

/-- Both caches hold stored nodes, and the accumulator what has changed since `origin`. -/
structure Sound (cmp : K → K → Ordering) (origin : K → FNode K V) (r : Tracked K V) : Prop where
  event : r.1.cachedEventSnap.node.Pruned cmp
  server : r.1.cachedServerSnap.node.Pruned cmp
  tracks : Tracks cmp origin (r.1.cachedEventSnap.node.getImmediateChild cmp) r.2

variable {debug : Bool} [DecidableEq V] [Std.TransCmp cmp] [Std.LawfulEqCmp cmp]
  {origin : K → FNode K V} {view : FViewCache K V} {accumulator : FChildChangeAccumulator K V}

/-! ## Section 1: The shown node -/

omit [DecidableEq V] [Std.TransCmp cmp] [Std.LawfulEqCmp cmp] in
/-- A child that is not complete is not in the view. -/
theorem isEmpty_of_incomplete {cache : FCacheNode K V} {k : K}
    (h : ¬ cache.isCompleteForChild cmp k = true) :
    (cache.node.getImmediateChild cmp k).isEmpty = true := by
  rw [FCacheNode.isCompleteForChild, Bool.or_eq_true, not_or] at h
  simpa [FNode.hasChild] using h.2

variable (debug) in
theorem updateEventChild_spec (h : Sound cmp origin (view, accumulator)) {newChild : FNode K V}
    (hnew : newChild.Pruned cmp) {k : K} {affectedPath : FPath K}
    (hdebug : debug = true → KeepsEqual cmp view.cachedEventSnap.node k newChild affectedPath) :
    ∃ accumulator', updateEventChild cmp debug view.cachedEventSnap.node k newChild affectedPath
          accumulator
        = some (updated cmp view.cachedEventSnap.node k newChild affectedPath, accumulator')
      ∧ ∀ complete, Sound cmp origin (view.updateEventSnap
          (updated cmp view.cachedEventSnap.node k newChild affectedPath) complete,
          accumulator') := by
  obtain ⟨accumulator', hupdate, htracks⟩ := updateChildIn_spec h.event h.tracks hdebug
  refine ⟨accumulator', ?_, fun _ => ⟨pruned_updated h.event hnew, h.server, htracks⟩⟩
  rw [updateEventChild, hupdate]
  rfl

theorem updateFullNode_sound (h : Sound cmp origin (view, accumulator)) {newSnap : FNode K V}
    (hnew : newSnap.Pruned cmp) :
    ∃ accumulator', updateFullNode cmp view.cachedEventSnap.node newSnap accumulator
        = some (newSnap, accumulator')
      ∧ ∀ complete, Sound cmp origin (view.updateEventSnap newSnap complete, accumulator') := by
  obtain ⟨accumulator', hupdate, htracks⟩ := updateFullNode_spec h.event hnew h.tracks
  exact ⟨accumulator', hupdate, fun _ => ⟨hnew, h.server, htracks⟩⟩

/-- In a complete view the child is updated below the path. -/
theorem updated_of_complete (h : Sound cmp origin (view, accumulator)) {written : FNode K V}
    (hwritten : written.Pruned cmp) (k : K) (path : FPath K) :
    updated cmp view.cachedEventSnap.node k
        ((view.cachedEventSnap.node.getImmediateChild cmp k).updateChild cmp path written) path
      = view.cachedEventSnap.node.updateChild cmp (k :: path) written :=
  updated_eq h.event hwritten k path

variable [DecidableEq K] [Std.TransCmp scmp] [Std.LawfulEqCmp scmp] {ref : FWriteTreeRef K V}

/-! ## Section 2: Writes of the user -/

omit [DecidableEq V] [Std.LawfulEqCmp cmp] in
theorem pruned_completeChild (hvalid : Valid cmp scmp ref.writeTree.visibleWrites)
    (hevent : view.cachedEventSnap.node.Pruned cmp)
    (hserver : view.cachedServerSnap.node.Pruned cmp) {optCompleteCache : Option (FNode K V)}
    (hcache : ∀ node, optCompleteCache = some node → node.Pruned cmp) {k : K} {node : FNode K V}
    (h : completeChild cmp scmp ref view optCompleteCache k = some node) : node.Pruned cmp := by
  unfold completeChild at h
  dsimp only at h
  split at h
  · obtain rfl := Option.some.inj h
    exact hevent.getImmediateChild k
  · cases optCompleteCache with
    | none => exact FWriteTreeRef.pruned_calculateCompleteChild hvalid hserver h
    | some completeCache =>
      exact FWriteTreeRef.pruned_calculateCompleteChild hvalid (hcache completeCache rfl) h

/-- A write of the user: in a complete view it is one to the shown node. -/
theorem applyUserOverwriteTo_spec (hvalid : Valid cmp scmp ref.writeTree.visibleWrites)
    (h : Sound cmp origin (view, accumulator)) {snap : FNode K V} (hsnap : snap.Pruned cmp)
    (path : FPath K) {optCompleteCache : Option (FNode K V)}
    (hcache : ∀ node, optCompleteCache = some node → node.Pruned cmp) :
    ∃ r, applyUserOverwriteTo cmp scmp debug view path snap ref optCompleteCache accumulator
        = some r
      ∧ Sound cmp origin r ∧ r.1.cachedServerSnap = view.cachedServerSnap
      ∧ (view.cachedEventSnap.isFullyInitialized = true ∨ path = [] →
        r.1.cachedEventSnap = ⟨view.cachedEventSnap.node.updateChild cmp path snap, true⟩) := by
  unfold applyUserOverwriteTo
  cases path with
  | nil =>
    obtain ⟨accumulator', hupdate, hsound⟩ := updateFullNode_sound h hsnap
    dsimp only
    rw [hupdate]
    exact ⟨_, rfl, hsound _, rfl, fun _ => by rw [FNode.updateChild_nil]; rfl⟩
  | cons k path =>
    dsimp only
    generalize hnewChild : (if path = [] then snap else _) = newChild
    have hpruned : newChild.Pruned cmp := by
      subst hnewChild
      split
      · exact hsnap
      · cases hchild : completeChild cmp scmp ref view optCompleteCache k with
        | none => exact .empty
        | some childNode =>
          exact (pruned_completeChild hvalid h.event h.server hcache hchild).updateChild hsnap path
    -- A child that is complete is written in the view.
    have hwritten : view.cachedEventSnap.isCompleteForChild cmp k = true →
        newChild
          = (view.cachedEventSnap.node.getImmediateChild cmp k).updateChild cmp path snap := by
      intro hchild
      subst hnewChild
      by_cases hpath : path = []
      · rw [if_pos hpath, hpath, FNode.updateChild_nil]
      · rw [if_neg hpath]
        simp [completeChild, hchild]
    have hcomplete : view.cachedEventSnap.isFullyInitialized = true →
        newChild = (view.cachedEventSnap.node.getImmediateChild cmp k).updateChild cmp path snap :=
      fun hfull => hwritten (by rw [FCacheNode.isCompleteForChild, hfull, Bool.true_or])
    cases hequal : (view.cachedEventSnap.node.getImmediateChild cmp k).isEqual cmp newChild with
    | true =>
      refine ⟨(view, accumulator), by simp, h, rfl, ?_⟩
      intro hfull
      have hfull := hfull.resolve_right (List.cons_ne_nil k path)
      -- What is written is there already.
      have hsame := ((h.event.getImmediateChild k).isEqual_iff hpruned).mp hequal
      rw [FNode.updateChild_cons, ← hcomplete hfull, ← hsame,
        FNode.updateImmediateChild_getImmediateChild h.event, ← hfull]
    | false =>
      have hkeeps : KeepsEqual cmp view.cachedEventSnap.node k newChild path := by
        by_cases hchild : view.cachedEventSnap.isCompleteForChild cmp k = true
        · rw [hwritten hchild]
          exact keepsEqual_updateChild h.event hsnap k path
        · exact keepsEqual_of_empty (isEmpty_of_incomplete hchild)
      obtain ⟨accumulator', hupdate, hsound⟩ :=
        updateEventChild_spec debug h hpruned (fun _ => hkeeps)
      refine ⟨_, by simp [hupdate]; rfl, hsound _, rfl, ?_⟩
      intro hfull
      have hfull := hfull.resolve_right (List.cons_ne_nil k path)
      rw [hfull, hcomplete hfull, updated_of_complete h hsnap]
      rfl

/-- A merge of the user: in a complete view its writes are made one after another. -/
theorem applyUserMergeTo_spec (hvalid : Valid cmp scmp ref.writeTree.visibleWrites)
    (h : Sound cmp origin (view, accumulator)) {changedChildren : FCompoundWrite K V}
    (hchanged : ∀ w ∈ changedChildren.forEach, w.2.Pruned cmp) (path : FPath K)
    {optCompleteCache : Option (FNode K V)}
    (hcache : ∀ node, optCompleteCache = some node → node.Pruned cmp) :
    ∃ r, applyUserMergeTo cmp scmp debug view path changedChildren ref optCompleteCache accumulator
          = some r
      ∧ Sound cmp origin r ∧ r.1.cachedServerSnap = view.cachedServerSnap
      ∧ (view.cachedEventSnap.isFullyInitialized = true →
        r.1.cachedEventSnap = ⟨updateChildren cmp view.cachedEventSnap.node
          (changedChildren.forEach.map (fun w => (path.child w.1, w.2))), true⟩) := by
  -- What holds after the writes of the list `done`, of which `made` says what was made.
  let Inv (made : List (FPath K × FNode K V) → List (FPath K × FNode K V))
      (done : List (FPath K × FNode K V)) (cur : Tracked K V) : Prop :=
    Sound cmp origin cur ∧ cur.1.cachedServerSnap = view.cachedServerSnap
      ∧ (view.cachedEventSnap.isFullyInitialized = true → cur.1.cachedEventSnap
          = ⟨updateChildren cmp view.cachedEventSnap.node
            ((made done).map (fun w => (path.child w.1, w.2))), true⟩)
  have hhas : view.cachedEventSnap.isFullyInitialized = true → ∀ writePath,
      cacheHasChild cmp view writePath = true := by
    intro hfull writePath
    cases writePath with
    | nil => exact hfull
    | cons k writePath => simp [cacheHasChild, FCacheNode.isCompleteForChild, hfull]
  have hoverwrite : ∀ w ∈ changedChildren.forEach, ∀ cur, Sound cmp origin cur →
      ∃ r, applyUserOverwriteTo cmp scmp debug cur.1 (path.child w.1) w.2 ref optCompleteCache cur.2
          = some r
        ∧ Sound cmp origin r ∧ r.1.cachedServerSnap = cur.1.cachedServerSnap
        ∧ (cur.1.cachedEventSnap.isFullyInitialized = true ∨ path.child w.1 = [] →
          r.1.cachedEventSnap
            = ⟨cur.1.cachedEventSnap.node.updateChild cmp (path.child w.1) w.2, true⟩) :=
    fun w hw cur hcur => applyUserOverwriteTo_spec hvalid hcur (hchanged w hw) _ hcache
  unfold applyUserMergeTo
  -- The first pass makes the writes to what is in the view.
  obtain ⟨first, hfirst, hinv⟩ := Runs.exists_foldlM
    (fun cur w => if cacheHasChild cmp view (path.child w.1) = true then
      applyUserOverwriteTo cmp scmp debug cur.1 (path.child w.1) w.2 ref optCompleteCache cur.2
      else some cur) (view, accumulator) changedChildren.forEach (Inv id) (by
      intro done w cur hw hinv
      obtain ⟨hsound, hserver, hevent⟩ := hinv
      split
      · obtain ⟨r, hr, hsound', hserver', hevent'⟩ := hoverwrite w hw cur hsound
        refine ⟨r, hr, hsound', hserver'.trans hserver, fun hfull => ?_⟩
        rw [hevent' (.inl (by rw [hevent hfull])), hevent hfull]
        simp [updateChildren]
      · next hnot => exact ⟨cur, rfl, hsound, hserver, fun hfull => absurd (hhas hfull _) hnot⟩)
    ⟨h, rfl, fun hfull => by simp [updateChildren, ← hfull]⟩
  -- The second one finds nothing left to do in a complete view.
  obtain ⟨r, hsecond, hsound, hserver, hevent⟩ := Runs.exists_foldlM
    (fun cur w => if cacheHasChild cmp view (path.child w.1) = false then
      applyUserOverwriteTo cmp scmp debug cur.1 (path.child w.1) w.2 ref optCompleteCache cur.2
      else some cur) first changedChildren.forEach (Inv (fun _ => changedChildren.forEach)) (by
      intro done w cur hw hinv
      obtain ⟨hsound, hserver, hevent⟩ := hinv
      split
      · next hnot =>
        obtain ⟨r, hr, hsound', hserver', -⟩ := hoverwrite w hw cur hsound
        refine ⟨r, hr, hsound', hserver'.trans hserver, fun hfull => ?_⟩
        rw [hhas hfull] at hnot
        cases hnot
      · exact ⟨cur, rfl, hsound, hserver, hevent⟩)
    hinv
  refine ⟨r, ?_, hsound, hserver, hevent⟩
  dsimp only
  rw [hfirst]
  exact hsecond

/-! ## Section 3: Data of the server -/

/-- After the server's data changed at a path: what is shown there now is put there, unless a
    write covers the path. -/
theorem generateEventCacheAfterServerEvent_spec
    (hvalid : Valid cmp scmp ref.writeTree.visibleWrites)
    (h : Sound cmp origin (view, accumulator)) {path : FPath K}
    (hpath : path = [] → view.cachedServerSnap.isFullyInitialized = true) :
    ∃ r, generateEventCacheAfterServerEvent cmp scmp debug view path ref accumulator = some r
      ∧ Sound cmp origin r ∧ r.1.cachedServerSnap = view.cachedServerSnap
      ∧ ((ref.shadowingWriteAtPath cmp scmp path).isSome → r.1 = view)
      ∧ (ref.shadowingWriteAtPath cmp scmp path = none →
        view.cachedServerSnap.isFullyInitialized = true →
        view.cachedEventSnap.isFullyInitialized = true ∨ path = [] →
        ref.OpenIn cmp view.cachedServerSnap.node →
        r.1.cachedEventSnap = ⟨view.cachedEventSnap.node.updateChild cmp path
          ((ref.shown cmp scmp view.cachedServerSnap.node).getChild cmp path), true⟩) := by
  unfold generateEventCacheAfterServerEvent
  cases hshadow : ref.shadowingWriteAtPath cmp scmp path with
  | some node => exact ⟨(view, accumulator), by simp, h, rfl, fun _ => rfl, by simp⟩
  | none =>
    rw [if_neg (by simp)]
    cases path with
    | nil =>
      have hserver := hpath rfl
      have hshown := FWriteTreeRef.pruned_shown hvalid h.server
      obtain ⟨accumulator', hupdate, hsound⟩ := updateFullNode_sound h hshown
      have hsnap : view.completeServerSnap = some view.cachedServerSnap.node := by
        rw [FViewCache.completeServerSnap, if_pos hserver]
      simp only [hsnap, FWriteTreeRef.calculateCompleteEventCache_some, hupdate,
        Option.bind_eq_bind, Option.bind_some]
      refine ⟨_, rfl, hsound true, rfl, by simp, ?_⟩
      intro _ _ _ _
      rw [FNode.updateChild_nil, FNode.getChild_nil]
      rfl
    | cons k path =>
      obtain ⟨update, hcalculate, hupdatePruned⟩ :=
        FWriteTreeRef.exists_calculateEventCacheAfterServerOverwrite hvalid hshadow h.server
      simp only [hcalculate]
      have hchildPruned : ((view.cachedEventSnap.node.getImmediateChild cmp k).updateChild cmp path
          update).Pruned cmp := (h.event.getImmediateChild k).updateChild hupdatePruned path
      by_cases hchild : view.cachedEventSnap.isCompleteForChild cmp k = true
      · obtain ⟨accumulator', hupdate, hsound⟩ := updateEventChild_spec debug h hchildPruned
          (fun _ => keepsEqual_updateChild h.event hupdatePruned k path)
        simp only [hchild, if_true, hupdate, Option.bind_eq_bind, Option.bind_some]
        refine ⟨_, rfl, hsound _, rfl, by simp, ?_⟩
        intro _ _ hfull hopen
        have hfull := hfull.resolve_right (List.cons_ne_nil k path)
        obtain rfl : update = (ref.shown cmp scmp view.cachedServerSnap.node).getChild cmp
            (k :: path) := by
          have heq := FWriteTreeRef.calculateEventCacheAfterServerOverwrite_eq hvalid h.server
            hopen hshadow
          exact Option.some.inj (hcalculate.symm.trans heq)
        rw [updated_of_complete h hupdatePruned, hfull]
        rfl
      · -- The child is not complete, so neither is the view.
        have hincomplete : ¬ view.cachedEventSnap.isFullyInitialized = true := by
          intro hfull
          exact hchild (by rw [FCacheNode.isCompleteForChild, hfull, Bool.true_or])
        rw [if_neg hchild]
        cases hcomplete : ref.calculateCompleteChild cmp scmp k view.cachedServerSnap with
        | none =>
          refine ⟨_, rfl, ⟨h.event, h.server, h.tracks⟩, rfl, by simp, ?_⟩
          intro _ _ hfull
          exact absurd (hfull.resolve_right (List.cons_ne_nil k path)) hincomplete
        | some newChild =>
          have hnew := FWriteTreeRef.pruned_calculateCompleteChild hvalid h.server hcomplete
          have hequal : KeepsEqual cmp view.cachedEventSnap.node k newChild path :=
            keepsEqual_of_empty (isEmpty_of_incomplete hchild)
          obtain ⟨accumulator', hupdate, hsound⟩ :=
            updateEventChild_spec debug h hnew (fun _ => hequal)
          simp only [hupdate, Option.bind_eq_bind, Option.bind_some]
          refine ⟨_, rfl, hsound _, rfl, by simp, ?_⟩
          intro _ _ hfull
          exact absurd (hfull.resolve_right (List.cons_ne_nil k path)) hincomplete

end FViewProcessor

end MeetupApp.Firebase
