import MeetupApp.Firebase.View

/-! # Views while the pending writes change

    A write of the user is made in the view at once.  When the server has answered a
    write, it is no longer pending: what is shown may change at its path only, and the
    path is brought up to date from the server's data and the other pending writes. -/

namespace MeetupApp.Firebase

open SortedEntries FImmutableTree FCompoundWrite FIndexedFilter

/-! ## Section 1: Written paths -/

section paths
variable {K V : Type} {cmp scmp : K → K → Ordering} [DecidableEq K] [Std.TransCmp cmp]
  [Std.LawfulEqCmp cmp] [Std.TransCmp scmp] [Std.LawfulEqCmp scmp] {interior : FPath K → Prop}

/-- A write adds no written path but its own. -/
theorem exists_of_mem_addWrite {write write' : FCompoundWrite K V} (hvalid : Valid cmp scmp write)
    {node : FNode K V} {path : FPath K} (hnode : node.Pruned cmp)
    (hadd : FCompoundWrite.addWrite cmp scmp write node path = some write')
    {w : FPath K × FNode K V} (hw : w ∈ write'.forEach) :
    w.1 = path ∨ ∃ w' ∈ write.forEach, w'.1 = w.1 := by
  obtain ⟨hcomplete, habove⟩ := completeNodeAtPath_of_mem (hvalid.addWrite hnode hadd) hw
  rw [completeNodeAtPath_addWrite hvalid hadd] at hcomplete
  by_cases hpre : path <+: w.1
  · -- The path itself is written.
    by_contra hnot
    have hfirst := habove path hpre (fun heq => hnot (.inl heq.symm))
    rw [completeNodeAtPath_addWrite hvalid hadd, if_pos List.prefix_rfl] at hfirst
    cases hfirst
  · rw [if_neg hpre] at hcomplete
    obtain ⟨complete, hbefore, -⟩ := Option.map_eq_some_iff.mp hcomplete
    obtain ⟨w', hw', hpre', -⟩ := exists_of_completeNodeAtPath hvalid hbefore
    refine .inr ⟨w', hw', ?_⟩
    by_contra hne
    have hfirst := habove w'.1 hpre' hne
    rw [completeNodeAtPath_addWrite hvalid hadd, (completeNodeAtPath_of_mem hvalid hw').1] at hfirst
    split at hfirst <;> cases hfirst

theorem Inside.addWrite {write write' : FCompoundWrite K V}
    (h : Inside interior write.forEach) (hvalid : Valid cmp scmp write) {node : FNode K V}
    {path : FPath K} (hnode : node.Pruned cmp)
    (habove : ∀ above, above <+: path → above ≠ path → interior above)
    (hadd : FCompoundWrite.addWrite cmp scmp write node path = some write') :
    Inside interior write'.forEach := by
  intro w hw above hpre hne
  rcases exists_of_mem_addWrite hvalid hnode hadd hw with heq | ⟨w', hw', heq⟩
  · rw [heq] at hpre hne
    exact habove above hpre hne
  · rw [← heq] at hpre hne
    exact h w' hw' above hpre hne

/-- Further writes are writes to what is shown, one after another. -/
theorem FWriteTreeRef.shown_addWrites {ref ref' : FWriteTreeRef K V}
    (hvalid : Valid cmp scmp ref.writeTree.visibleWrites)
    (hvalid' : Valid cmp scmp ref'.writeTree.visibleWrites)
    (hinside : Inside interior ref.writeTree.visibleWrites.forEach)
    (hinside' : Inside interior ref'.writeTree.visibleWrites.forEach) (hpath : ref'.path = ref.path)
    {writes : List (FPath K × FNode K V)}
    (hwrites : ∀ w ∈ writes, w.2.Pruned cmp
      ∧ ∀ above, above <+: ref.path ++ w.1 → above ≠ ref.path ++ w.1 → interior above)
    (hadd : addWrites cmp scmp ref.writeTree.visibleWrites
        (writes.map (fun w => (ref.path ++ w.1, w.2))) = some ref'.writeTree.visibleWrites)
    {serverSnap : FNode K V} (hserver : serverSnap.Pruned cmp)
    (hfits : Fits cmp interior ref.path serverSnap) :
    ref'.shown cmp scmp serverSnap = updateChildren cmp (ref.shown cmp scmp serverSnap) writes := by
  have hopen' : ref'.OpenIn cmp serverSnap :=
    Fits.openIn (by rw [hpath]; exact hfits) hinside'
  induction writes generalizing ref with
  | nil =>
    refine shown_congr hvalid hvalid' hserver (hfits.openIn hinside) hopen' (fun path => ?_)
    rw [shadowingWriteAtPath, shadowingWriteAtPath, hpath, ← Option.some.inj hadd]
  | cons w writes ih =>
    rw [List.map_cons, addWrites_cons] at hadd
    obtain ⟨next, hnext, hrest⟩ := Option.bind_eq_some_iff.mp hadd
    obtain ⟨hpruned, habove⟩ := hwrites w (by simp)
    let mid : FWriteTreeRef K V := ⟨ref.path, { ref.writeTree with visibleWrites := next }⟩
    have hvalidMid : Valid cmp scmp mid.writeTree.visibleWrites := hvalid.addWrite hpruned hnext
    have hinsideMid : Inside interior mid.writeTree.visibleWrites.forEach :=
      hinside.addWrite hvalid hpruned habove hnext
    have hfitsMid : Fits cmp interior mid.path serverSnap := hfits
    have hshown := shown_addWrite hvalid hvalidMid rfl hpruned hnext hserver
      (hfits.openIn hinside) (hfitsMid.openIn hinsideMid) (hfits.openAt habove)
    rw [ih hvalidMid hinsideMid hpath (fun w' hw' => hwrites w' (by simp [hw'])) hrest hfitsMid,
      hshown]
    rfl

end paths

namespace FViewProcessor

variable {debug : Bool} {K V : Type} {cmp scmp : K → K → Ordering} [DecidableEq K]
  [Std.TransCmp cmp] [Std.LawfulEqCmp cmp] [Std.TransCmp scmp] [Std.LawfulEqCmp scmp]
  {interior : FPath K → Prop} {ref ref' : FWriteTreeRef K V} {affected : FPath K → Prop}
  {origin : K → FNode K V} {view : FViewCache K V} {accumulator : FChildChangeAccumulator K V}
  {r : Tracked K V}

/-! ## Section 2: Writes of the user -/

section change
variable (hvalid : Valid cmp scmp ref.writeTree.visibleWrites)
  (hvalid' : Valid cmp scmp ref'.writeTree.visibleWrites)
  (hinside : Inside interior ref.writeTree.visibleWrites.forEach)
  (hinside' : Inside interior ref'.writeTree.visibleWrites.forEach)
  (hpath : ref'.path = ref.path)
include hvalid hvalid' hinside hinside' hpath

/-- Where the same is written, or what is written is not affected, the view stays current. -/
theorem Kept.congr (h : Kept cmp scmp interior ref (fun _ => False) origin r)
    (hagree : ∀ path, (affected path → (ref'.shadowingWriteAtPath cmp scmp path).isSome) →
      ref'.shadowingWriteAtPath cmp scmp path = ref.shadowingWriteAtPath cmp scmp path) :
    Kept cmp scmp interior ref' affected origin r := by
  have hknown : Known cmp scmp ref' r.1 → Known cmp scmp ref r.1 := by
    refine Or.imp_right (fun hroot => ?_)
    rwa [← hagree [] (fun _ => hroot)]
  have hfits : Fits cmp interior ref'.path r.1.cachedServerSnap.node := by
    rw [hpath]
    exact h.fits
  refine ⟨h.sound, hfits, fun hk => h.current.complete (hknown hk), ?_⟩
  intro hk path hother
  rw [h.current.leafAt (hknown hk) path (fun hfalse => hfalse.elim),
    FWriteTreeRef.leafAt_shown hvalid h.sound.server (h.fits.openIn hinside),
    FWriteTreeRef.leafAt_shown hvalid' h.sound.server (hfits.openIn hinside'), hagree path hother]

variable [DecidableEq V] {optCompleteCache : Option (FNode K V)}
  (hcache : ∀ node, optCompleteCache = some node → node.Pruned cmp)
include hcache

omit hvalid hinside hinside' in
/-- A write that covers the location is what is shown. -/
theorem Kept.coverUser (h : Kept cmp scmp interior ref affected origin (view, accumulator))
    {snap : FNode K V} (hsnap : snap.Pruned cmp)
    (hshadow : ref'.shadowingWriteAtPath cmp scmp [] = some snap) :
    ∃ r, FViewProcessor.applyUserOverwriteTo cmp scmp debug view [] snap ref' optCompleteCache
        accumulator = some r
      ∧ Kept cmp scmp interior ref' (fun _ => False) origin r
      ∧ r.1.cachedServerSnap = view.cachedServerSnap := by
  obtain ⟨r, hr, hsound, hserver, hevent⟩ :=
    applyUserOverwriteTo_spec hvalid' h.sound hsnap [] hcache
  refine ⟨r, hr, ⟨hsound, by rw [hserver, hpath]; exact h.fits, current_of_known fun _ => ?_⟩,
    hserver⟩
  rw [hevent (.inr rfl), FNode.updateChild_nil, FWriteTreeRef.shown_of_shadowing hshadow]

/-- A write at or below the location. -/
theorem Kept.applyUserOverwriteTo
    (h : Kept cmp scmp interior ref (fun _ => False) origin (view, accumulator))
    {path : FPath K} {snap : FNode K V} (hsnap : snap.Pruned cmp)
    (hadd : addWrite cmp scmp ref.writeTree.visibleWrites snap (ref.path ++ path)
      = some ref'.writeTree.visibleWrites)
    (habove : ∀ above, above <+: ref.path ++ path → above ≠ ref.path ++ path → interior above) :
    ∃ r, FViewProcessor.applyUserOverwriteTo cmp scmp debug view path snap ref' optCompleteCache
        accumulator = some r
      ∧ Kept cmp scmp interior ref' (fun _ => False) origin r
      ∧ r.1.cachedServerSnap = view.cachedServerSnap := by
  have hroot := completeNodeAtPath_addWrite hvalid hadd ref.path
  by_cases hnil : path = []
  · subst hnil
    refine h.coverUser hvalid' hpath hcache hsnap ?_
    rw [FWriteTreeRef.shadowingWriteAtPath, FPath.child, hpath, List.append_nil, hroot,
      if_pos (by rw [List.append_nil]), List.append_nil, List.drop_length, FNode.getChild_nil]
  obtain ⟨r, hr, hsound, hserver, hevent⟩ :=
    applyUserOverwriteTo_spec hvalid' h.sound hsnap path hcache
  have hfits : Fits cmp interior ref'.path view.cachedServerSnap.node := by
    rw [hpath]
    exact h.fits
  refine ⟨r, hr, ⟨hsound, by rw [hserver]; exact hfits, current_of_known fun hk => ?_⟩, hserver⟩
  -- A write below the location does not make it known.
  have hknown : Known cmp scmp ref view := by
    refine hk.imp (fun hfull => by rwa [← hserver]) (fun hsome => ?_)
    rw [FWriteTreeRef.shadowingWriteAtPath, FPath.child, hpath, List.append_nil, hroot,
      if_neg (fun hpre => hnil (by simpa using hpre.length_le)), Option.isSome_map] at hsome
    rwa [FWriteTreeRef.shadowingWriteAtPath, FPath.child, List.append_nil]
  have hshown := h.shown_eq hvalid hknown
  rw [hserver, hevent (.inl (by rw [hshown])), hshown,
    FWriteTreeRef.shown_addWrite hvalid hvalid' hpath hsnap hadd h.sound.server
      (h.fits.openIn hinside) (hfits.openIn hinside') (h.fits.openAt habove)]

/-- A merge at or below the location. -/
theorem Kept.applyUserMergeTo
    (h : Kept cmp scmp interior ref (fun _ => False) origin (view, accumulator))
    {path : FPath K} {changedChildren : FCompoundWrite K V}
    (hchanged : Valid cmp scmp changedChildren)
    (hbelow : ∀ w ∈ changedChildren.forEach, w.1 ≠ [])
    (hadd : addCompoundWrite cmp scmp ref.writeTree.visibleWrites changedChildren (ref.path ++ path)
      = some ref'.writeTree.visibleWrites)
    (habove : ∀ w ∈ changedChildren.forEach, ∀ above, above <+: ref.path ++ path ++ w.1 →
      above ≠ ref.path ++ path ++ w.1 → interior above) :
    ∃ r, FViewProcessor.applyUserMergeTo cmp scmp debug view path changedChildren ref'
        optCompleteCache accumulator = some r
      ∧ Kept cmp scmp interior ref' (fun _ => False) origin r
      ∧ r.1.cachedServerSnap = view.cachedServerSnap := by
  have hpruned := hchanged.pruned
  obtain ⟨r, hr, hsound, hserver, hevent⟩ :=
    applyUserMergeTo_spec hvalid' h.sound hpruned path hcache
  have hfits : Fits cmp interior ref'.path view.cachedServerSnap.node := by
    rw [hpath]
    exact h.fits
  have hwrites : addWrites cmp scmp ref.writeTree.visibleWrites
      ((changedChildren.forEach.map (fun w => (path.child w.1, w.2))).map
        (fun w => (ref.path ++ w.1, w.2))) = some ref'.writeTree.visibleWrites := by
    rw [← hadd, FWriteTree.addCompoundWrite_eq, List.map_map]
    simp [Function.comp_def, FPath.child]
  refine ⟨r, hr, ⟨hsound, by rw [hserver]; exact hfits, current_of_known fun hk => ?_⟩, hserver⟩
  -- Writes below the location do not make it known.
  have hknown : Known cmp scmp ref view := by
    refine hk.imp (fun hfull => by rwa [← hserver]) (fun hsome => ?_)
    have hprunedAll : ∀ w ∈ (changedChildren.forEach.map (fun w => (path.child w.1, w.2))).map
        (fun w => (ref.path ++ w.1, w.2)), w.2.Pruned cmp := by
      intro _ hfull
      obtain ⟨_, hrest, rfl⟩ := List.mem_map.mp hfull
      obtain ⟨w, hw, rfl⟩ := List.mem_map.mp hrest
      exact hpruned w hw
    obtain ⟨write', hwrite', -, hcover⟩ := addWrites_spec hvalid hprunedAll
    obtain rfl := Option.some.inj (hwrites.symm.trans hwrite')
    rw [FWriteTreeRef.shadowingWriteAtPath, FPath.child, hpath, List.append_nil, hcover] at hsome
    rw [FWriteTreeRef.shadowingWriteAtPath, FPath.child, List.append_nil]
    by_contra hnone
    rw [Option.not_isSome_iff_eq_none.mp hnone, cover_none] at hsome
    · cases hsome
    · intro _ hfull hpre
      obtain ⟨_, hrest, rfl⟩ := List.mem_map.mp hfull
      obtain ⟨w, hw, rfl⟩ := List.mem_map.mp hrest
      have hlength := hpre.length_le
      simp only [FPath.child, List.length_append] at hlength
      exact hbelow w hw (List.length_eq_zero_iff.mp (by omega))
  have hshown := h.shown_eq hvalid hknown
  rw [hserver, hevent (by rw [hshown]), hshown]
  rw [FWriteTreeRef.shown_addWrites hvalid hvalid' hinside hinside' hpath ?_ hwrites
    h.sound.server h.fits]
  intro _ hrest
  obtain ⟨w, hw, rfl⟩ := List.mem_map.mp hrest
  refine ⟨hpruned w hw, ?_⟩
  have habove := habove w hw
  rwa [List.append_assoc] at habove

end change

/-! ## Section 3: Answers of the server -/

section answer
variable [DecidableEq V] (hvalid : Valid cmp scmp ref.writeTree.visibleWrites)
  (hinside : Inside interior ref.writeTree.visibleWrites.forEach)
include hvalid hinside

omit hinside [DecidableEq V] [Std.TransCmp cmp] [Std.LawfulEqCmp cmp] [Std.TransCmp scmp]
  [Std.LawfulEqCmp scmp] in
/-- If no write covers a path, none covers the root. -/
theorem shadowing_nil_of_none {path : FPath K}
    (hshadow : ref.shadowingWriteAtPath cmp scmp path = none) :
    ref.shadowingWriteAtPath cmp scmp [] = none := by
  by_contra hsome
  have hpath := isSome_shadowing_append hvalid (Option.isSome_iff_ne_none.mpr hsome) path
  rw [List.nil_append, hshadow] at hpath
  cases hpath

omit hvalid hinside [DecidableEq V] [Std.TransCmp cmp] [Std.LawfulEqCmp cmp] [Std.TransCmp scmp]
  [Std.LawfulEqCmp scmp] in
/-- From complete data of the server what is shown is computed. -/
theorem calculateCompleteEventCache_of_full
    (hfull : view.cachedServerSnap.isFullyInitialized = true) :
    ref.calculateCompleteEventCache cmp scmp view.completeServerSnap
      = some (ref.shown cmp scmp view.cachedServerSnap.node) := by
  rw [FViewCache.completeServerSnap, if_pos hfull, FWriteTreeRef.calculateCompleteEventCache_some]

omit hvalid hinside [DecidableEq V] [Std.TransCmp cmp] [Std.LawfulEqCmp cmp] [Std.TransCmp scmp]
  [Std.LawfulEqCmp scmp] in
/-- If no write covers the root, only a complete view has to show what it should. -/
theorem Kept.of_event (h : Kept cmp scmp interior ref affected origin (view, accumulator))
    (hroot : ref.shadowingWriteAtPath cmp scmp [] = none) {event : FNode K V}
    {accumulator' : FChildChangeAccumulator K V}
    (hsound : ∀ complete, Sound cmp origin (view.updateEventSnap event complete, accumulator'))
    (hevent : view.cachedServerSnap.isFullyInitialized = true →
      event = ref.shown cmp scmp view.cachedServerSnap.node) :
    Kept cmp scmp interior ref (fun _ => False) origin
      (view.updateEventSnap event view.cachedServerSnap.isFullyInitialized, accumulator') := by
  refine ⟨hsound _, h.fits, current_of_known fun hk => ?_⟩
  have hfull : view.cachedServerSnap.isFullyInitialized = true :=
    hk.resolve_right (by rw [hroot]; simp)
  change (⟨event, view.cachedServerSnap.isFullyInitialized⟩ : FCacheNode K V)
    = ⟨ref.shown cmp scmp view.cachedServerSnap.node, true⟩
  rw [hevent hfull, hfull]

omit hinside in
/-- A complete view is up to date but for the affected path: the child as it is computed is the
    old child, written at that path. -/
theorem Kept.updated_of_full (h : Kept cmp scmp interior ref affected origin (view, accumulator))
    (hfull : view.cachedServerSnap.isFullyInitialized = true) {k : K} {path : FPath K}
    (haffected : ∀ other, affected other → k :: path <+: other) :
    (ref.shown cmp scmp view.cachedServerSnap.node).getImmediateChild cmp k
        = (view.cachedEventSnap.node.getImmediateChild cmp k).updateChild cmp path
          ((ref.shown cmp scmp view.cachedServerSnap.node).getChild cmp (k :: path))
      ∧ updated cmp view.cachedEventSnap.node k
          ((ref.shown cmp scmp view.cachedServerSnap.node).getImmediateChild cmp k) path
        = ref.shown cmp scmp view.cachedServerSnap.node := by
  have hshown := FWriteTreeRef.pruned_shown hvalid h.sound.server
  have heq := h.sound.event.eq_updateChild hshown (fun other hother _ =>
    (h.current.leafAt (.inl hfull) other
      (fun ha => absurd (haffected other ha) hother)).symm)
  have hchild : (ref.shown cmp scmp view.cachedServerSnap.node).getImmediateChild cmp k
      = (view.cachedEventSnap.node.getImmediateChild cmp k).updateChild cmp path
        ((ref.shown cmp scmp view.cachedServerSnap.node).getChild cmp (k :: path)) := by
    conv_lhs => rw [heq, FNode.updateChild_cons]
    rw [FNode.getImmediateChild_updateImmediateChild h.sound.event,
      if_pos Std.ReflCmp.compare_self]
  refine ⟨hchild, ?_⟩
  rw [hchild, updated_of_complete h.sound (hshown.getChild (k :: path)), ← heq]

omit hvalid hinside [Std.TransCmp cmp] [Std.LawfulEqCmp cmp] [Std.TransCmp scmp]
  [Std.LawfulEqCmp scmp] in
/-- An empty node that a complete view should show is no leaf. -/
theorem revert_of_empty {event : FNode K V} {accumulator' : FChildChangeAccumulator K V}
    (hevent : view.cachedServerSnap.isFullyInitialized = true →
      event = ref.shown cmp scmp view.cachedServerSnap.node) :
    (if (event.isEmpty && view.cachedServerSnap.isFullyInitialized) = true then do
        let complete ← ref.calculateCompleteEventCache cmp scmp view.completeServerSnap
        if complete.isLeafNode = true then do
          let r ← updateFullNode cmp event complete accumulator'
          some (view.updateEventSnap r.1 view.cachedServerSnap.isFullyInitialized, r.2)
        else some (view.updateEventSnap event view.cachedServerSnap.isFullyInitialized,
          accumulator')
      else some (view.updateEventSnap event view.cachedServerSnap.isFullyInitialized,
        accumulator'))
      = some (view.updateEventSnap event view.cachedServerSnap.isFullyInitialized,
        accumulator') := by
  by_cases hempty : (event.isEmpty && view.cachedServerSnap.isFullyInitialized) = true
  · rw [if_pos hempty]
    rw [Bool.and_eq_true] at hempty
    have hleaf : (ref.shown cmp scmp view.cachedServerSnap.node).isLeafNode = false := by
      rw [← hevent hempty.2, FNode.eq_empty_of_isEmpty hempty.1]
      rfl
    simp only [calculateCompleteEventCache_of_full hempty.2, hleaf, Option.bind_eq_bind,
      Option.bind_some, Bool.false_eq_true, if_false]
  · rw [if_neg hempty]

/-- After a write was reverted its path is computed anew.  Of a view that is not complete the
    assertion of the filter may fail. -/
theorem Kept.revertUserWriteOn
    (h : Kept cmp scmp interior ref affected origin (view, accumulator))
    (hdebug : debug = true → view.cachedServerSnap.isFullyInitialized = true) {path : FPath K}
    (haffected : ∀ other, affected other → path <+: other) :
    ∃ r, FViewProcessor.revertUserWriteOn cmp scmp debug view path ref accumulator = some r
      ∧ Kept cmp scmp interior ref (fun _ => False) origin r
      ∧ r.1.cachedServerSnap = view.cachedServerSnap := by
  unfold FViewProcessor.revertUserWriteOn
  cases hshadow : ref.shadowingWriteAtPath cmp scmp path with
  | some node =>
    have hsome : (ref.shadowingWriteAtPath cmp scmp path).isSome := by rw [hshadow]; rfl
    refine ⟨(view, accumulator), by simp, h.of_covered (fun _ other hother => ?_), rfl⟩
    obtain ⟨rest, rfl⟩ := haffected other hother
    exact isSome_shadowing_append hvalid hsome rest
  | none =>
    rw [if_neg (by simp)]
    have hserver := h.sound.server
    have hshown := FWriteTreeRef.pruned_shown hvalid hserver
    have hroot := shadowing_nil_of_none hvalid hshadow
    have hcomplete : (view.cachedServerSnap.isFullyInitialized
        || (ref.shadowingWriteAtPath cmp scmp []).isSome)
          = view.cachedServerSnap.isFullyInitialized := by
      rw [hroot, Option.isSome_none, Bool.or_false]
    cases path with
    | nil =>
      dsimp only
      obtain ⟨newNode, hnewNode, hpruned, hnew⟩ : ∃ newNode,
          (if view.cachedServerSnap.isFullyInitialized = true then
            ref.calculateCompleteEventCache cmp scmp view.completeServerSnap
          else some (ref.calculateCompleteEventChildren cmp scmp view.cachedServerSnap.node))
            = some newNode
          ∧ newNode.Pruned cmp ∧ (view.cachedServerSnap.isFullyInitialized = true →
            newNode = ref.shown cmp scmp view.cachedServerSnap.node) := by
        by_cases hfull : view.cachedServerSnap.isFullyInitialized = true
        · exact ⟨_, by rw [if_pos hfull, calculateCompleteEventCache_of_full hfull], hshown,
            fun _ => rfl⟩
        · exact ⟨_, by rw [if_neg hfull],
            FWriteTreeRef.pruned_calculateCompleteEventChildren hvalid hserver,
            fun hcon => absurd hcon hfull⟩
      obtain ⟨accumulator', hupdate, hsound⟩ := updateFullNode_sound h.sound hpruned
      refine ⟨_, ?_, h.of_event hroot hsound hnew, rfl⟩
      rw [hcomplete]
      by_cases hfull : view.cachedServerSnap.isFullyInitialized = true
      · rw [if_pos hfull] at hnewNode ⊢
        simp only [hnewNode, hupdate, Option.bind_eq_bind, Option.bind_some]
      · rw [if_neg hfull] at hnewNode ⊢
        obtain rfl := Option.some.inj hnewNode
        simp only [hupdate, Option.bind_eq_bind, Option.bind_some]
    | cons k path =>
      dsimp only
      rw [hcomplete]
      have hcalculated : view.cachedServerSnap.isFullyInitialized = true →
          ref.calculateCompleteChild cmp scmp k view.cachedServerSnap
            = some ((ref.shown cmp scmp view.cachedServerSnap.node).getImmediateChild cmp k) := by
        intro hfull
        have hchild :=
          FWriteTreeRef.calculateCompleteChild_eq hvalid hserver (h.fits.openIn hinside) k
        rwa [← hfull] at hchild
      cases hnew : (ref.calculateCompleteChild cmp scmp k view.cachedServerSnap).or
          (if view.cachedServerSnap.isCompleteForChild cmp k = true then
            some (view.cachedEventSnap.node.getImmediateChild cmp k) else none) with
      | some newChild =>
        have hpruned : newChild.Pruned cmp := by
          rcases Option.or_eq_some_iff.mp hnew with hchild | ⟨-, hchild⟩
          · exact FWriteTreeRef.pruned_calculateCompleteChild hvalid hserver hchild
          · split at hchild
            · obtain rfl := Option.some.inj hchild
              exact h.sound.event.getImmediateChild k
            · cases hchild
        have hwritten : view.cachedServerSnap.isFullyInitialized = true →
            newChild = (view.cachedEventSnap.node.getImmediateChild cmp k).updateChild cmp path
                ((ref.shown cmp scmp view.cachedServerSnap.node).getChild cmp (k :: path))
              ∧ updated cmp view.cachedEventSnap.node k newChild path
                = ref.shown cmp scmp view.cachedServerSnap.node := by
          intro hfull
          rw [hcalculated hfull, Option.some_or] at hnew
          rw [← Option.some.inj hnew]
          exact h.updated_of_full hvalid hfull haffected
        have hkeeps : debug = true →
            KeepsEqual cmp view.cachedEventSnap.node k newChild path := by
          intro hasserted
          rw [(hwritten (hdebug hasserted)).1]
          exact keepsEqual_updateChild h.sound.event (hshown.getChild (k :: path)) k path
        obtain ⟨accumulator', hupdate, hsound⟩ :=
          updateEventChild_spec debug h.sound hpruned hkeeps
        refine ⟨_, ?_, h.of_event hroot hsound (fun hfull => (hwritten hfull).2), rfl⟩
        simp only [hupdate, Option.bind_eq_bind, Option.bind_some]
        exact revert_of_empty (fun hfull => (hwritten hfull).2)
      | none =>
        -- The child of complete data is computed.
        have hincomplete : view.cachedServerSnap.isFullyInitialized ≠ true := by
          intro hfull
          rw [hcalculated hfull, Option.some_or] at hnew
          cases hnew
        by_cases hhas : view.cachedEventSnap.node.hasChild cmp k = true
        · have hkeeps : debug = true →
              KeepsEqual cmp view.cachedEventSnap.node k FNode.empty path :=
            fun hasserted => absurd (hdebug hasserted) hincomplete
          obtain ⟨accumulator', hupdate, hsound⟩ :=
            updateEventChild_spec debug h.sound .empty hkeeps
          refine ⟨_, ?_, h.of_event hroot hsound (fun hfull => absurd hfull hincomplete), rfl⟩
          simp only [hhas, if_true, hupdate, Option.bind_eq_bind, Option.bind_some]
          exact revert_of_empty (fun hfull => absurd hfull hincomplete)
        · refine ⟨_, ?_, h.of_event hroot
            (fun _ => ⟨h.sound.event, hserver, h.sound.tracks⟩)
            (fun hfull => absurd hfull hincomplete), rfl⟩
          simp only [hhas, Option.bind_eq_bind, Option.bind_some]
          exact revert_of_empty (fun hfull => absurd hfull hincomplete)

omit hvalid hinside [DecidableEq V] [Std.TransCmp cmp] [Std.LawfulEqCmp cmp] [Std.TransCmp scmp]
  [Std.LawfulEqCmp scmp] in
/-- Writes that are made if they meet a condition. -/
theorem foldlM_addWrite_if {l : List (FPath K × Unit)} (cond : FPath K → Bool)
    (node : FPath K → FNode K V) (write : FCompoundWrite K V) :
    l.foldlM (fun changedChildren m => if cond m.1 = true then
        addWrite cmp scmp changedChildren (node m.1) m.1 else some changedChildren) write
      = addWrites cmp scmp write
        ((l.filter (fun m => cond m.1)).map (fun m => (m.1, node m.1))) := by
  induction l generalizing write with
  | nil => rfl
  | cons m l ih =>
    rw [List.foldlM_cons, List.filter_cons]
    by_cases hcond : cond m.1 = true
    · rw [if_pos hcond, if_pos hcond, List.map_cons, addWrites_cons]
      exact congrArg (Option.bind _) (funext ih)
    · rw [if_neg hcond, if_neg hcond]
      exact ih write

omit hvalid hinside [DecidableEq V] [DecidableEq K] [Std.TransCmp cmp] [Std.LawfulEqCmp cmp]
  [Std.TransCmp scmp] [Std.LawfulEqCmp scmp] in
/-- A tree without a value at its root has none at the empty path. -/
theorem ne_nil_of_mem_forEach {T : Type} {tree : FImmutableTree K T} (hvalue : tree.value = none)
    {m : FPath K × T} (hm : m ∈ tree.forEach) : m.1 ≠ [] := by
  obtain ⟨value, children⟩ := tree
  obtain rfl : value = none := hvalue
  rw [forEach, mem_forEachChild] at hm
  obtain ⟨e, -, below, -, rfl⟩ := hm
  exact List.cons_ne_nil _ _

variable (scmp) in
omit hvalid hinside [DecidableEq V] in
/-- Writes of nodes that fit make a tree that fits. -/
theorem exists_fittingWrites {base : FPath K} {writes : List (FPath K × FNode K V)}
    (hwrites : ∀ w ∈ writes, w.2.Pruned cmp ∧ Fits cmp interior (base ++ w.1) w.2) :
    ∃ write, addWrites cmp scmp emptyWrite writes = some write ∧ Valid cmp scmp write
      ∧ WritesFit cmp scmp interior base write
      ∧ ∀ other, completeNodeAtPath cmp scmp write other = cover cmp writes other none := by
  have hempty : Valid cmp scmp (emptyWrite : FCompoundWrite K V) := .empty
  obtain ⟨write, hwrite, hvalid, hcover⟩ :=
    addWrites_spec hempty (fun w hw => (hwrites w hw).1)
  refine ⟨write, hwrite, hvalid, writesFit_empty.addWrites hempty hwrites hwrite, ?_⟩
  intro other
  rw [hcover, emptyWrite, completeNodeAtPath_empty]

omit hvalid hinside [DecidableEq V] [DecidableEq K] [Std.TransCmp cmp] [Std.LawfulEqCmp cmp]
  [Std.TransCmp scmp] [Std.LawfulEqCmp scmp] in
/-- Complete data is complete for every path. -/
theorem isCompleteForPath_of_full {cache : FCacheNode K V}
    (hfull : cache.isFullyInitialized = true) (path : FPath K) :
    cache.isCompleteForPath cmp path = true := by
  cases path with
  | nil => exact hfull
  | cons k path =>
    rw [FCacheNode.isCompleteForPath, FCacheNode.isCompleteForChild, hfull, Bool.true_or]

omit hvalid hinside [DecidableEq V] [DecidableEq K] [Std.TransCmp scmp]
  [Std.LawfulEqCmp scmp] in
/-- The children of a node fit where they are. -/
theorem fits_enumerateChildren {base : FPath K} {node : FNode K V} (hnode : node.Pruned cmp)
    (hfits : Fits cmp interior base node) :
    ∀ w ∈ node.enumerateChildren.map (fun child => (([child.1] : FPath K), child.2)),
      w.2.Pruned cmp ∧ Fits cmp interior (base ++ [] ++ w.1) w.2 := by
  intro _ hw
  obtain ⟨child, hchild, rfl⟩ := List.mem_map.mp hw
  obtain ⟨hascending, hentries⟩ := pruned_enumerateChildren hnode
  refine ⟨(hentries child hchild).2, ?_⟩
  have hbelow := hfits.getChild [child.1]
  rw [FNode.getChild_cons, FNode.getChild_nil, getImmediateChild_eq,
    (mem_iff_lookup hascending).mp hchild] at hbelow
  rwa [List.append_nil]

/-- After a write was accepted its paths are brought up to date. -/
theorem Kept.ackUserWriteOn
    (h : Kept cmp scmp interior ref affected origin (view, accumulator))
    {order : DictionaryOrder K V} (horder : ∀ l, (order l).Perm l) {path : FPath K}
    {affectedTree : FImmutableTree K Unit}
    (haffected : ∀ other, affected other → ∃ m ∈ affectedTree.forEach, path ++ m.1 <+: other) :
    ∃ r, FViewProcessor.ackUserWriteOn cmp scmp debug order view path affectedTree ref accumulator
        = some r
      ∧ Kept cmp scmp interior ref (fun _ => False) origin r
      ∧ (view.cachedServerSnap.isFullyInitialized = true →
        r.1.cachedServerSnap.isFullyInitialized = true) := by
  have hbelow : ∀ other, affected other → path <+: other := by
    intro other hother
    obtain ⟨m, -, hpre⟩ := haffected other hother
    exact (List.prefix_append path m.1).trans hpre
  have hserver := h.sound.server
  unfold FViewProcessor.ackUserWriteOn
  by_cases hsome : (ref.shadowingWriteAtPath cmp scmp path).isSome
  · refine ⟨(view, accumulator), by rw [if_pos hsome], h.of_covered (fun _ other hother => ?_), id⟩
    obtain ⟨rest, rfl⟩ := hbelow other hother
    exact isSome_shadowing_append hvalid hsome rest
  rw [if_neg hsome]
  dsimp only
  cases hvalue : affectedTree.value with
  | some value =>
    rw [if_pos (by simp)]
    by_cases hcomplete : (path = [] ∧ view.cachedServerSnap.isFullyInitialized = true)
        ∨ view.cachedServerSnap.isCompleteForPath cmp path = true
    · rw [if_pos hcomplete]
      obtain ⟨r, hr, hkept, hfull⟩ := h.applyServerOverwriteTo hvalid hinside
        (hserver.getChild path) (h.fits.getChild path)
      refine ⟨r, hr, hkept.mono (fun other hother => hother.2 (hbelow other hother.1)), ?_⟩
      intro hold
      rw [hfull, hold, Bool.true_or]
    · rw [if_neg hcomplete]
      have hincomplete : view.cachedServerSnap.isFullyInitialized = false := by
        by_contra hfull
        rw [Bool.not_eq_false] at hfull
        exact hcomplete (.inr (isCompleteForPath_of_full hfull path))
      by_cases hroot : path = []
      · rw [if_pos hroot]
        subst hroot
        obtain ⟨changed, hchanged, hvalidChanged, hfit, -⟩ :=
          exists_fittingWrites scmp (fits_enumerateChildren hserver h.fits)
        rw [addWrites, List.foldlM_map] at hchanged
        obtain ⟨merge, hactual, hmerge, hfitMerge, -⟩ :=
          FView.exists_actualMerge hvalidChanged hfit
        obtain ⟨r, hr, hkept, hfull⟩ :=
          h.applyServerMergeTo hvalid hinside horder hactual hmerge hfitMerge
        refine ⟨r, ?_, hkept.of_incomplete hvalid (hfull.trans hincomplete),
          fun hold => hfull.trans hold⟩
        rw [hchanged]
        exact hr
      · rw [if_neg hroot]
        exact ⟨_, rfl, h.of_incomplete hvalid hincomplete, id⟩
  | none =>
    rw [if_neg (by simp)]
    have hwrites : ∀ w ∈ (affectedTree.forEach.filter (fun m =>
          view.cachedServerSnap.isCompleteForPath cmp (path.child m.1))).map
          (fun m => (m.1, view.cachedServerSnap.node.getChild cmp (path.child m.1))),
        w.2.Pruned cmp ∧ Fits cmp interior (ref.path ++ path ++ w.1) w.2 := by
      intro _ hw
      obtain ⟨m, -, rfl⟩ := List.mem_map.mp hw
      refine ⟨hserver.getChild _, ?_⟩
      rw [List.append_assoc]
      exact h.fits.getChild (path.child m.1)
    obtain ⟨changed, hchanged, hvalidChanged, hfit, hcover⟩ := exists_fittingWrites scmp hwrites
    obtain ⟨merge, hactual, hmerge, hfitMerge, hsomeMerge, hrootMerge⟩ :=
      FView.exists_actualMerge hvalidChanged hfit
    obtain ⟨r, hr, hkept, hfull⟩ :=
      h.applyServerMergeTo hvalid hinside horder hactual hmerge hfitMerge
    rw [foldlM_addWrite_if (fun other => view.cachedServerSnap.isCompleteForPath cmp
      (path.child other)) (fun other => view.cachedServerSnap.node.getChild cmp (path.child other)),
      hchanged]
    refine ⟨r, hr, ?_, fun hold => hfull.trans hold⟩
    by_cases hold : view.cachedServerSnap.isFullyInitialized = true
    · -- Everything is complete, so every affected path is written by the merge.
      refine hkept.mono (fun other hother => ?_)
      obtain ⟨m, hm, hpre⟩ := haffected other hother.1
      have hmem : (m.1, view.cachedServerSnap.node.getChild cmp (path.child m.1))
          ∈ (affectedTree.forEach.filter (fun m =>
            view.cachedServerSnap.isCompleteForPath cmp (path.child m.1))).map
            (fun m => (m.1, view.cachedServerSnap.node.getChild cmp (path.child m.1))) :=
        List.mem_map_of_mem (List.mem_filter.mpr ⟨hm, isCompleteForPath_of_full hold _⟩)
      have hwritten : (completeNodeAtPath cmp scmp changed m.1).isSome := by
        rw [hcover, cover_eq_of_mem hmem List.prefix_rfl none (some .empty),
          Option.isSome_iff_ne_none]
        exact cover_some _
      have hroot : completeNodeAtPath cmp scmp changed [] = none := by
        rw [hcover]
        refine cover_none (fun _ hw hpre => ?_)
        obtain ⟨m', hm', rfl⟩ := List.mem_map.mp hw
        exact ne_nil_of_mem_forEach hvalue (List.mem_filter.mp hm').1 (List.prefix_nil.mp hpre)
      have hbelowMerge := hsomeMerge m.1 hwritten
      cases hkey : path ++ m.1 with
      | nil => exact ne_nil_of_mem_forEach hvalue hm (List.append_eq_nil_iff.mp hkey).2
      | cons k rest =>
        rw [hkey] at hbelowMerge hpre
        obtain ⟨e, he, rfl⟩ := exists_childCompoundWrites hmerge (hrootMerge hroot) hbelowMerge
        exact hother.2 e he (((List.prefix_cons_inj e.1).mpr List.nil_prefix).trans hpre)
    · rw [Bool.not_eq_true] at hold
      exact hkept.of_incomplete hvalid (hfull.trans hold)

end answer

end FViewProcessor

end MeetupApp.Firebase
