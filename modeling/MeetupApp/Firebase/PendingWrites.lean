import MeetupApp.Firebase.WriteTree

/-! # What the pending writes show

    Runs of `FWriteTree`: writes are added, and the server answers them in the order
    in which they were added.  In every state the compound write `visibleWrites`
    applied to what the server sent is what the pending writes make of it one after
    another. -/

namespace MeetupApp.Firebase

open FImmutableTree FCompoundWrite

variable {K V : Type} {cmp scmp : K → K → Ordering}

/-! ## Section 1: Writes seen from one path -/

section cover
variable [DecidableEq K]

/-- What a write makes of the node that is written at the path `other`. -/
def coverStep (cmp : K → K → Ordering) (other : FPath K) (complete : Option (FNode K V))
    (w : FPath K × FNode K V) : Option (FNode K V) :=
  if w.1 <+: other then some (w.2.getChild cmp (other.drop w.1.length))
  else complete.map (fun node =>
    if other <+: w.1 then node.updateChild cmp (w.1.drop other.length) w.2 else node)

/-- What writes make of it, one after another. -/
def cover (cmp : K → K → Ordering) (writes : List (FPath K × FNode K V)) (other : FPath K)
    (complete : Option (FNode K V)) : Option (FNode K V) :=
  writes.foldl (coverStep cmp other) complete

variable {writes : List (FPath K × FNode K V)} {other : FPath K}

theorem cover_append (writes' : List (FPath K × FNode K V)) (complete : Option (FNode K V)) :
    cover cmp (writes ++ writes') other complete
      = cover cmp writes' other (cover cmp writes other complete) := by
  rw [cover, List.foldl_append]
  rfl

/-- Without a write at or above the path nothing is written there. -/
theorem cover_none (h : ∀ w ∈ writes, ¬ w.1 <+: other) : cover cmp writes other none = none := by
  induction writes with
  | nil => rfl
  | cons w writes ih =>
    have hstep : coverStep cmp other none w = none := by
      rw [coverStep, if_neg (h w (by simp))]
      rfl
    rw [cover, List.foldl_cons, hstep]
    exact ih (fun w' hw' => h w' (by simp [hw']))

/-- Once something is written at a path, something stays written there. -/
theorem cover_some (node : FNode K V) : cover cmp writes other (some node) ≠ none := by
  induction writes generalizing node with
  | nil =>
    intro h
    cases h
  | cons w writes ih =>
    rw [cover, List.foldl_cons, coverStep]
    split
    · exact ih _
    · exact ih _

/-- With a write at or above the path it makes no difference what was written before. -/
theorem cover_eq_of_mem {w : FPath K × FNode K V} (hw : w ∈ writes) (hpre : w.1 <+: other)
    (complete complete' : Option (FNode K V)) :
    cover cmp writes other complete = cover cmp writes other complete' := by
  induction writes generalizing complete complete' with
  | nil => cases hw
  | cons first writes ih =>
    rw [cover, cover, List.foldl_cons, List.foldl_cons]
    rcases List.mem_cons.mp hw with rfl | hw
    · rw [coverStep, coverStep, if_pos hpre, if_pos hpre]
    · exact ih hw _ _

variable [Std.TransCmp cmp] [Std.TransCmp scmp] [Std.LawfulEqCmp cmp] [Std.LawfulEqCmp scmp]

/-- Adding writes to a tree, seen from one path. -/
theorem addWrites_spec {write : FCompoundWrite K V} (hwrite : Valid cmp scmp write)
    (hwrites : ∀ w ∈ writes, w.2.Pruned cmp) :
    ∃ write', addWrites cmp scmp write writes = some write' ∧ Valid cmp scmp write'
      ∧ ∀ other, completeNodeAtPath cmp scmp write' other
          = cover cmp writes other (completeNodeAtPath cmp scmp write other) := by
  induction writes generalizing write with
  | nil => exact ⟨write, rfl, hwrite, fun _ => rfl⟩
  | cons w writes ih =>
    obtain ⟨next, hnext⟩ := exists_addWrite hwrite w.2 w.1
    have hvalid : Valid cmp scmp next := hwrite.addWrite (hwrites w (by simp)) hnext
    obtain ⟨write', hwrite', hvalid', hcover⟩ :=
      ih hvalid (fun w' hw' => hwrites w' (by simp [hw']))
    refine ⟨write', ?_, hvalid', ?_⟩
    · rw [addWrites_cons, hnext, Option.bind_some, hwrite']
    · intro other
      rw [hcover, completeNodeAtPath_addWrite hwrite hnext]
      rfl

end cover

/-- Removing paths above which nothing is written, seen from one path. -/
theorem removeWrites_spec [DecidableEq K] [Std.TransCmp scmp] [Std.LawfulEqCmp scmp]
    {write : FCompoundWrite K V} (hwrite : Valid cmp scmp write) {paths : List (FPath K)}
    (habove : ∀ path ∈ paths, ∀ above, above <+: path → above ≠ path →
      completeNodeAtPath cmp scmp write above = none) :
    Valid cmp scmp (paths.foldl (removeWriteAtPath scmp) write)
    ∧ ∀ other, completeNodeAtPath cmp scmp (paths.foldl (removeWriteAtPath scmp) write) other
        = if ∃ path ∈ paths, path <+: other then none
          else completeNodeAtPath cmp scmp write other := by
  induction paths generalizing write with
  | nil => exact ⟨hwrite, by simp⟩
  | cons path paths ih =>
    have hremoved := completeNodeAtPath_removeWriteAtPath hwrite (habove path (by simp))
    obtain ⟨hvalid, hother⟩ := ih (hwrite.removeWriteAtPath path) (by
      intro path' hpath' above hpre hne
      rw [hremoved]
      split
      · rfl
      · exact habove path' (by simp [hpath']) above hpre hne)
    refine ⟨hvalid, ?_⟩
    intro other
    rw [List.foldl_cons, hother, hremoved]
    by_cases hpath : path <+: other
    · simp [hpath]
    · simp [hpath]

/-! ## Section 2: Runs -/

namespace FWriteTree

/-- What happens to the pending writes. -/
inductive Label (K V : Type) where
  | overwrite (path : FPath K) (newData : FNode K V) (writeId : Int) (visible : Bool)
  | merge (path : FPath K) (changedChildren : FCompoundWrite K V) (writeId : Int)
  /-- The server answers the oldest pending write. -/
  | answered

section runs
variable (cmp scmp) [DecidableEq K]

/-- One step; `none` where an assertion fails or nothing is pending. -/
def step (tree : FWriteTree K V) : Label K V → Option (FWriteTree K V)
  | .overwrite path newData writeId visible =>
    addOverwriteAtPath cmp scmp tree path newData writeId visible
  | .merge path changedChildren writeId =>
    addMergeAtPath cmp scmp tree path changedChildren writeId
  | .answered => do
    let record ← tree.allWrites.head?
    let result ← removeWriteId cmp scmp tree record.writeId
    some result.1

/-- A write as this app issues it: visible, and with the direct children of its path. -/
def Plain : Label K V → Prop
  | .overwrite _ newData _ visible => newData.Pruned cmp ∧ visible = true
  | .merge _ changedChildren _ =>
    Valid cmp scmp changedChildren ∧ ∀ w ∈ changedChildren.forEach, w.1.length = 1
  | .answered => True

/-- The same of a record. -/
structure PlainRecord (record : FWriteRecord K V) : Prop where
  visible : record.visible = true
  pruned : ∀ w ∈ record.writes, w.2.Pruned cmp
  /-- a path below which the record is covers one of its writes or its own path -/
  direct : ∀ w ∈ record.writes, ∀ path, path <+: w.1 → path <+: record.path ∨ path = w.1
  below : ∀ w ∈ record.writes, record.path <+: w.1
  /-- no write of the record is above another one -/
  apart : ∀ w ∈ record.writes, ∀ w' ∈ record.writes, w'.1 <+: w.1 → w'.1 = w.1

end runs

/-- The pending writes, at their full paths and in order. -/
def pending (tree : FWriteTree K V) : List (FPath K × FNode K V) :=
  tree.allWrites.flatMap (·.writes)

/-- The compound write shows what the pending writes write. -/
structure Agrees (cmp scmp : K → K → Ordering) [DecidableEq K] (tree : FWriteTree K V) : Prop where
  valid : Valid cmp scmp tree.visibleWrites
  plain : ∀ record ∈ tree.allWrites, PlainRecord cmp record
  complete : ∀ path, completeNodeAtPath cmp scmp tree.visibleWrites path
    = cover cmp tree.pending path none

/-! ## Section 3: Records -/

section records
variable [DecidableEq K] {record : FWriteRecord K V}

theorem recordContainsPath_iff (path : FPath K) :
    recordContainsPath record path ↔ ∃ w ∈ record.writes, w.1 <+: path := by
  obtain ⟨writeId, recordPath, data, visible⟩ := record
  cases data with
  | overwrite node => simp [recordContainsPath, FWriteRecord.writes, FPath.contains_iff]
  | merge write =>
    simp only [recordContainsPath, List.any_eq_true, FPath.contains_iff, FWriteRecord.writes,
      List.mem_map]
    constructor
    · rintro ⟨w, hw, hpre⟩
      exact ⟨_, ⟨w, hw, rfl⟩, hpre⟩
    · rintro ⟨_, ⟨w, hw, rfl⟩, hpre⟩
      exact ⟨w, hw, hpre⟩

theorem addWrites_append (write : FCompoundWrite K V)
    (writes writes' : List (FPath K × FNode K V)) :
    addWrites cmp scmp write (writes ++ writes')
      = (addWrites cmp scmp write writes).bind (addWrites cmp scmp · writes') :=
  List.foldlM_append

theorem addCompoundWrite_eq (write merge : FCompoundWrite K V) (path : FPath K) :
    addCompoundWrite cmp scmp write merge path
      = addWrites cmp scmp write (merge.forEach.map (fun w => (path.child w.1, w.2))) := by
  rw [addWrites, List.foldlM_map]
  rfl

/-- With the filter that keeps everything, at the root, a record adds its writes. -/
theorem layerWrite_default (write : FCompoundWrite K V) :
    layerWrite cmp scmp defaultFilter [] write record
      = addWrites cmp scmp write record.writes := by
  obtain ⟨writeId, recordPath, data, visible⟩ := record
  have hroot : FPath.contains [] recordPath = true := FPath.contains_iff.mpr List.nil_prefix
  cases data with
  | overwrite node =>
    simp only [layerWrite, defaultFilter, if_true, hroot, FPath.relativePathFrom,
      FWriteRecord.writes]
    exact (bind_pure _).symm
  | merge merge =>
    simp only [layerWrite, defaultFilter, if_true, hroot, FPath.relativePathFrom,
      FWriteRecord.writes]
    exact addCompoundWrite_eq write merge recordPath

theorem layerTreeFromWrites_default (writes : List (FWriteRecord K V)) :
    layerTreeFromWrites cmp scmp writes defaultFilter []
      = addWrites cmp scmp emptyWrite (writes.flatMap (·.writes)) := by
  suffices hgen : ∀ write : FCompoundWrite K V,
      writes.foldlM (layerWrite cmp scmp defaultFilter []) write
        = addWrites cmp scmp write (writes.flatMap (·.writes)) from hgen emptyWrite
  induction writes with
  | nil => exact fun _ => rfl
  | cons record writes ih =>
    intro write
    rw [List.foldlM_cons, List.flatMap_cons, addWrites_append, layerWrite_default]
    exact congrArg (Option.bind _) (funext ih)

/-- What the loop over visible writes finds out about the oldest one. -/
theorem overlapLoop_spec {allWrites : List (FWriteRecord K V)}
    (hvisible : ∀ w ∈ allWrites, w.visible = true) (i : Nat) (hi : i ≤ allWrites.length)
    (overlaps : Bool) {visible' overlaps' : Bool}
    (h : overlapLoop record 0 allWrites i (true, overlaps) = (visible', overlaps')) :
    (visible' = false → ∃ w ∈ allWrites, recordContainsPath w record.path)
    ∧ (visible' = true → (∀ w ∈ allWrites.take i, ¬ recordContainsPath w record.path)
        ∧ (overlaps' = false → overlaps = false
            ∧ ∀ w ∈ allWrites.take i, ¬ record.path <+: w.path)) := by
  induction i generalizing overlaps with
  | zero =>
    obtain ⟨rfl, rfl⟩ := Prod.mk.inj h
    simp
  | succ i ih =>
    have hlt : i < allWrites.length := hi
    have hmem : allWrites[i] ∈ allWrites := List.getElem_mem hlt
    have htake : allWrites.take (i + 1) = allWrites.take i ++ [allWrites[i]] :=
      List.take_succ_eq_append_getElem hlt
    rw [overlapLoop, if_pos rfl, List.getElem?_eq_getElem hlt] at h
    simp only [hvisible _ hmem, if_true, ge_iff_le, Nat.zero_le, decide_true, Bool.true_and] at h
    split at h
    · next hcontains =>
      -- The loop stops at a write that covers the path.
      have hstop : overlapLoop record 0 allWrites i (false, overlaps) = (false, overlaps) := by
        cases i <;> rfl
      obtain ⟨rfl, rfl⟩ := Prod.mk.inj (hstop.symm.trans h)
      exact ⟨fun _ => ⟨_, hmem, hcontains⟩, fun hfalse => by cases hfalse⟩
    · next hcontains =>
      split at h
      · next hoverlap =>
        obtain ⟨hcovered, hfree⟩ := ih (Nat.le_of_lt hlt) true h
        refine ⟨hcovered, fun hvis => ⟨?_, ?_⟩⟩
        · intro w hw
          rw [htake, List.mem_append, List.mem_singleton] at hw
          rcases hw with hw | rfl
          · exact (hfree hvis).1 w hw
          · exact hcontains
        · intro hfalse
          cases ((hfree hvis).2 hfalse).1
      · next hoverlap =>
        obtain ⟨hcovered, hfree⟩ := ih (Nat.le_of_lt hlt) overlaps h
        refine ⟨hcovered, fun hvis => ⟨?_, fun hfalse => ⟨((hfree hvis).2 hfalse).1, ?_⟩⟩⟩
        · intro w hw
          rw [htake, List.mem_append, List.mem_singleton] at hw
          rcases hw with hw | rfl
          · exact (hfree hvis).1 w hw
          · exact hcontains
        · intro w hw
          rw [htake, List.mem_append, List.mem_singleton] at hw
          rcases hw with hw | rfl
          · exact ((hfree hvis).2 hfalse).2 w hw
          · rwa [← FPath.contains_iff]

end records

/-! ## Section 4: One step -/

section steps

theorem plainRecord_overwrite {writeId : Int} {path : FPath K} {node : FNode K V}
    (h : node.Pruned cmp) : PlainRecord cmp ⟨writeId, path, .overwrite node, true⟩ where
  visible := rfl
  pruned := by
    intro w hw
    obtain rfl := List.mem_singleton.mp hw
    exact h
  direct := by
    intro w hw path' hpre
    obtain rfl := List.mem_singleton.mp hw
    exact .inl hpre
  below := by
    intro w hw
    obtain rfl := List.mem_singleton.mp hw
    exact List.prefix_rfl
  apart := by
    intro w hw w' hw' _
    rw [List.mem_singleton.mp hw, List.mem_singleton.mp hw']

theorem plainRecord_merge {writeId : Int} {path : FPath K} {merge : FCompoundWrite K V}
    (h : Valid cmp scmp merge) (hdirect : ∀ w ∈ merge.forEach, w.1.length = 1) :
    PlainRecord cmp ⟨writeId, path, .merge merge, true⟩ where
  visible := rfl
  pruned := by
    intro w hw
    obtain ⟨below, hbelow, rfl⟩ := List.mem_map.mp hw
    exact h.pruned below hbelow
  direct := by
    intro w hw path' hpre
    obtain ⟨below, hbelow, rfl⟩ := List.mem_map.mp hw
    obtain ⟨k, hk⟩ := List.length_eq_one_iff.mp (hdirect below hbelow)
    dsimp only [FPath.child] at hpre ⊢
    rw [hk] at hpre ⊢
    exact (List.prefix_concat_iff.mp hpre).symm
  below := by
    intro w hw
    obtain ⟨below, -, rfl⟩ := List.mem_map.mp hw
    exact List.prefix_append _ _
  apart := by
    intro w hw w' hw' hpre
    obtain ⟨below, hbelow, rfl⟩ := List.mem_map.mp hw
    obtain ⟨below', hbelow', rfl⟩ := List.mem_map.mp hw'
    refine hpre.eq_of_length ?_
    simp [FPath.child, hdirect below hbelow, hdirect below' hbelow']

theorem pending_append (tree : FWriteTree K V) (write : FCompoundWrite K V)
    (record : FWriteRecord K V) (lastWriteId : Int) :
    pending ⟨write, tree.allWrites ++ [record], lastWriteId⟩ = tree.pending ++ record.writes := by
  simp [pending]

variable [DecidableEq K] {tree tree' : FWriteTree K V}

/-- The removal of the oldest record, case by case. -/
theorem removeWriteId_oldest {record : FWriteRecord K V} {rest : List (FWriteRecord K V)}
    (hall : tree.allWrites = record :: rest) (hvisible : record.visible = true) {changed : Bool}
    (h : removeWriteId cmp scmp tree record.writeId = some (tree', changed)) :
    ∃ visible overlaps write lastWriteId,
      overlapLoop record 0 rest rest.length (true, false) = (visible, overlaps)
      ∧ tree' = ⟨write, rest, lastWriteId⟩
      ∧ (visible = false → write = tree.visibleWrites)
      ∧ (visible = true → overlaps = true →
          layerTreeFromWrites cmp scmp rest defaultFilter [] = some write)
      ∧ (visible = true → overlaps = false →
          write = (record.writes.map (·.1)).foldl (removeWriteAtPath scmp)
            tree.visibleWrites) := by
  simp only [removeWriteId, hall, List.findIdx?_cons, decide_true, if_true, Option.bind_eq_bind,
    Option.bind_some, List.getElem?_cons_zero, List.eraseIdx_cons_zero, hvisible] at h
  generalize hloop : overlapLoop record 0 rest rest.length (true, false) = flags at h
  obtain ⟨visible, overlaps⟩ := flags
  cases visible with
  | false =>
    obtain ⟨rfl, rfl⟩ := Prod.mk.inj (Option.some.inj h)
    exact ⟨_, _, _, _, rfl, rfl, fun _ => rfl, by simp, by simp⟩
  | true =>
    cases overlaps with
    | true =>
      simp only [resetTree, Option.bind_eq_bind, Option.bind_eq_some_iff] at h
      obtain ⟨_, ⟨write, hlayer, hreset⟩, heq⟩ := h
      obtain rfl := Option.some.inj hreset
      obtain ⟨rfl, rfl⟩ := Prod.mk.inj (Option.some.inj heq)
      exact ⟨_, _, _, _, rfl, rfl, by simp, fun _ _ => hlayer, by simp⟩
    | false =>
      obtain ⟨writeId, path, data, _⟩ := record
      cases data with
      | overwrite node =>
        obtain ⟨rfl, rfl⟩ := Prod.mk.inj (Option.some.inj h)
        exact ⟨_, _, _, _, rfl, rfl, by simp, by simp, fun _ _ => rfl⟩
      | merge merge =>
        obtain ⟨rfl, rfl⟩ := Prod.mk.inj (Option.some.inj h)
        refine ⟨_, _, _, _, rfl, rfl, by simp, by simp, fun _ _ => ?_⟩
        rw [FWriteRecord.writes, List.map_map, List.foldl_map]
        rfl

theorem addWrites_singleton (write : FCompoundWrite K V) (w : FPath K × FNode K V) :
    addWrites cmp scmp write [w] = addWrite cmp scmp write w.2 w.1 := by
  rw [addWrites_cons]
  cases addWrite cmp scmp write w.2 w.1 <;> rfl

theorem agrees_init : Agrees cmp scmp (init : FWriteTree K V) where
  valid := .empty
  plain := by simp [init]
  complete := by
    intro path
    exact completeNodeAtPath_empty path

variable [Std.TransCmp scmp] [Std.LawfulEqCmp scmp]

/-- The written paths of a tree that agrees are paths of pending writes. -/
theorem exists_pending (h : Agrees cmp scmp tree) {w : FPath K × FNode K V}
    (hw : w ∈ tree.visibleWrites.forEach) : ∃ w' ∈ tree.pending, w'.1 = w.1 := by
  have hpruned : ∀ w ∈ tree.pending, w.2.Pruned cmp := by
    intro w hw
    obtain ⟨r, hr, hw⟩ := List.mem_flatMap.mp hw
    exact (h.plain r hr).pruned w hw
  obtain ⟨hcomplete, habove⟩ := completeNodeAtPath_of_mem h.valid hw
  rw [h.complete] at hcomplete
  by_contra hnone
  -- The write that covers the path is above it, and so covers a path above.
  have hcovered : ∃ w' ∈ tree.pending, w'.1 <+: w.1 := by
    by_contra hcon
    rw [cover_none (fun w' hw' hpre => hcon ⟨w', hw', hpre⟩)] at hcomplete
    cases hcomplete
  obtain ⟨w', hw', hpre⟩ := hcovered
  have hfirst := habove w'.1 hpre (fun heq => hnone ⟨w', hw', heq⟩)
  rw [h.complete] at hfirst
  have hsome : cover cmp tree.pending w'.1 none ≠ none := by
    rw [cover_eq_of_mem hw' List.prefix_rfl none (some .empty)]
    exact cover_some _
  exact hsome hfirst

variable [Std.TransCmp cmp] [Std.LawfulEqCmp cmp]

/-- Adding the writes of a record to the compound write. -/
theorem Agrees.add (h : Agrees cmp scmp tree) {record : FWriteRecord K V}
    (hrecord : PlainRecord cmp record) {write : FCompoundWrite K V}
    (hwrite : addWrites cmp scmp tree.visibleWrites record.writes = some write)
    (lastWriteId : Int) :
    Agrees cmp scmp ⟨write, tree.allWrites ++ [record], lastWriteId⟩ := by
  obtain ⟨write', hwrite', hvalid, hcover⟩ := addWrites_spec h.valid hrecord.pruned
  obtain rfl := Option.some.inj (hwrite.symm.trans hwrite')
  refine ⟨hvalid, ?_, ?_⟩
  · intro r hr
    rcases List.mem_append.mp hr with hr | hr
    · exact h.plain r hr
    · rwa [List.mem_singleton.mp hr]
  · intro path
    rw [hcover, h.complete, pending_append, cover_append]

/-- Without the oldest record, after the paths of its writes were removed, or the compound
    write was left alone or rebuilt. -/
theorem Agrees.remove (h : Agrees cmp scmp tree) {record : FWriteRecord K V}
    {rest : List (FWriteRecord K V)} (hall : tree.allWrites = record :: rest)
    {visible overlaps : Bool}
    (hloop : overlapLoop record 0 rest rest.length (true, false) = (visible, overlaps))
    {write : FCompoundWrite K V} {lastWriteId : Int}
    (hcovered : visible = false → write = tree.visibleWrites)
    (hreset : visible = true → overlaps = true →
      layerTreeFromWrites cmp scmp rest defaultFilter [] = some write)
    (hremove : visible = true → overlaps = false →
      write = (record.writes.map (·.1)).foldl (removeWriteAtPath scmp) tree.visibleWrites) :
    Agrees cmp scmp ⟨write, rest, lastWriteId⟩ := by
  have hrecord : PlainRecord cmp record := h.plain record (by simp [hall])
  have hrest : ∀ r ∈ rest, PlainRecord cmp r := fun r hr => h.plain r (by simp [hall, hr])
  have hpending : tree.pending = record.writes ++ rest.flatMap (·.writes) := by
    simp [pending, hall]
  obtain ⟨hcover, hfree⟩ :=
    overlapLoop_spec (fun r hr => (hrest r hr).visible) rest.length le_rfl false hloop
  rw [List.take_length] at hfree
  -- Where no write of the record is at or above, the record makes no difference.
  have hwithout : ∀ path, (∀ w ∈ record.writes, ¬ w.1 <+: path) →
      completeNodeAtPath cmp scmp tree.visibleWrites path
        = cover cmp (rest.flatMap (·.writes)) path none := by
    intro path hnone
    rw [h.complete, hpending, cover_append, cover_none hnone]
  cases visible with
  | false =>
    obtain rfl := hcovered rfl
    refine ⟨h.valid, hrest, ?_⟩
    intro path
    by_cases hsome : ∃ w ∈ record.writes, w.1 <+: path
    · -- A later write covers the record, so it is at or above the path as well.
      obtain ⟨w, hw, hpre⟩ := hsome
      obtain ⟨later, hlater, hcontains⟩ := hcover rfl
      obtain ⟨w', hw', hpre'⟩ := (recordContainsPath_iff record.path).mp hcontains
      rw [h.complete, hpending, cover_append]
      exact cover_eq_of_mem (List.mem_flatMap.mpr ⟨later, hlater, hw'⟩)
        (hpre'.trans ((hrecord.below w hw).trans hpre)) _ _
    · exact hwithout path (fun w hw hpre => hsome ⟨w, hw, hpre⟩)
  | true =>
    cases overlaps with
    | true =>
      have hempty : Valid cmp scmp (emptyWrite : FCompoundWrite K V) := .empty
      have hpruned : ∀ w ∈ rest.flatMap (·.writes), w.2.Pruned cmp := by
        intro w hw
        obtain ⟨r, hr, hw⟩ := List.mem_flatMap.mp hw
        exact (hrest r hr).pruned w hw
      obtain ⟨write', hwrite', hvalid, hcomplete⟩ := addWrites_spec hempty hpruned
      have hlayer := (layerTreeFromWrites_default rest).symm.trans (hreset rfl rfl)
      obtain rfl := Option.some.inj (hwrite'.symm.trans hlayer)
      refine ⟨hvalid, hrest, ?_⟩
      intro path
      rw [hcomplete, emptyWrite, completeNodeAtPath_empty]
      rfl
    | false =>
      obtain rfl := hremove rfl rfl
      obtain ⟨hnotCovered, hnotBelow⟩ := hfree rfl
      -- No other write is at, above or below the path of the record.
      have hapart : ∀ w ∈ rest.flatMap (·.writes), ¬ w.1 <+: record.path
          ∧ ¬ record.path <+: w.1 := by
        intro w hw
        obtain ⟨r, hr, hw⟩ := List.mem_flatMap.mp hw
        have hnot : ¬ w.1 <+: record.path := fun hpre =>
          hnotCovered r hr ((recordContainsPath_iff record.path).mpr ⟨w, hw, hpre⟩)
        refine ⟨hnot, fun hpre => ?_⟩
        rcases (hrest r hr).direct w hw _ hpre with hbelow | heq
        · exact (hnotBelow rfl).2 r hr hbelow
        · exact hnot (by rw [heq])
      have hnothing : ∀ path, (record.path <+: path ∨ path <+: record.path) →
          cover cmp (rest.flatMap (·.writes)) path none = none := by
        intro path hcomparable
        refine cover_none (fun w hw hpre => ?_)
        rcases hcomparable with hbelow | habove
        · rcases List.prefix_or_prefix_of_prefix hpre hbelow with hle | hle
          · exact (hapart w hw).1 hle
          · exact (hapart w hw).2 hle
        · exact (hapart w hw).1 (hpre.trans habove)
      have habove : ∀ path ∈ record.writes.map (·.1), ∀ above, above <+: path → above ≠ path →
          completeNodeAtPath cmp scmp tree.visibleWrites above = none := by
        intro path hpath above habove hne
        obtain ⟨w, hw, rfl⟩ := List.mem_map.mp hpath
        rw [hwithout above]
        · exact hnothing above (.inr ((hrecord.direct w hw above habove).resolve_right hne))
        · intro w' hw' hpre
          -- A write of the record above `above` would be above `w`.
          have hsame := hrecord.apart w hw w' hw' (hpre.trans habove)
          rw [hsame] at hpre
          exact hne (habove.eq_of_length_le hpre.length_le)
      obtain ⟨hvalid, hremoved⟩ := removeWrites_spec h.valid habove
      refine ⟨hvalid, hrest, ?_⟩
      intro path
      rw [hremoved]
      split
      · next hsome =>
        obtain ⟨_, hmem, hpre⟩ := hsome
        obtain ⟨w, hw, rfl⟩ := List.mem_map.mp hmem
        exact (hnothing path (.inl ((hrecord.below w hw).trans hpre))).symm
      · next hnone =>
        exact hwithout path (fun w hw hpre => hnone ⟨w.1, List.mem_map_of_mem hw, hpre⟩)

/-- Every step of the app's writes and the server's answers keeps the agreement. -/
theorem agrees_step {l : Label K V} (hplain : Plain cmp scmp l) (h : Agrees cmp scmp tree)
    (hstep : step cmp scmp tree l = some tree') : Agrees cmp scmp tree' := by
  cases l with
  | overwrite path newData writeId visible =>
    obtain ⟨hpruned, rfl⟩ := hplain
    simp only [step, addOverwriteAtPath] at hstep
    split at hstep
    · simp only [if_true, Option.bind_eq_bind, Option.bind_eq_some_iff] at hstep
      obtain ⟨write, hwrite, heq⟩ := hstep
      obtain rfl := Option.some.inj heq
      refine h.add (plainRecord_overwrite hpruned) ?_ writeId
      exact (addWrites_singleton _ _).trans hwrite
    · cases hstep
  | merge path changedChildren writeId =>
    obtain ⟨hvalid, hdirect⟩ := hplain
    simp only [step, addMergeAtPath] at hstep
    split at hstep
    · simp only [Option.bind_eq_bind, Option.bind_eq_some_iff] at hstep
      obtain ⟨write, hwrite, heq⟩ := hstep
      obtain rfl := Option.some.inj heq
      refine h.add (plainRecord_merge hvalid hdirect) ?_ writeId
      exact (addCompoundWrite_eq _ _ _).symm.trans hwrite
    · cases hstep
  | answered =>
    simp only [step, Option.bind_eq_bind, Option.bind_eq_some_iff] at hstep
    obtain ⟨record, hhead, ⟨_, changed⟩, hremoved, heq⟩ := hstep
    obtain rfl := Option.some.inj heq
    obtain ⟨rest, hall⟩ := List.head?_eq_some_iff.mp hhead
    have hvisible := (h.plain record (by simp [hall])).visible
    obtain ⟨visible, overlaps, write, lastWriteId, hloop, rfl, hcovered, hreset, hremove⟩ :=
      removeWriteId_oldest hall hvisible hremoved
    exact h.remove hall hloop hcovered hreset hremove

/-! ## Section 5: The result -/

/-- What a tree that agrees shows of a node without a leaf above a pending write. -/
theorem Agrees.applyToNode (h : Agrees cmp scmp tree) {node : FNode K V}
    (hnode : node.Pruned cmp) (hopen : ∀ w ∈ tree.pending, OpenAt cmp node w.1) :
    FCompoundWrite.applyToNode cmp tree.visibleWrites node
      = updateChildren cmp node tree.pending := by
  have hpruned : ∀ w ∈ tree.pending, w.2.Pruned cmp := by
    intro w hw
    obtain ⟨r, hr, hw⟩ := List.mem_flatMap.mp hw
    exact (h.plain r hr).pruned w hw
  have hempty : Valid cmp scmp (emptyWrite : FCompoundWrite K V) := .empty
  obtain ⟨write, hwrite, hvalid, hcover⟩ := addWrites_spec hempty hpruned
  obtain ⟨write', hwrite', -, hopen', happlied⟩ := exists_addWrites hempty hnode
    (by simp [emptyWrite, FImmutableTree.empty, forEach, forEachChild]) hpruned hopen
  obtain rfl := Option.some.inj (hwrite.symm.trans hwrite')
  have hvisible : ∀ w ∈ tree.visibleWrites.forEach, OpenAt cmp node w.1 := by
    intro w hw
    obtain ⟨w', hw', heq⟩ := exists_pending h hw
    rw [← heq]
    exact hopen w' hw'
  calc FCompoundWrite.applyToNode cmp tree.visibleWrites node
      = FCompoundWrite.applyToNode cmp write node := by
        refine (pruned_applyToNode h.valid hnode).ext_leafAt (pruned_applyToNode hvalid hnode) ?_
        intro path
        rw [leafAt_applyToNode h.valid hnode hvisible, leafAt_applyToNode hvalid hnode hopen',
          h.complete, hcover, emptyWrite, completeNodeAtPath_empty]
    _ = updateChildren cmp node tree.pending := happlied

end steps

/-- Answers out of order: after the second of two writes is removed, what it wrote is
    still shown. -/
theorem removeWriteId_newest :
    ∃ tree, Runs.exec (step compare compare) init
        [.overwrite [1] (.children [(2, .leaf 5)]) 0 true, .overwrite [1, 2] (.leaf 6) 1 true]
        = some tree
      ∧ (removeWriteId compare compare tree 1).map
          (fun r => (applyToNode compare r.1.visibleWrites (.empty : FNode Nat Nat),
            updateChildren compare .empty r.1.pending))
        = some (.children [(1, .children [(2, .leaf 6)])],
            .children [(1, .children [(2, .leaf 5)])]) :=
  ⟨_, rfl, rfl⟩

/-- A merge that names a deeper path: the answer to the write above takes it along. -/
theorem answered_below_merge :
    ∃ tree, Runs.exec (step compare compare) init
        [.overwrite [1, 2] (.leaf 5) 0 true,
         .merge [1] (.mk none [(2, .mk none [(3, ofValue (.leaf 7))])]) 1, .answered]
        = some tree
      ∧ applyToNode compare tree.visibleWrites (.empty : FNode Nat Nat) = .empty
      ∧ updateChildren compare (.empty : FNode Nat Nat) tree.pending
        = .children [(1, .children [(2, .children [(3, .leaf 7)])])] :=
  ⟨_, rfl, rfl, rfl⟩

end FWriteTree

end MeetupApp.Firebase
