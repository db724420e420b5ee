import MeetupApp.Firebase.Names
import MeetupApp.Firebase.ViewConsistency

/-! # Core/View/FView.m, Core/View/FEventGenerator.m, Core/FSyncPoint.m

    A view and its listener.  The listener is told what there is when it is registered,
    and from then on what happens to the children and the new value.

    Whatever the server sends while the pending writes stay as they are, a listener
    that follows the events has the children that are shown, and the value it was told
    last is the node that is computed from scratch. -/

namespace MeetupApp.Firebase

open SortedEntries FImmutableTree FCompoundWrite FViewProcessor

variable {K V : Type}

/-! ## Section 1: Events -/

/-- `FIRDataEventType`; in the order of their keys no child moves. -/
inductive FIRDataEventType where
  | childAdded
  | childRemoved
  | childChanged
  | value
deriving DecidableEq

namespace FChange

/-- `type` -/
def type : FChange K V → FIRDataEventType
  | child _ (.added _) => .childAdded
  | child _ (.removed _) => .childRemoved
  | child _ (.changed _ _) => .childChanged
  | value _ => .value

/-- `childKey`, which is nil for a value. -/
def childKey : FChange K V → Option K
  | child childKey _ => some childKey
  | value _ => none

/-- What there is after the change. -/
def node? : FChange K V → Option (FNode K V)
  | child _ (.added node) => some node
  | child _ (.removed _) => none
  | child _ (.changed node _) => some node
  | value node => some node

end FChange

/-- `FDataEvent`, with the key before that of a child that was added or changed. -/
structure FDataEvent (K V : Type) where
  change : FChange K V
  prevName : Option K

namespace FEventGenerator

section operations
variable (cmp : K → K → Ordering) (eventCache : FNode K V)

/-- `generateEventForChange:registration:eventCache:` -/
def generateEventForChange : FChange K V → Option (FDataEvent K V)
  | .value node => some ⟨.value node, none⟩
  | .child childKey (.removed node) => some ⟨.child childKey (.removed node), none⟩
  | .child childKey change => do
    let prevChildKey ← eventCache.predecessorChildKey cmp childKey
    some ⟨.child childKey change, prevChildKey⟩

/-- The changes of one type. -/
def ofType (eventType : FIRDataEventType) (changes : List (FChange K V)) : List (FChange K V) :=
  changes.filter (fun change => change.type = eventType)

/-- `generateEvents:forType:changes:eventCache:eventRegistrations:` for one registration of
    all types; the changes are sorted by their keys already. -/
def generateEvents (eventType : FIRDataEventType) (changes : List (FChange K V)) :
    Option (List (FDataEvent K V)) :=
  (ofType eventType changes).mapM (generateEventForChange cmp eventCache)

/-- `generateEventsForChanges:eventCache:eventRegistrations:` -/
def generateEventsForChanges (changes : List (FChange K V)) : Option (List (FDataEvent K V)) := do
  let removed ← generateEvents cmp eventCache .childRemoved changes
  let added ← generateEvents cmp eventCache .childAdded changes
  let changed ← generateEvents cmp eventCache .childChanged changes
  let values ← generateEvents cmp eventCache .value changes
  some (removed ++ added ++ changed ++ values)

end operations

/-- The changes in the order in which they are told. -/
def inOrder (changes : List (FChange K V)) : List (FChange K V) :=
  ofType .childRemoved changes ++ ofType .childAdded changes ++ ofType .childChanged changes
    ++ ofType .value changes

/-- What was added or changed is there. -/
def Present (cmp : K → K → Ordering) (eventCache : FNode K V) (changes : List (FChange K V)) :
    Prop :=
  ∀ childKey change, .child childKey change ∈ changes → (∀ node, change ≠ .removed node) →
    eventCache.hasChild cmp childKey = true

variable {cmp : K → K → Ordering} {eventCache : FNode K V} {changes : List (FChange K V)}

/-- For a child that is there the predecessor is found. -/
theorem exists_predecessorChildKey {childKey : K}
    (h : eventCache.hasChild cmp childKey = true) :
    ∃ prevChildKey, eventCache.predecessorChildKey cmp childKey = some prevChildKey := by
  cases eventCache with
  | leaf value => exact ⟨none, rfl⟩
  | children entries =>
    rw [FNode.predecessorChildKey]
    cases hlookup : lookup cmp childKey entries with
    | none =>
      rw [FNode.hasChild, FNode.getImmediateChild, hlookup] at h
      cases h
    | some child => exact ⟨_, rfl⟩

theorem exists_generateEventForChange (h : Present cmp eventCache changes)
    {change : FChange K V} (hmem : change ∈ changes) :
    ∃ event, generateEventForChange cmp eventCache change = some event
      ∧ event.change = change := by
  cases change with
  | value node => exact ⟨_, rfl, rfl⟩
  | child childKey change =>
    cases change with
    | removed node => exact ⟨_, rfl, rfl⟩
    | added node =>
      obtain ⟨prevChildKey, hprev⟩ := exists_predecessorChildKey (h _ _ hmem (by simp))
      refine ⟨⟨.child childKey (.added node), prevChildKey⟩, ?_, rfl⟩
      rw [generateEventForChange, hprev]
      · rfl
      · simp
    | changed node oldNode =>
      obtain ⟨prevChildKey, hprev⟩ := exists_predecessorChildKey (h _ _ hmem (by simp))
      refine ⟨⟨.child childKey (.changed node oldNode), prevChildKey⟩, ?_, rfl⟩
      rw [generateEventForChange, hprev]
      · rfl
      · simp

theorem exists_generateEvents (h : Present cmp eventCache changes)
    (eventType : FIRDataEventType) :
    ∃ events, generateEvents cmp eventCache eventType changes = some events
      ∧ events.map (·.change) = ofType eventType changes := by
  have hall : ∀ change ∈ ofType eventType changes, ∃ event,
      generateEventForChange cmp eventCache change = some event ∧ event.change = change :=
    fun change hmem => exists_generateEventForChange h (List.mem_of_mem_filter hmem)
  rw [generateEvents]
  generalize ofType eventType changes = selected at hall
  induction selected with
  | nil => exact ⟨[], rfl, rfl⟩
  | cons change selected ih =>
    obtain ⟨event, hevent, hchange⟩ := hall change (by simp)
    obtain ⟨events, hevents, hchanges⟩ := ih (fun change hmem => hall change (by simp [hmem]))
    refine ⟨event :: events, ?_, by rw [List.map_cons, hchange, hchanges]⟩
    rw [List.mapM_cons, hevent, hevents]
    rfl

/-- The predecessors of all children that are told of can be looked up. -/
theorem exists_generateEventsForChanges (h : Present cmp eventCache changes) :
    ∃ events, generateEventsForChanges cmp eventCache changes = some events
      ∧ events.map (·.change) = inOrder changes := by
  obtain ⟨removed, hremoved, hremovedChanges⟩ := exists_generateEvents h .childRemoved
  obtain ⟨added, hadded, haddedChanges⟩ := exists_generateEvents h .childAdded
  obtain ⟨changed, hchanged, hchangedChanges⟩ := exists_generateEvents h .childChanged
  obtain ⟨values, hvalues, hvaluesChanges⟩ := exists_generateEvents h .value
  refine ⟨removed ++ added ++ changed ++ values, ?_, ?_⟩
  · rw [generateEventsForChanges, hremoved, hadded, hchanged, hvalues]
    rfl
  · rw [List.map_append, List.map_append, List.map_append, hremovedChanges, haddedChanges,
      hchangedChanges, hvaluesChanges, inOrder]

end FEventGenerator

open FEventGenerator

/-! ## Section 2: Views -/

/-- `FView`, and what its listener was told. -/
structure FView (K V : Type) where
  viewCache : FViewCache K V
  told : List (FDataEvent K V)

/-- `initialEvents:`, the changes. -/
def FView.initialChanges (viewCache : FViewCache K V) : List (FChange K V) :=
  let eventSnap := viewCache.cachedEventSnap
  let initialChanges : List (FChange K V) :=
    eventSnap.node.enumerateChildren.map (fun e => .child e.1 (.added e.2))
  if eventSnap.isFullyInitialized then initialChanges ++ [.value eventSnap.node]
  else initialChanges

section operations
variable (cmp scmp : K → K → Ordering) [DecidableEq K]

/-- The caches of `addEventRegistration:forNonExistingViewForQuery:writesCache:serverCache:`. -/
def FSyncPoint.initialViewCache (writesCache : FWriteTreeRef K V)
    (serverCache : FCacheNode K V) : FViewCache K V :=
  let completeServerCache :=
    if serverCache.isFullyInitialized then some serverCache.node else none
  match writesCache.calculateCompleteEventCache cmp scmp completeServerCache with
  | some eventCache => ⟨⟨eventCache, true⟩, serverCache⟩
  | none =>
    ⟨⟨writesCache.calculateCompleteEventChildren cmp scmp serverCache.node, false⟩, serverCache⟩

/-- `addEventRegistration:forNonExistingViewForQuery:writesCache:serverCache:` -/
def FSyncPoint.addEventRegistration (writesCache : FWriteTreeRef K V)
    (serverCache : FCacheNode K V) : Option (FView K V) := do
  let viewCache := FSyncPoint.initialViewCache cmp scmp writesCache serverCache
  let events ← generateEventsForChanges cmp viewCache.cachedEventSnap.node
    (FView.initialChanges viewCache)
  some ⟨viewCache, events⟩

/-- `applyOperation:writesCache:serverCache:`; a failed assertion is `none`. -/
def FView.applyOperation [DecidableEq V] (debug : Bool) (order : DictionaryOrder K V)
    (writesCache : FWriteTreeRef K V) (view : FView K V)
    (operation : FOperation K V × Option (FNode K V)) : Option (FView K V) := do
  let oldViewCache := view.viewCache
  let (viewCache, changes) ←
    applyOperationOn cmp scmp debug order oldViewCache operation.1 writesCache operation.2
  -- Once a server snap is complete, it should never go back.
  if viewCache.cachedServerSnap.isFullyInitialized
      || !oldViewCache.cachedServerSnap.isFullyInitialized then do
    let events ← generateEventsForChanges cmp viewCache.cachedEventSnap.node changes
    some ⟨viewCache, view.told ++ events⟩
  else none

end operations

/-! ## Section 3: What a listener has heard -/

namespace FView

section heard
variable [DecidableEq K] {x : Option K} {changes : List (FChange K V)}
  {told events : List (FDataEvent K V)}

/-- A listener that keeps one child, or the value. -/
def tell (x : Option K) (had : Option (FNode K V)) (change : FChange K V) :
    Option (FNode K V) :=
  if change.childKey = x then change.node? else had

/-- What it has after the events. -/
def heard (x : Option K) (events : List (FDataEvent K V)) : Option (FNode K V) :=
  (events.map (·.change)).foldl (tell x) none

/-- The changes of the child, or those of the value. -/
def about (x : Option K) (changes : List (FChange K V)) : List (FChange K V) :=
  changes.filter (fun change => change.childKey = x)

theorem about_append (changes' : List (FChange K V)) :
    about x (changes ++ changes') = about x changes ++ about x changes' :=
  List.filter_append _ _

theorem foldl_tell (had : Option (FNode K V)) :
    changes.foldl (tell x) had = (about x changes).foldl (tell x) had := by
  rw [about, List.foldl_filter]
  congr 1
  funext had change
  by_cases hkey : change.childKey = x
  · rw [if_pos (by simpa using hkey)]
  · rw [tell, if_neg hkey, if_neg (by simpa using hkey)]

theorem about_ofType (eventType : FIRDataEventType) :
    about x (ofType eventType changes) = ofType eventType (about x changes) := by
  simp only [about, ofType, List.filter_filter, Bool.and_comm]

omit [DecidableEq K] in
/-- One change is one event. -/
theorem inOrder_toList (change : Option (FChange K V)) :
    inOrder change.toList = change.toList := by
  rcases change with _ | ⟨_, _ | _ | _⟩ | _ <;> rfl

/-- A single change of the child is what is heard of it. -/
theorem heard_append (told : List (FDataEvent K V)) {change : Option (FChange K V)}
    (hevents : events.map (·.change) = inOrder changes)
    (habout : about x changes = change.toList) :
    heard x (told ++ events) = change.elim (heard x told) FChange.node? := by
  have haboutEvents : about x (events.map (·.change)) = change.toList := by
    rw [hevents, ← inOrder_toList, ← habout]
    simp only [inOrder, about_append, about_ofType]
  rw [heard, List.map_append, List.foldl_append, foldl_tell, haboutEvents]
  cases change with
  | none => rfl
  | some change =>
    have hkey : change.childKey = x := by
      have hmem : change ∈ about x changes := by
        rw [habout]
        exact List.mem_singleton_self change
      simpa [about] using List.of_mem_filter hmem
    rw [Option.toList_some, List.foldl_cons, List.foldl_nil, tell, if_pos hkey]
    rfl

variable {cmp : K → K → Ordering} [Std.LawfulEqCmp cmp] [Std.TransCmp cmp]

/-- Of the changes in a dictionary one is about the child. -/
theorem about_child {T : Type} {entries : List (K × T)} (h : Ascending cmp entries)
    (f : T → ChildChange K V) (k : K) :
    about (some k) (entries.map (fun e => FChange.child e.1 (f e.2)))
      = ((lookup cmp k entries).map (fun v => FChange.child k (f v))).toList := by
  induction entries with
  | nil => rfl
  | cons e entries ih =>
    obtain ⟨hhead, hother⟩ := h.lookup_cons
    have htail := ih (ascending_cons.mp h).2
    rw [List.map_cons, about, List.filter_cons]
    by_cases hk : e.1 = k
    · subst hk
      rw [hhead] at htail
      rw [if_pos (by simp [FChange.childKey]), ← about, htail,
        lookup_cons_eq Std.ReflCmp.compare_self]
      rfl
    · rw [if_neg (by simpa [FChange.childKey] using hk), ← about, htail,
        hother k (fun heq => hk heq.symm)]

omit [Std.LawfulEqCmp cmp] [Std.TransCmp cmp] in
theorem about_none {T : Type} (entries : List (K × T)) (f : T → ChildChange K V) :
    about none (entries.map (fun e => FChange.child e.1 (f e.2))) = [] := by
  rw [about, List.filter_eq_nil_iff]
  intro change hchange
  obtain ⟨e, -, rfl⟩ := List.mem_map.mp hchange
  simp [FChange.childKey]

end heard

/-! ## Section 4: What the server sends -/

/-- The paths above the written ones. -/
def Above (writes : List (FPath K × FNode K V)) (path : FPath K) : Prop :=
  ∃ w ∈ writes, path <+: w.1 ∧ path ≠ w.1

theorem inside_above (writes : List (FPath K × FNode K V)) : Inside (Above writes) writes :=
  fun w hw _ hpre hne => ⟨w, hw, hpre, hne⟩

/-- An operation of the server, with stored nodes that have no leaf at an interior path. -/
inductive FromServer (cmp scmp : K → K → Ordering) [DecidableEq K] (interior : FPath K → Prop)
    (base : FPath K) : FOperation K V → Prop where
  | overwrite {path : FPath K} {snap : FNode K V} (pruned : snap.Pruned cmp)
      (fits : Fits cmp interior (base ++ path) snap) :
      FromServer cmp scmp interior base (.overwrite .server path snap)
  | merge {path : FPath K} {children : FCompoundWrite K V} (valid : Valid cmp scmp children)
      (fits : WritesFit cmp scmp interior (base ++ path) children) :
      FromServer cmp scmp interior base (.merge .server path children)
  | listenComplete (path : FPath K) : FromServer cmp scmp interior base (.listenComplete path)

section server
variable {cmp scmp : K → K → Ordering} [DecidableEq K] [Std.TransCmp cmp] [Std.LawfulEqCmp cmp]
  [Std.TransCmp scmp] [Std.LawfulEqCmp scmp] {interior : FPath K → Prop}
  {ref : FWriteTreeRef K V} {origin : K → FNode K V}

/-- A merge at a path is one at the location, which fits there and writes the same. -/
theorem exists_actualMerge {base path : FPath K} {changedChildren : FCompoundWrite K V}
    (hvalid : Valid cmp scmp changedChildren)
    (hfit : WritesFit cmp scmp interior (base ++ path) changedChildren) :
    ∃ merge, (if path = [] then some changedChildren
        else addCompoundWrite cmp scmp emptyWrite changedChildren path) = some merge
      ∧ Valid cmp scmp merge ∧ WritesFit cmp scmp interior base merge
      ∧ (∀ rest, (completeNodeAtPath cmp scmp changedChildren rest).isSome →
        (completeNodeAtPath cmp scmp merge (path ++ rest)).isSome)
      ∧ (completeNodeAtPath cmp scmp changedChildren [] = none →
        completeNodeAtPath cmp scmp merge [] = none) := by
  by_cases hpath : path = []
  · subst hpath
    rw [List.append_nil] at hfit
    exact ⟨changedChildren, if_pos rfl, hvalid, hfit, fun _ hsome => hsome, id⟩
  rw [if_neg hpath, FWriteTree.addCompoundWrite_eq]
  have hempty : Valid cmp scmp (emptyWrite : FCompoundWrite K V) := .empty
  have hwrites : ∀ w ∈ changedChildren.forEach.map (fun w => (path.child w.1, w.2)),
      w.2.Pruned cmp ∧ Fits cmp interior (base ++ w.1) w.2 := by
    intro _ hmem
    obtain ⟨w, hw, rfl⟩ := List.mem_map.mp hmem
    refine ⟨hvalid.pruned w hw, ?_⟩
    rw [FPath.child, ← List.append_assoc]
    exact hfit.of_mem hvalid hw
  obtain ⟨merge, hmerge, hvalidMerge, hcover⟩ :=
    addWrites_spec hempty (fun w hw => (hwrites w hw).1)
  refine ⟨merge, hmerge, hvalidMerge, writesFit_empty.addWrites hempty hwrites hmerge, ?_, ?_⟩
  · intro rest hsome
    obtain ⟨node, hnode⟩ := Option.isSome_iff_exists.mp hsome
    obtain ⟨w, hw, hpre, -⟩ := exists_of_completeNodeAtPath hvalid hnode
    have hmem : (path.child w.1, w.2)
        ∈ changedChildren.forEach.map (fun w => (path.child w.1, w.2)) := List.mem_map_of_mem hw
    rw [hcover, cover_eq_of_mem hmem ((List.prefix_append_right_inj path).mpr hpre) _
      (some .empty), Option.isSome_iff_ne_none]
    exact cover_some _
  · intro _
    rw [hcover, emptyWrite, completeNodeAtPath_empty]
    refine cover_none (fun _ hmem hpre => hpath ?_)
    obtain ⟨w, -, rfl⟩ := List.mem_map.mp hmem
    exact (List.append_eq_nil_iff.mp (List.prefix_nil.mp hpre)).1

/-- An operation of the server leaves a current view current. -/
theorem exists_applyOperationOn [DecidableEq V] {debug : Bool}
    (hvalid : Valid cmp scmp ref.writeTree.visibleWrites)
    (hinside : Inside interior ref.writeTree.visibleWrites.forEach) {order : DictionaryOrder K V}
    (horder : ∀ l, (order l).Perm l) {view : FViewCache K V} {operation : FOperation K V}
    (hserver : FromServer cmp scmp interior ref.path operation)
    (h : Kept cmp scmp interior ref (fun _ => False) origin (view, []))
    (optCompleteCache : Option (FNode K V)) :
    ∃ r, applyOperationOn cmp scmp debug order view operation ref optCompleteCache
        = some (r.1, maybeAddValue cmp view r.1 r.2.changes)
      ∧ Kept cmp scmp interior ref (fun _ => False) origin r
      ∧ (view.cachedServerSnap.isFullyInitialized = true →
        r.1.cachedServerSnap.isFullyInitialized = true) := by
  cases hserver with
  | @overwrite path snap pruned fits =>
    obtain ⟨r, hr, hkept, hfull⟩ := h.applyServerOverwriteTo hvalid hinside pruned fits
    refine ⟨r, ?_, hkept.mono (fun _ hother => hother.1), fun hold => by rw [hfull, hold]; rfl⟩
    rw [applyOperationOn, hr]
    rfl
  | @merge path children valid fits =>
    obtain ⟨merge, hactual, hmerge, hfits, -⟩ := exists_actualMerge valid fits
    obtain ⟨r, hr, hkept, hfull⟩ :=
      h.applyServerMergeTo hvalid hinside horder hactual hmerge hfits
    refine ⟨r, ?_, hkept.mono (fun _ hother => hother.1), fun hold => hfull.trans hold⟩
    rw [applyOperationOn, hr]
    rfl
  | listenComplete path =>
    obtain ⟨r, hr, hkept, hfull⟩ := h.listenCompleteOldCache hvalid hinside path
    refine ⟨r, ?_, hkept.mono (fun _ hother => hother.1), fun hold => by rw [hfull, hold]; rfl⟩
    rw [applyOperationOn, hr]
    rfl

end server

/-! ## Section 5: Listeners -/

section listener
variable {cmp scmp : K → K → Ordering} [Std.TransCmp cmp] [Std.LawfulEqCmp cmp]

/-- If no child changed, a node that has children is the old one. -/
theorem eq_of_children {old new : FNode K V} (hold : old.Pruned cmp) (hnew : new.Pruned cmp)
    (hchildren : ∀ k, old.getImmediateChild cmp k = new.getImmediateChild cmp k)
    (hleaf : new.isLeafNode = false) (hnonempty : new.isEmpty = false) : new = old := by
  obtain ⟨rest, value, hvalue⟩ := hnew.exists_leaf hnonempty
  refine hnew.ext_leafAt hold ?_
  intro path
  cases path with
  | cons k path =>
    rw [FNode.leafAt, FNode.leafAt, FNode.getChild_cons, FNode.getChild_cons, hchildren]
  | nil =>
    cases new with
    | leaf value => cases hleaf
    | children entries =>
      cases old with
      | children entries' => rfl
      | leaf value' =>
        -- Something is below a child, but a leaf has none.
        cases rest with
        | nil => cases hvalue
        | cons k rest =>
          rw [FNode.leafAt, FNode.getChild_cons, ← hchildren, ← FNode.leafAt] at hvalue
          change (FNode.empty : FNode K V).leafAt cmp rest = some value at hvalue
          rw [FNode.leafAt_empty] at hvalue
          cases hvalue

variable [DecidableEq V] {old new : FViewCache K V}

/-- The value is added, or nothing says that it changed. -/
theorem maybeAddValue_spec (cmp : K → K → Ordering) (old new : FViewCache K V)
    (changes : List (FChange K V)) :
    (maybeAddValue cmp old new changes = changes ++ [.value new.cachedEventSnap.node]) ∨
    (maybeAddValue cmp old new changes = changes
      ∧ (new.cachedEventSnap.isFullyInitialized = true →
        changes = [] ∧ old.cachedEventSnap.isFullyInitialized = true
          ∧ ((new.cachedEventSnap.node.isLeafNode || new.cachedEventSnap.node.isEmpty) = true →
            new.cachedEventSnap.node.isEqual cmp old.cachedEventSnap.node = true))) := by
  unfold maybeAddValue
  dsimp only
  by_cases hfull : new.cachedEventSnap.isFullyInitialized = true
  · rw [if_pos hfull]
    cases hold : old.cachedEventSnap.isFullyInitialized with
    | false => exact .inl (if_pos (by simp))
    | true =>
      rw [FViewCache.completeEventSnap, if_pos hold]
      dsimp only
      split
      · exact .inl rfl
      · next hnothing =>
        simp only [Bool.or_eq_true, decide_eq_true_iff, Bool.not_true, Bool.and_eq_true, not_or,
          not_and, Bool.not_eq_true', Bool.not_eq_false, Nat.not_lt, Nat.le_zero,
          List.length_eq_zero_iff] at hnothing
        refine .inr ⟨rfl, fun _ => ⟨hnothing.1.1, rfl, fun hleaf => hnothing.2 ?_⟩⟩
        rwa [Bool.or_eq_true] at hleaf
  · rw [if_neg hfull]
    exact .inr ⟨rfl, fun htrue => absurd htrue hfull⟩

variable {accumulator : FChildChangeAccumulator K V} {told events : List (FDataEvent K V)}

/-- What was collected is there, so its events can be generated. -/
theorem present_maybeAddValue (old : FViewCache K V) {origin : K → FNode K V}
    (h : Sound cmp origin (new, accumulator)) :
    Present cmp new.cachedEventSnap.node (maybeAddValue cmp old new accumulator.changes) := by
  intro childKey change hmem hnotRemoved
  have hcollected : FChange.child childKey change ∈ accumulator.changes := by
    rcases maybeAddValue_spec cmp old new accumulator.changes with hadded | ⟨hsame, -⟩
    · rw [hadded] at hmem
      simpa using hmem
    · rwa [hsame] at hmem
  obtain ⟨e, he, heq⟩ := List.mem_map.mp hcollected
  obtain ⟨rfl, rfl⟩ := FChange.child.inj heq
  have hdescribes := h.tracks.describes e.1
  rw [(mem_iff_lookup h.tracks.ascending).mp he] at hdescribes
  rw [FNode.hasChild, Bool.not_eq_true']
  cases hchange : e.2 with
  | removed node => exact absurd hchange (hnotRemoved node)
  | added node =>
    rw [hchange] at hdescribes
    exact hdescribes.2.1
  | changed node oldNode =>
    rw [hchange] at hdescribes
    exact hdescribes.2.1

variable [DecidableEq K]

/-- What is heard of a child. -/
theorem heard_child {origin : K → FNode K V} (h : Sound cmp origin (new, accumulator)) {k : K}
    (hevents : events.map (·.change)
      = inOrder (maybeAddValue cmp old new accumulator.changes))
    (hheard : (heard (some k) told).getD .empty = origin k) :
    (heard (some k) (told ++ events)).getD .empty
      = new.cachedEventSnap.node.getImmediateChild cmp k := by
  have hchanges : about (some k) accumulator.changes
      = ((lookup cmp k accumulator).map (FChange.child k)).toList :=
    about_child h.tracks.ascending id k
  have habout : about (some k) (maybeAddValue cmp old new accumulator.changes)
      = ((lookup cmp k accumulator).map (FChange.child k)).toList := by
    rcases maybeAddValue_spec cmp old new accumulator.changes with hadded | ⟨hsame, -⟩
    · rw [hadded, about_append, hchanges]
      simp [about, FChange.childKey]
    · rw [hsame, hchanges]
  rw [heard_append told hevents habout]
  have hdescribes := h.tracks.describes k
  cases hlookup : lookup cmp k accumulator with
  | none =>
    rw [hlookup] at hdescribes
    exact hheard.trans hdescribes
  | some change =>
    rw [hlookup] at hdescribes
    cases change with
    | added node => exact hdescribes.2.2
    | removed node => exact (FNode.eq_empty_of_isEmpty hdescribes.2.1).symm
    | changed node oldNode => exact hdescribes.2.2.1

/-- What is heard of the value. -/
theorem heard_value (h : Sound cmp (old.cachedEventSnap.node.getImmediateChild cmp)
      (new, accumulator)) (hpruned : old.cachedEventSnap.node.Pruned cmp)
    (hevents : events.map (·.change)
      = inOrder (maybeAddValue cmp old new accumulator.changes))
    (hheard : old.cachedEventSnap.isFullyInitialized = true →
      heard none told = some old.cachedEventSnap.node)
    (hfull : new.cachedEventSnap.isFullyInitialized = true) :
    heard none (told ++ events) = some new.cachedEventSnap.node := by
  have hchanges : about none accumulator.changes = ([] : List (FChange K V)) :=
    about_none accumulator id
  rcases maybeAddValue_spec cmp old new accumulator.changes with hadded | ⟨hsame, hnothing⟩
  · have habout : about none (maybeAddValue cmp old new accumulator.changes)
        = (some (FChange.value new.cachedEventSnap.node)).toList := by
      rw [hadded, about_append, hchanges]
      rfl
    rw [heard_append told hevents habout]
    rfl
  · obtain ⟨hempty, hold, hequal⟩ := hnothing hfull
    have habout : about none (maybeAddValue cmp old new accumulator.changes)
        = (none : Option (FChange K V)).toList := by
      rw [hsame, hchanges]
      rfl
    rw [heard_append told hevents habout, Option.elim_none, hheard hold]
    refine congrArg some ?_
    by_cases hleaf : (new.cachedEventSnap.node.isLeafNode
        || new.cachedEventSnap.node.isEmpty) = true
    · exact ((h.event.isEqual_iff hpruned).mp (hequal hleaf)).symm
    · rw [Bool.or_eq_true, not_or, Bool.not_eq_true, Bool.not_eq_true] at hleaf
      refine (eq_of_children hpruned h.event (fun k => ?_) hleaf.1 hleaf.2).symm
      have hdescribes := h.tracks.describes k
      rw [List.map_eq_nil_iff.mp hempty] at hdescribes
      exact hdescribes

/-- The view is current, and its listener has heard what it shows. -/
structure Followed (cmp scmp : K → K → Ordering) [DecidableEq K] (interior : FPath K → Prop)
    (ref : FWriteTreeRef K V) (view : FView K V) : Prop where
  kept : Kept cmp scmp interior ref (fun _ => False)
    (view.viewCache.cachedEventSnap.node.getImmediateChild cmp) (view.viewCache, [])
  child : ∀ k, (heard (some k) view.told).getD .empty
    = view.viewCache.cachedEventSnap.node.getImmediateChild cmp k
  value : view.viewCache.cachedEventSnap.isFullyInitialized = true →
    heard none view.told = some view.viewCache.cachedEventSnap.node

variable {debug : Bool} [Std.TransCmp scmp] [Std.LawfulEqCmp scmp] {interior : FPath K → Prop}
  {ref : FWriteTreeRef K V}

omit [Std.LawfulEqCmp cmp] [DecidableEq V] in
/-- What is registered is computed from scratch. -/
theorem initialViewCache_spec (hvalid : Valid cmp scmp ref.writeTree.visibleWrites)
    {serverCache : FCacheNode K V} (hpruned : serverCache.node.Pruned cmp)
    {view : FViewCache K V}
    (hview : FSyncPoint.initialViewCache cmp scmp ref serverCache = view) :
    view.cachedServerSnap = serverCache ∧ view.cachedEventSnap.node.Pruned cmp
      ∧ (Known cmp scmp ref view →
        view.cachedEventSnap = ⟨ref.shown cmp scmp serverCache.node, true⟩) := by
  have hshown := FWriteTreeRef.pruned_shown hvalid hpruned
  rw [FSyncPoint.initialViewCache] at hview
  cases hfull : serverCache.isFullyInitialized with
  | true =>
    rw [hfull, if_pos rfl, FWriteTreeRef.calculateCompleteEventCache_some] at hview
    subst hview
    exact ⟨rfl, hshown, fun _ => rfl⟩
  | false =>
    rw [hfull, if_neg Bool.false_ne_true,
      FWriteTreeRef.calculateCompleteEventCache_none hvalid] at hview
    cases hshadow : ref.shadowingWriteAtPath cmp scmp [] with
    | some node =>
      rw [hshadow] at hview
      subst hview
      rw [FWriteTreeRef.shown_of_shadowing hshadow] at hshown ⊢
      exact ⟨rfl, hshown, fun _ => rfl⟩
    | none =>
      rw [hshadow] at hview
      subst hview
      refine ⟨rfl, FWriteTreeRef.pruned_calculateCompleteEventChildren hvalid hpruned, ?_⟩
      rintro (hknown | hknown)
      · exact absurd (hfull.symm.trans hknown) Bool.false_ne_true
      · rw [hshadow] at hknown
        cases hknown

omit [Std.TransCmp scmp] [Std.LawfulEqCmp scmp] [DecidableEq V] [DecidableEq K] in
/-- What is registered first is there. -/
theorem present_initialChanges {view : FViewCache K V}
    (hpruned : view.cachedEventSnap.node.Pruned cmp) :
    Present cmp view.cachedEventSnap.node (initialChanges view) := by
  obtain ⟨hascending, hentries⟩ := FIndexedFilter.pruned_enumerateChildren hpruned
  intro childKey change hmem _
  have hadded : FChange.child childKey change
      ∈ view.cachedEventSnap.node.enumerateChildren.map (fun e => .child e.1 (.added e.2)) := by
    rw [initialChanges] at hmem
    split at hmem
    · simpa using hmem
    · exact hmem
  obtain ⟨e, he, heq⟩ := List.mem_map.mp hadded
  obtain ⟨rfl, -⟩ := FChange.child.inj heq
  rw [FNode.hasChild, FIndexedFilter.getImmediateChild_eq, (mem_iff_lookup hascending).mp he,
    Option.getD_some, (hentries e he).1]
  rfl

omit [Std.TransCmp scmp] [Std.LawfulEqCmp scmp] [DecidableEq V] in
/-- When it is registered the listener hears of everything. -/
theorem heard_initialChanges {view : FViewCache K V} {events : List (FDataEvent K V)}
    (hevents : events.map (·.change) = inOrder (initialChanges view))
    (hpruned : view.cachedEventSnap.node.Pruned cmp) :
    (∀ k, (heard (some k) events).getD .empty
        = view.cachedEventSnap.node.getImmediateChild cmp k)
      ∧ (view.cachedEventSnap.isFullyInitialized = true →
        heard none events = some view.cachedEventSnap.node) := by
  have hchildren : ∀ k, about (some k) (initialChanges view)
      = ((lookup cmp k view.cachedEventSnap.node.enumerateChildren).map
        (fun node => FChange.child k (.added node))).toList := by
    intro k
    have hadded := about_child (FIndexedFilter.pruned_enumerateChildren hpruned).1
      ChildChange.added k
    rw [initialChanges]
    split
    · rw [about_append, hadded]
      simp [about, FChange.childKey]
    · exact hadded
  constructor
  · intro k
    have hheard := heard_append [] hevents (hchildren k)
    rw [List.nil_append] at hheard
    rw [hheard, FIndexedFilter.getImmediateChild_eq]
    cases lookup cmp k view.cachedEventSnap.node.enumerateChildren <;> rfl
  · intro hfull
    have hvalue : about none (initialChanges view)
        = (some (FChange.value view.cachedEventSnap.node)).toList := by
      rw [initialChanges, if_pos hfull, about_append, about_none _ ChildChange.added]
      rfl
    exact heard_append [] hevents hvalue

omit [DecidableEq V] in
/-- A listener can be registered, and has heard what is computed from scratch. -/
theorem exists_addEventRegistration (hvalid : Valid cmp scmp ref.writeTree.visibleWrites)
    {serverCache : FCacheNode K V} (hpruned : serverCache.node.Pruned cmp)
    (hfits : Fits cmp interior ref.path serverCache.node) :
    ∃ view, FSyncPoint.addEventRegistration cmp scmp ref serverCache = some view
      ∧ view.viewCache.cachedServerSnap = serverCache
      ∧ Followed cmp scmp interior ref view := by
  rw [FSyncPoint.addEventRegistration]
  generalize hview : FSyncPoint.initialViewCache cmp scmp ref serverCache = view
  obtain ⟨hserver, hevent, hshown⟩ := initialViewCache_spec hvalid hpruned hview
  obtain ⟨events, hgenerated, hevents⟩ :=
    exists_generateEventsForChanges (present_initialChanges hevent)
  rw [← hserver] at hpruned hfits hshown
  obtain ⟨hchild, hvalue⟩ := heard_initialChanges hevents hevent
  refine ⟨⟨view, events⟩, ?_, hserver, ?_⟩
  · rw [hgenerated]
    rfl
  · exact ⟨⟨⟨hevent, hpruned, tracks_nil _⟩, hfits, current_of_known hshown⟩, hchild, hvalue⟩

omit [Std.TransCmp scmp] [Std.LawfulEqCmp scmp] in
/-- What an operation makes of a current view is told to the listener, also when the pending
    writes are others now. -/
theorem Followed.exists_applyOperation {ref' : FWriteTreeRef K V} {order : DictionaryOrder K V}
    {view : FView K V} (h : Followed cmp scmp interior ref view)
    {operation : FOperation K V} {optCompleteCache : Option (FNode K V)} {r : Tracked K V}
    (hr : applyOperationOn cmp scmp debug order view.viewCache operation ref' optCompleteCache
      = some (r.1, maybeAddValue cmp view.viewCache r.1 r.2.changes))
    (hkept : Kept cmp scmp interior ref' (fun _ => False)
      (view.viewCache.cachedEventSnap.node.getImmediateChild cmp) r)
    (hfull : view.viewCache.cachedServerSnap.isFullyInitialized = true →
      r.1.cachedServerSnap.isFullyInitialized = true) :
    ∃ view', view.applyOperation cmp scmp debug order ref' (operation, optCompleteCache)
        = some view'
      ∧ Followed cmp scmp interior ref' view' := by
  obtain ⟨viewCache, accumulator⟩ := r
  obtain ⟨events, hgenerated, hevents⟩ :=
    exists_generateEventsForChanges (present_maybeAddValue view.viewCache hkept.sound)
  refine ⟨⟨viewCache, view.told ++ events⟩, ?_, ?_, ?_, ?_⟩
  · have hnever : (viewCache.cachedServerSnap.isFullyInitialized
        || !view.viewCache.cachedServerSnap.isFullyInitialized) = true := by
      cases hold : view.viewCache.cachedServerSnap.isFullyInitialized with
      | false => simp
      | true => rw [hfull hold, Bool.true_or]
    rw [FView.applyOperation, hr]
    simp only [Option.bind_eq_bind, Option.bind_some]
    rw [if_pos hnever, hgenerated, Option.bind_some]
  · exact ⟨⟨hkept.sound.event, hkept.sound.server, tracks_nil _⟩, hkept.fits, hkept.current⟩
  · exact fun k => heard_child hkept.sound hevents (h.child k)
  · exact heard_value hkept.sound h.kept.sound.event hevents h.value

/-- An operation of the server is told to the listener. -/
theorem Followed.applyOperation {order : DictionaryOrder K V} {view : FView K V}
    (h : Followed cmp scmp interior ref view)
    (hvalid : Valid cmp scmp ref.writeTree.visibleWrites)
    (hinside : Inside interior ref.writeTree.visibleWrites.forEach)
    (horder : ∀ l, (order l).Perm l) {operation : FOperation K V × Option (FNode K V)}
    (hserver : FromServer cmp scmp interior ref.path operation.1) :
    ∃ view', view.applyOperation cmp scmp debug order ref operation = some view'
      ∧ Followed cmp scmp interior ref view' := by
  obtain ⟨r, hr, hkept, hfull⟩ :=
    exists_applyOperationOn hvalid hinside horder hserver h.kept operation.2
  exact h.exists_applyOperation hr hkept hfull

omit [DecidableEq V] in
/-- A view that is followed shows what can be computed, and its listener has heard it. -/
theorem Followed.shown {view : FView K V} (h : Followed cmp scmp interior ref view)
    (hvalid : Valid cmp scmp ref.writeTree.visibleWrites) {node : FNode K V}
    (hnode : ref.calculateCompleteEventCache cmp scmp view.viewCache.completeServerSnap
      = some node) :
    view.viewCache.completeEventSnap = some node ∧ heard none view.told = some node := by
  have hevent : view.viewCache.cachedEventSnap = ⟨node, true⟩ := by
    rw [FViewCache.completeServerSnap] at hnode
    by_cases hfull : view.viewCache.cachedServerSnap.isFullyInitialized = true
    · rw [if_pos hfull, FWriteTreeRef.calculateCompleteEventCache_some] at hnode
      obtain rfl := Option.some.inj hnode
      exact h.kept.shown_eq hvalid (.inl hfull)
    · rw [if_neg hfull, FWriteTreeRef.calculateCompleteEventCache_none hvalid] at hnode
      rw [← FWriteTreeRef.shown_of_shadowing hnode]
      exact h.kept.shown_eq hvalid (.inr (by rw [hnode]; rfl))
  rw [FViewCache.completeEventSnap, h.value (by rw [hevent]), hevent]
  exact ⟨rfl, rfl⟩

/-- A write to the child `10` of the root is pending. -/
def onePending : FWriteTreeRef Name Nat :=
  ⟨[], ⟨.mk none [(.ofString "10", ofValue (.leaf 5))], [], 0⟩⟩

end listener

end FView

end MeetupApp.Firebase
