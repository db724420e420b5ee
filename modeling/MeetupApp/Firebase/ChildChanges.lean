import MeetupApp.Firebase.Node

/-! # Core/View/FChange.m, Filter/FChildChangeAccumulator.m, Filter/FIndexedFilter.m

    How a node that is shown is replaced by its successor.  A child, or everything,
    is replaced, and what happened to the children is collected: a second change of
    a child is merged with the first one.

    The collection never throws its exception, and what it ends up with is the
    difference between the node before and the node after. -/

namespace MeetupApp.Firebase

open SortedEntries

variable {K V : Type}

/-! ## Section 1: Changes -/

/-- What happened to a child. -/
inductive ChildChange (K V : Type) where
  | added (node : FNode K V)
  | removed (node : FNode K V)
  | changed (node oldNode : FNode K V)

/-- `FChange` -/
inductive FChange (K V : Type) where
  | child (childKey : K) (change : ChildChange K V)
  | value (node : FNode K V)

/-- `changeMap`, in the order of its keys. -/
abbrev FChildChangeAccumulator (K V : Type) := List (K × ChildChange K V)

namespace FChildChangeAccumulator

/-- `trackChildChange:`; the exception is `none`. -/
def trackChildChange (cmp : K → K → Ordering) (changeMap : FChildChangeAccumulator K V)
    (childKey : K) (change : ChildChange K V) : Option (FChildChangeAccumulator K V) :=
  match lookup cmp childKey changeMap with
  | none => some (put cmp true childKey change changeMap)
  | some oldChange =>
    match change, oldChange with
    | .added node, .removed oldNode =>
      some (put cmp true childKey (.changed node oldNode) changeMap)
    | .removed _, .added _ => some (erase cmp childKey changeMap)
    | .removed _, .changed _ oldNode =>
      some (put cmp true childKey (.removed oldNode) changeMap)
    | .changed node _, .added _ => some (put cmp true childKey (.added node) changeMap)
    | .changed node _, .changed _ oldNode =>
      some (put cmp true childKey (.changed node oldNode) changeMap)
    | _, _ => none

/-- `changes` -/
def changes (changeMap : FChildChangeAccumulator K V) : List (FChange K V) :=
  changeMap.map (fun e => .child e.1 e.2)

end FChildChangeAccumulator

open FChildChangeAccumulator

/-! ## Section 2: The filter -/

namespace FIndexedFilter

section operations
variable (cmp : K → K → Ordering)

/-- The accumulator, if there is one, after a change. -/
def track (childKey : K) (change : ChildChange K V) :
    Option (FChildChangeAccumulator K V) → Option (Option (FChildChangeAccumulator K V))
  | none => some none
  | some changeMap => (trackChildChange cmp changeMap childKey change).map some

/-- The block of `updateFullNode:withNewNode:accumulator:` for the children of the old node. -/
def trackRemoved (newSnap : FNode K V) (changeMap : FChildChangeAccumulator K V)
    (e : K × FNode K V) : Option (FChildChangeAccumulator K V) :=
  if !newSnap.hasChild cmp e.1 then trackChildChange cmp changeMap e.1 (.removed e.2)
  else some changeMap

variable [DecidableEq V]

/-- Whether `updateChildIn:` finds that nothing changed. -/
def unchanged (node : FNode K V) (childKey : K) (newChildSnap : FNode K V)
    (affectedPath : FPath K) : Bool :=
  let oldChildSnap := node.getImmediateChild cmp childKey
  (oldChildSnap.getChild cmp affectedPath).isEqual cmp (newChildSnap.getChild cmp affectedPath)
    && oldChildSnap.isEmpty == newChildSnap.isEmpty

/-- `updateChildIn:forChildKey:newChild:affectedPath:fromSource:accumulator:`; a failed
    assertion is `none`.  One of the assertions is only there if `DEBUG` is defined. -/
def updateChildIn (debug : Bool) (node : FNode K V) (childKey : K) (newChildSnap : FNode K V)
    (affectedPath : FPath K) (optChangeAccumulator : Option (FChildChangeAccumulator K V)) :
    Option (FNode K V × Option (FChildChangeAccumulator K V)) := do
  let oldChildSnap := node.getImmediateChild cmp childKey
  if unchanged cmp node childKey newChildSnap affectedPath then
    if debug && !oldChildSnap.isEqual cmp newChildSnap then none
    else some (node, optChangeAccumulator)
  else
    let accumulator ←
      if newChildSnap.isEmpty then
        if node.hasChild cmp childKey then
          track cmp childKey (.removed oldChildSnap) optChangeAccumulator
        else if optChangeAccumulator.isNone || node.isLeafNode then some optChangeAccumulator
        else none
      else if oldChildSnap.isEmpty then
        track cmp childKey (.added newChildSnap) optChangeAccumulator
      else track cmp childKey (.changed newChildSnap oldChildSnap) optChangeAccumulator
    if node.isLeafNode && newChildSnap.isEmpty then some (node, accumulator)
    else some (node.updateImmediateChild cmp childKey newChildSnap, accumulator)

/-- The same for the children of the new node. -/
def trackNew (oldSnap : FNode K V) (changeMap : FChildChangeAccumulator K V)
    (e : K × FNode K V) : Option (FChildChangeAccumulator K V) :=
  if oldSnap.hasChild cmp e.1 then
    let oldChildSnap := oldSnap.getImmediateChild cmp e.1
    if !oldChildSnap.isEqual cmp e.2 then
      trackChildChange cmp changeMap e.1 (.changed e.2 oldChildSnap)
    else some changeMap
  else trackChildChange cmp changeMap e.1 (.added e.2)

/-- `updateFullNode:withNewNode:accumulator:`, with an accumulator. -/
def updateFullNode (oldSnap newSnap : FNode K V) (changeMap : FChildChangeAccumulator K V) :
    Option (FNode K V × FChildChangeAccumulator K V) := do
  let changeMap ← oldSnap.enumerateChildren.foldlM (trackRemoved cmp newSnap) changeMap
  let changeMap ← newSnap.enumerateChildren.foldlM (trackNew cmp oldSnap) changeMap
  some (newSnap, changeMap)

end operations

end FIndexedFilter

/-! ## Section 3: What was collected -/

/-- The change that leads from one child to the other. -/
def Describes (old new : FNode K V) : Option (ChildChange K V) → Prop
  | none => old = new
  | some (.added node) => old.isEmpty = true ∧ new.isEmpty = false ∧ node = new
  | some (.removed node) => old.isEmpty = false ∧ new.isEmpty = true ∧ node = old
  | some (.changed node oldNode) =>
    old.isEmpty = false ∧ new.isEmpty = false ∧ node = new ∧ oldNode = old

/-- The accumulator holds the difference of the children. -/
structure Tracks (cmp : K → K → Ordering) (origin current : K → FNode K V)
    (changeMap : FChildChangeAccumulator K V) : Prop where
  ascending : Ascending cmp changeMap
  describes : ∀ k, Describes (origin k) (current k) (lookup cmp k changeMap)

section tracks
variable {cmp : K → K → Ordering} {origin current next : K → FNode K V}
  {changeMap : FChildChangeAccumulator K V} {k : K}

theorem tracks_nil (origin : K → FNode K V) : Tracks cmp origin origin [] where
  ascending := ascending_nil
  describes := fun _ => rfl

variable [Std.TransCmp cmp] [Std.LawfulEqCmp cmp]

/-- The same children otherwise, and one that is described by what is in the map now. -/
theorem Tracks.put (h : Tracks cmp origin current changeMap) {change : ChildChange K V}
    (hother : ∀ k', k' ≠ k → next k' = current k')
    (hchange : Describes (origin k) (next k) (some change)) :
    Tracks cmp origin next (SortedEntries.put cmp true k change changeMap) where
  ascending := h.ascending.put
  describes := by
    intro k'
    rw [lookup_put h.ascending]
    split
    · next heq =>
      obtain rfl : k' = k := Std.LawfulEqCmp.eq_of_compare heq
      exact hchange
    · next hne =>
      have hk : k' ≠ k := by
        rintro rfl
        exact hne Std.ReflCmp.compare_self
      rw [hother k' hk]
      exact h.describes k'

/-- Another change of a child never throws, and the map holds the difference again. -/
theorem trackChildChange_spec (h : Tracks cmp origin current changeMap)
    (hother : ∀ k', k' ≠ k → next k' = current k') {change : ChildChange K V}
    (hchange : Describes (current k) (next k) (some change)) :
    ∃ changeMap', trackChildChange cmp changeMap k change = some changeMap'
      ∧ Tracks cmp origin next changeMap' := by
  have hbefore := h.describes k
  rw [trackChildChange]
  cases hlookup : lookup cmp k changeMap with
  | none =>
    rw [hlookup] at hbefore
    refine ⟨_, rfl, h.put hother ?_⟩
    rwa [show origin k = current k from hbefore]
  | some oldChange =>
    rw [hlookup] at hbefore
    -- The cases that throw start from a child that is not the one left by the first change.
    cases change with
    | added node =>
      obtain ⟨hcurrent, hnext, rfl⟩ := hchange
      cases oldChange with
      | added _ =>
        obtain ⟨-, hne, -⟩ := hbefore
        rw [hcurrent] at hne
        cases hne
      | removed oldNode =>
        obtain ⟨horigin, -, hold⟩ := hbefore
        exact ⟨_, rfl, h.put hother ⟨horigin, hnext, rfl, hold⟩⟩
      | changed _ oldNode =>
        obtain ⟨-, hne, -⟩ := hbefore
        rw [hcurrent] at hne
        cases hne
    | removed node =>
      obtain ⟨hcurrent, hnext, rfl⟩ := hchange
      cases oldChange with
      | added _ =>
        obtain ⟨horigin, -, -⟩ := hbefore
        refine ⟨_, rfl, h.ascending.erase, ?_⟩
        intro k'
        rw [lookup_erase h.ascending]
        split
        · next heq =>
          obtain rfl : k' = k := Std.LawfulEqCmp.eq_of_compare heq
          exact (FNode.eq_empty_of_isEmpty horigin).trans (FNode.eq_empty_of_isEmpty hnext).symm
        · next hne =>
          have hk : k' ≠ k := by
            rintro rfl
            exact hne Std.ReflCmp.compare_self
          rw [hother k' hk]
          exact h.describes k'
      | removed _ =>
        obtain ⟨-, hempty, -⟩ := hbefore
        rw [hcurrent] at hempty
        cases hempty
      | changed _ oldNode =>
        obtain ⟨horigin, -, -, hold⟩ := hbefore
        exact ⟨_, rfl, h.put hother ⟨horigin, hnext, hold⟩⟩
    | changed node oldNode =>
      obtain ⟨hcurrent, hnext, rfl, rfl⟩ := hchange
      cases oldChange with
      | added _ =>
        obtain ⟨horigin, -, -⟩ := hbefore
        exact ⟨_, rfl, h.put hother ⟨horigin, hnext, rfl⟩⟩
      | removed _ =>
        obtain ⟨-, hempty, -⟩ := hbefore
        rw [hcurrent] at hempty
        cases hempty
      | changed _ first =>
        obtain ⟨horigin, -, -, hold⟩ := hbefore
        exact ⟨_, rfl, h.put hother ⟨horigin, hnext, rfl, hold⟩⟩

end tracks

/-! ## Section 4: What the filter returns -/

namespace FIndexedFilter

variable {cmp : K → K → Ordering} {node newChild : FNode K V} {k : K} {affectedPath : FPath K}
  {changeMap : FChildChangeAccumulator K V}

theorem getImmediateChild_eq (node : FNode K V) (k : K) :
    node.getImmediateChild cmp k = (lookup cmp k node.enumerateChildren).getD .empty := by
  cases node <;> rfl

theorem pruned_enumerateChildren (h : node.Pruned cmp) : Ascending cmp node.enumerateChildren
    ∧ ∀ e ∈ node.enumerateChildren, e.2.isEmpty = false ∧ e.2.Pruned cmp := by
  cases h with
  | leaf value => exact ⟨ascending_nil, by simp [FNode.enumerateChildren]⟩
  | children ascending nonempty pruned =>
    exact ⟨ascending, fun e he => ⟨nonempty e he, pruned e he⟩⟩

section child
variable [DecidableEq V]

/-- Without a child before and after nothing changed. -/
theorem unchanged_of_empty (hold : (node.getImmediateChild cmp k).isEmpty = true)
    (hnew : newChild.isEmpty = true) : unchanged cmp node k newChild affectedPath = true := by
  rw [unchanged, FNode.eq_empty_of_isEmpty hold, FNode.eq_empty_of_isEmpty hnew]
  simp only [FNode.getChild_empty, beq_self_eq_true, Bool.and_true]
  rfl

/-- The node with the child updated, unless the filter finds that nothing changed. -/
def updated (cmp : K → K → Ordering) (node : FNode K V) (k : K) (newChild : FNode K V)
    (affectedPath : FPath K) : FNode K V :=
  if unchanged cmp node k newChild affectedPath then node
  else node.updateImmediateChild cmp k newChild

/-- If the filter finds that nothing changed at the path, the old child is the new one. -/
def KeepsEqual (cmp : K → K → Ordering) (node : FNode K V) (k : K) (newChild : FNode K V)
    (affectedPath : FPath K) : Prop :=
  unchanged cmp node k newChild affectedPath = true → node.getImmediateChild cmp k = newChild

theorem keepsEqual_of_empty (hold : (node.getImmediateChild cmp k).isEmpty = true) :
    KeepsEqual cmp node k newChild affectedPath := by
  intro hunchanged
  rw [unchanged, Bool.and_eq_true, hold, beq_iff_eq] at hunchanged
  rw [FNode.eq_empty_of_isEmpty hold, FNode.eq_empty_of_isEmpty hunchanged.2.symm]

variable [Std.TransCmp cmp] [Std.LawfulEqCmp cmp]

/-- A write to the affected path changes nothing elsewhere. -/
theorem keepsEqual_updateChild (hnode : node.Pruned cmp) {written : FNode K V}
    (hwritten : written.Pruned cmp) (k : K) (affectedPath : FPath K) :
    KeepsEqual cmp node k
      ((node.getImmediateChild cmp k).updateChild cmp affectedPath written) affectedPath := by
  intro hunchanged
  have hchild := hnode.getImmediateChild k
  rw [unchanged, Bool.and_eq_true, FNode.getChild_updateChild_self hchild,
    (hchild.getChild affectedPath).isEqual_iff hwritten] at hunchanged
  rw [← hunchanged.1, FNode.updateChild_getChild hchild]

/-- With an equal child no assertion fails. -/
theorem updateChildIn_of_unchanged {debug : Bool} (hnode : node.Pruned cmp)
    (hunchanged : unchanged cmp node k newChild affectedPath = true)
    (hdebug : debug = true → KeepsEqual cmp node k newChild affectedPath)
    (optChangeAccumulator : Option (FChildChangeAccumulator K V)) :
    updateChildIn cmp debug node k newChild affectedPath optChangeAccumulator
      = some (node, optChangeAccumulator) := by
  have hchild := hnode.getImmediateChild k
  rw [updateChildIn, if_pos hunchanged]
  refine if_neg ?_
  rw [Bool.and_eq_true]
  rintro ⟨hdebug', hdiffers⟩
  rw [← hdebug hdebug' hunchanged, (hchild.isEqual_iff hchild).mpr rfl] at hdiffers
  cases hdiffers

/-- Without an accumulator the child is updated. -/
theorem updateChildIn_none {debug : Bool} (hnode : node.Pruned cmp)
    (hdebug : debug = true → KeepsEqual cmp node k newChild affectedPath) :
    updateChildIn cmp debug node k newChild affectedPath none
      = some (updated cmp node k newChild affectedPath, none) := by
  by_cases hunchanged : unchanged cmp node k newChild affectedPath = true
  · rw [updateChildIn_of_unchanged hnode hunchanged hdebug, updated, if_pos hunchanged]
  · rw [updateChildIn, updated, if_neg hunchanged, if_neg hunchanged]
    cases hnew : newChild.isEmpty with
    | false => simp [track]
    | true =>
      have hold : (node.getImmediateChild cmp k).isEmpty = false := by
        by_contra hne
        exact hunchanged (unchanged_of_empty (by simpa using hne) hnew)
      have hleaf : node.isLeafNode = false := by
        cases node with
        | leaf value => cases hold
        | children entries => rfl
      simp [track, FNode.hasChild, hold, hleaf]

variable {origin : K → FNode K V}

/-- With an accumulator that tracks the node it is the same, and the change is tracked. -/
theorem updateChildIn_spec {debug : Bool} (hnode : node.Pruned cmp)
    (h : Tracks cmp origin (node.getImmediateChild cmp) changeMap)
    (hdebug : debug = true → KeepsEqual cmp node k newChild affectedPath) :
    ∃ changeMap', updateChildIn cmp debug node k newChild affectedPath (some changeMap)
        = some (updated cmp node k newChild affectedPath, some changeMap')
      ∧ Tracks cmp origin ((updated cmp node k newChild affectedPath).getImmediateChild cmp)
          changeMap' := by
  by_cases hunchanged : unchanged cmp node k newChild affectedPath = true
  · rw [updateChildIn_of_unchanged hnode hunchanged hdebug, updated, if_pos hunchanged]
    exact ⟨_, rfl, h⟩
  rw [updateChildIn, updated, if_neg hunchanged, if_neg hunchanged]
  -- The child is replaced, and the others stay.
  have hself : (node.updateImmediateChild cmp k newChild).getImmediateChild cmp k = newChild := by
    rw [FNode.getImmediateChild_updateImmediateChild hnode, if_pos Std.ReflCmp.compare_self]
  have hother : ∀ k', k' ≠ k →
      (node.updateImmediateChild cmp k newChild).getImmediateChild cmp k'
        = node.getImmediateChild cmp k' := by
    intro k' hk
    rw [FNode.getImmediateChild_updateImmediateChild hnode,
      if_neg (fun heq => hk (Std.LawfulEqCmp.eq_of_compare heq))]
  have htrack : ∀ change, Describes (node.getImmediateChild cmp k) newChild (some change) →
      ∃ changeMap', trackChildChange cmp changeMap k change = some changeMap'
        ∧ Tracks cmp origin ((node.updateImmediateChild cmp k newChild).getImmediateChild cmp)
          changeMap' := by
    intro change hchange
    refine trackChildChange_spec h hother ?_
    rwa [hself]
  cases hnew : newChild.isEmpty with
  | false =>
    cases hold : (node.getImmediateChild cmp k).isEmpty with
    | true =>
      obtain ⟨changeMap', htracked, htracks⟩ := htrack (.added newChild) ⟨hold, hnew, rfl⟩
      exact ⟨changeMap', by simp [track, htracked], htracks⟩
    | false =>
      obtain ⟨changeMap', htracked, htracks⟩ :=
        htrack (.changed newChild (node.getImmediateChild cmp k)) ⟨hold, hnew, rfl, rfl⟩
      exact ⟨changeMap', by simp [track, htracked], htracks⟩
  | true =>
    have hold : (node.getImmediateChild cmp k).isEmpty = false := by
      by_contra hne
      exact hunchanged (unchanged_of_empty (by simpa using hne) hnew)
    have hleaf : node.isLeafNode = false := by
      cases node with
      | leaf value => cases hold
      | children entries => rfl
    obtain ⟨changeMap', htracked, htracks⟩ :=
      htrack (.removed (node.getImmediateChild cmp k)) ⟨hold, hnew, rfl⟩
    exact ⟨changeMap', by simp [track, FNode.hasChild, hold, hleaf, htracked], htracks⟩

/-- Updating the child below the affected path is a write to that path. -/
theorem updated_eq (hnode : node.Pruned cmp) {written : FNode K V} (hwritten : written.Pruned cmp)
    (k : K) (affectedPath : FPath K) :
    updated cmp node k ((node.getImmediateChild cmp k).updateChild cmp affectedPath written)
        affectedPath
      = node.updateChild cmp (k :: affectedPath) written := by
  rw [updated]
  split
  · next hunchanged =>
    -- The child stays as it is.
    rw [FNode.updateChild_cons, ← keepsEqual_updateChild hnode hwritten k affectedPath hunchanged,
      FNode.updateImmediateChild_getImmediateChild hnode]
  · rw [FNode.updateChild_cons]

omit [Std.LawfulEqCmp cmp] in
theorem pruned_updated (hnode : node.Pruned cmp) (hnew : newChild.Pruned cmp) :
    (updated cmp node k newChild affectedPath).Pruned cmp := by
  rw [updated]
  split
  · exact hnode
  · exact hnode.updateImmediateChild hnew k

end child

section full
variable [Std.TransCmp cmp] [Std.LawfulEqCmp cmp] {origin current : K → FNode K V}

/-- A tracker that takes each child from where it starts to its target takes all of them
    there, one after another. -/
theorem foldlM_tracks (tracker : FChildChangeAccumulator K V → K × FNode K V →
      Option (FChildChangeAccumulator K V)) (start target : K → FNode K V)
    {entries : List (K × FNode K V)} (hasc : Ascending cmp entries)
    (htracker : ∀ e ∈ entries, ∀ (changeMap : FChildChangeAccumulator K V) current,
      current e.1 = start e.1 → Tracks cmp origin current changeMap →
      ∀ next, next e.1 = target e.1 → (∀ k, k ≠ e.1 → next k = current k) →
        ∃ changeMap', tracker changeMap e = some changeMap' ∧ Tracks cmp origin next changeMap')
    (hstart : ∀ e ∈ entries, current e.1 = start e.1) (h : Tracks cmp origin current changeMap) :
    ∃ changeMap', entries.foldlM tracker changeMap = some changeMap'
      ∧ Tracks cmp origin (fun k => if (lookup cmp k entries).isSome then target k else current k)
          changeMap' := by
  induction entries generalizing changeMap current with
  | nil => exact ⟨changeMap, rfl, h⟩
  | cons e entries ih =>
    obtain ⟨hnone, hlookup⟩ := hasc.lookup_cons
    obtain ⟨hlt, hrest⟩ := ascending_cons.mp hasc
    have hne : ∀ e' ∈ entries, e'.1 ≠ e.1 := by
      intro e' he' heq
      have hself := hlt e' he'
      rw [heq, show cmp e.1 e.1 = .eq from Std.ReflCmp.compare_self] at hself
      cases hself
    let next : K → FNode K V := fun k => if cmp k e.1 = .eq then target e.1 else current k
    have hnext : next e.1 = target e.1 := if_pos Std.ReflCmp.compare_self
    have hother : ∀ k, k ≠ e.1 → next k = current k :=
      fun k hk => if_neg (fun heq => hk (Std.LawfulEqCmp.eq_of_compare heq))
    obtain ⟨changeMap₁, htracked, htracks₁⟩ :=
      htracker e (by simp) changeMap current (hstart e (by simp)) h next hnext hother
    obtain ⟨changeMap', hfold, htracks⟩ := ih hrest (fun e' he' => htracker e' (by simp [he']))
      (fun e' he' => by
        rw [hother e'.1 (hne e' he')]
        exact hstart e' (by simp [he'])) htracks₁
    refine ⟨changeMap', ?_, ?_⟩
    · rw [List.foldlM_cons, htracked]
      exact hfold
    · convert htracks using 2 with k
      by_cases hk : k = e.1
      · rw [hk, hnone, hnext, lookup_cons_eq Std.ReflCmp.compare_self]
        rfl
      · rw [hlookup k hk, hother k hk]

variable [DecidableEq V]

/-- A full update never throws either, and tracks the difference. -/
theorem updateFullNode_spec {oldSnap newSnap : FNode K V} (hold : oldSnap.Pruned cmp)
    (hnew : newSnap.Pruned cmp)
    (h : Tracks cmp origin (oldSnap.getImmediateChild cmp) changeMap) :
    ∃ changeMap', updateFullNode cmp oldSnap newSnap changeMap = some (newSnap, changeMap')
      ∧ Tracks cmp origin (newSnap.getImmediateChild cmp) changeMap' := by
  obtain ⟨hascOld, holdEntries⟩ := pruned_enumerateChildren hold
  obtain ⟨hascNew, hnewEntries⟩ := pruned_enumerateChildren hnew
  have hfound : ∀ {n : FNode K V}, Ascending cmp n.enumerateChildren →
      ∀ e ∈ n.enumerateChildren, n.getImmediateChild cmp e.1 = e.2 := by
    intro n hasc e he
    rw [getImmediateChild_eq, (mem_iff_lookup hasc).mp he, Option.getD_some]
  -- After the first enumeration the children that the new node lacks are gone.
  let kept : K → FNode K V := fun k =>
    if newSnap.hasChild cmp k then oldSnap.getImmediateChild cmp k else .empty
  obtain ⟨changeMap₁, hfold₁, htracks₁⟩ := foldlM_tracks (trackRemoved cmp newSnap)
    (oldSnap.getImmediateChild cmp) kept hascOld (by
      intro e he changeMap current hcurrent htracks next hnext hother
      rw [hfound hascOld e he] at hcurrent
      rw [trackRemoved]
      cases hhas : newSnap.hasChild cmp e.1 with
      | true =>
        have hsame : next = current := by
          funext k
          by_cases hk : k = e.1
          · rw [hk, hnext, hcurrent]
            simp only [kept, hhas, if_true]
            exact hfound hascOld e he
          · exact hother k hk
        rw [hsame]
        exact ⟨changeMap, rfl, htracks⟩
      | false =>
        refine trackChildChange_spec htracks hother ⟨?_, ?_, hcurrent.symm⟩
        · rw [hcurrent, (holdEntries e he).1]
        · rw [hnext]
          simp only [kept, hhas]
          rfl) (fun _ _ => rfl) h
  have hkept : (fun k => if (lookup cmp k oldSnap.enumerateChildren).isSome then kept k
      else oldSnap.getImmediateChild cmp k) = kept := by
    funext k
    split
    · rfl
    · next hnone =>
      have hempty : oldSnap.getImmediateChild cmp k = .empty := by
        rw [getImmediateChild_eq, Option.not_isSome_iff_eq_none.mp hnone, Option.getD_none]
      simp only [kept, hempty, ite_self]
  rw [hkept] at htracks₁
  -- The second one takes each child of the new node to its new value.
  obtain ⟨changeMap₂, hfold₂, htracks₂⟩ := foldlM_tracks (trackNew cmp oldSnap)
    (oldSnap.getImmediateChild cmp) (newSnap.getImmediateChild cmp) hascNew (by
      intro e he changeMap current hcurrent htracks next hnext hother
      obtain ⟨hnonempty, hpruned⟩ := hnewEntries e he
      rw [hfound hascNew e he] at hnext
      rw [trackNew]
      cases hhas : oldSnap.hasChild cmp e.1 with
      | false =>
        refine trackChildChange_spec htracks hother ⟨?_, ?_, hnext.symm⟩
        · rw [hcurrent]
          simpa [FNode.hasChild] using hhas
        · rw [hnext, hnonempty]
      | true =>
        have hbefore : (oldSnap.getImmediateChild cmp e.1).isEmpty = false := by
          simpa [FNode.hasChild] using hhas
        cases hequal : (oldSnap.getImmediateChild cmp e.1).isEqual cmp e.2 with
        | true =>
          have heq := ((hold.getImmediateChild e.1).isEqual_iff hpruned).mp hequal
          have hsame : next = current := by
            funext k
            by_cases hk : k = e.1
            · rw [hk, hnext, hcurrent, heq]
            · exact hother k hk
          rw [hsame]
          exact ⟨changeMap, by simp [hequal], htracks⟩
        | false =>
          simp only [if_true, hequal, Bool.not_false]
          refine trackChildChange_spec htracks hother ⟨?_, ?_, hnext.symm, hcurrent.symm⟩
          · rw [hcurrent, hbefore]
          · rw [hnext, hnonempty])
    (fun e he => by
      have hhas : newSnap.hasChild cmp e.1 = true := by
        rw [FNode.hasChild, hfound hascNew e he, (hnewEntries e he).1]
        rfl
      simp only [kept, hhas, if_true]) htracks₁
  have hall : (fun k => if (lookup cmp k newSnap.enumerateChildren).isSome
      then newSnap.getImmediateChild cmp k else kept k) = newSnap.getImmediateChild cmp := by
    funext k
    split
    · rfl
    · next hnone =>
      have hempty : newSnap.getImmediateChild cmp k = .empty := by
        rw [getImmediateChild_eq, Option.not_isSome_iff_eq_none.mp hnone, Option.getD_none]
      have hhas : newSnap.hasChild cmp k = false := by
        rw [FNode.hasChild, hempty]
        rfl
      simp only [kept, hempty, hhas]
      rfl
  rw [hall] at htracks₂
  refine ⟨changeMap₂, ?_, htracks₂⟩
  rw [updateFullNode, hfold₁, Option.bind_eq_bind, Option.bind_some, hfold₂]
  rfl

end full

end FIndexedFilter

end MeetupApp.Firebase
