import MeetupApp.Firebase.WriteTreeRef

/-! # How the shown node changes

    The node that is shown at a location is computed from the server's data there and
    the pending writes.  When one of the two changes at a path, the shown node changes
    at that path only: it is the old one with what is shown now put at the path.

    The paths above the written ones are interior: the server has no leaf there. -/

namespace MeetupApp.Firebase

open SortedEntries FImmutableTree FCompoundWrite

variable {K V : Type} {cmp scmp : K → K → Ordering}

/-! ## Section 1: Interior paths -/

/-- The node, which is at the path, has no leaf at an interior path. -/
def Fits (cmp : K → K → Ordering) (interior : FPath K → Prop) (path : FPath K)
    (node : FNode K V) : Prop :=
  ∀ rest, interior (path ++ rest) → node.leafAt cmp rest = none

/-- The paths above the written ones are interior. -/
def Inside (interior : FPath K → Prop) (writes : List (FPath K × FNode K V)) : Prop :=
  ∀ w ∈ writes, ∀ above, above <+: w.1 → above ≠ w.1 → interior above

section fits
variable {interior : FPath K → Prop} {path : FPath K} {node : FNode K V}

theorem Fits.getChild (h : Fits cmp interior path node) (rest : FPath K) :
    Fits cmp interior (path ++ rest) (node.getChild cmp rest) := by
  intro below hbelow
  rw [← FNode.leafAt_append]
  exact h (rest ++ below) (by rwa [← List.append_assoc])

theorem Fits.updateChild [DecidableEq K] [Std.TransCmp cmp] [Std.LawfulEqCmp cmp]
    (h : Fits cmp interior path node) (hnode : node.Pruned cmp) {rest : FPath K}
    {newChild : FNode K V} (hnew : Fits cmp interior (path ++ rest) newChild) :
    Fits cmp interior path (node.updateChild cmp rest newChild) := by
  intro other hother
  rw [FNode.leafAt_updateChild hnode]
  split
  · next hbelow =>
    obtain ⟨below, rfl⟩ := hbelow
    rw [List.drop_left]
    exact hnew below (by rwa [List.append_assoc])
  · split
    · rfl
    · exact h other hother

/-- A node that fits has no leaf above a path that is written. -/
theorem Fits.openAt (h : Fits cmp interior path node) {rest : FPath K}
    (habove : ∀ above, above <+: path ++ rest → above ≠ path ++ rest → interior above) :
    OpenAt cmp node rest := by
  intro above hpre hne
  exact h above (habove _ ((List.prefix_append_right_inj path).mpr hpre)
    (fun heq => hne (List.append_cancel_left heq)))

/-- What is written at a path fits there. -/
def WritesFit (cmp scmp : K → K → Ordering) [DecidableEq K] (interior : FPath K → Prop)
    (base : FPath K) (write : FCompoundWrite K V) : Prop :=
  ∀ path node, completeNodeAtPath cmp scmp write path = some node →
    Fits cmp interior (base ++ path) node

theorem Fits.openIn {ref : FWriteTreeRef K V}
    (h : Fits cmp interior ref.path node)
    (hinside : Inside interior ref.writeTree.visibleWrites.forEach) : ref.OpenIn cmp node := by
  intro w hw rest hrest
  refine h.openAt (fun above hpre hne => hinside w hw above ?_ ?_)
  · rwa [hrest]
  · rwa [hrest]

section writes
variable [DecidableEq K]

theorem writesFit_empty : WritesFit cmp scmp interior path (emptyWrite : FCompoundWrite K V) := by
  intro other node hnode
  rw [emptyWrite, completeNodeAtPath_empty] at hnode
  cases hnode

variable [Std.TransCmp cmp] [Std.LawfulEqCmp cmp]

theorem Fits.updateChildren {writes : List (FPath K × FNode K V)}
    (h : Fits cmp interior path node) (hnode : node.Pruned cmp)
    (hwrites : ∀ w ∈ writes, w.2.Pruned cmp ∧ Fits cmp interior (path ++ w.1) w.2) :
    Fits cmp interior path (Firebase.updateChildren cmp node writes) := by
  induction writes generalizing node with
  | nil => exact h
  | cons w writes ih =>
    obtain ⟨hpruned, hfits⟩ := hwrites w (by simp)
    exact ih (h.updateChild hnode hfits) (hnode.updateChild hpruned w.1)
      (fun w' hw' => hwrites w' (by simp [hw']))

variable [Std.TransCmp scmp] [Std.LawfulEqCmp scmp] {write write' : FCompoundWrite K V}

theorem WritesFit.addWrite (h : WritesFit cmp scmp interior path write)
    (hvalid : Valid cmp scmp write) {rest : FPath K} (hnode : Fits cmp interior (path ++ rest) node)
    (hadd : FCompoundWrite.addWrite cmp scmp write node rest = some write') :
    WritesFit cmp scmp interior path write' := by
  intro other written hwritten
  rw [completeNodeAtPath_addWrite hvalid hadd] at hwritten
  split at hwritten
  · next hbelow =>
    obtain ⟨below, rfl⟩ := hbelow
    obtain rfl := Option.some.inj hwritten
    rw [List.drop_left, ← List.append_assoc]
    exact hnode.getChild below
  · obtain ⟨complete, hcomplete, rfl⟩ := Option.map_eq_some_iff.mp hwritten
    have hfits := h other complete hcomplete
    split
    · next habove =>
      obtain ⟨below, rfl⟩ := habove
      obtain ⟨w, hw, -, heq⟩ := exists_of_completeNodeAtPath hvalid hcomplete
      have hpruned : complete.Pruned cmp := by
        rw [heq]
        exact (hvalid.pruned w hw).getChild _
      rw [List.drop_left]
      exact hfits.updateChild hpruned (by rwa [List.append_assoc])
    · exact hfits

theorem WritesFit.addWrites {writes : List (FPath K × FNode K V)}
    (h : WritesFit cmp scmp interior path write) (hvalid : Valid cmp scmp write)
    (hwrites : ∀ w ∈ writes, w.2.Pruned cmp ∧ Fits cmp interior (path ++ w.1) w.2)
    (hadd : FCompoundWrite.addWrites cmp scmp write writes = some write') :
    WritesFit cmp scmp interior path write' := by
  induction writes generalizing write with
  | nil =>
    obtain rfl := Option.some.inj hadd
    exact h
  | cons w writes ih =>
    obtain ⟨hpruned, hfits⟩ := hwrites w (by simp)
    rw [addWrites_cons] at hadd
    obtain ⟨next, hnext, hrest⟩ := Option.bind_eq_some_iff.mp hadd
    exact ih (h.addWrite hvalid hfits hnext) (hvalid.addWrite hpruned hnext)
      (fun w' hw' => hwrites w' (by simp [hw'])) hrest

omit [Std.TransCmp cmp] [Std.LawfulEqCmp cmp] in
/-- The writes of a tree fit at their paths. -/
theorem WritesFit.of_mem (h : WritesFit cmp scmp interior path write)
    (hvalid : Valid cmp scmp write) {w : FPath K × FNode K V} (hw : w ∈ write.forEach) :
    Fits cmp interior (path ++ w.1) w.2 :=
  h w.1 w.2 (completeNodeAtPath_of_mem hvalid hw).1

/-- So does what the tree makes of a node. -/
theorem Fits.applyToNode (h : Fits cmp interior path node) (hnode : node.Pruned cmp)
    (hvalid : Valid cmp scmp write) (hwrite : WritesFit cmp scmp interior path write) :
    Fits cmp interior path (FCompoundWrite.applyToNode cmp write node) := by
  rw [applyToNode_eq hvalid]
  exact h.updateChildren hnode
    (fun w hw => ⟨hvalid.pruned w hw, hwrite.of_mem hvalid hw⟩)

end writes

end fits

/-! ## Section 2: Nodes that differ below one path -/

namespace FNode

variable {node other : FNode K V} {path above : FPath K}

/-- Above a node that is not empty there is no leaf. -/
theorem leafAt_of_above (habove : above <+: path) (hne : above ≠ path)
    (hchild : (node.getChild cmp path).isEmpty = false) : node.leafAt cmp above = none := by
  obtain ⟨rest, rfl⟩ := habove
  rw [leafAt]
  rw [getChild_append] at hchild
  cases hnode : node.getChild cmp above with
  | children entries => rfl
  | leaf value =>
    rw [hnode] at hchild
    cases rest with
    | nil => exact absurd (List.append_nil above).symm hne
    | cons k rest => cases hchild

/-- A node whose leaves are those of another one but below the path is that one with the
    child at the path. -/
theorem Pruned.eq_updateChild [DecidableEq K] [Std.TransCmp cmp] [Std.LawfulEqCmp cmp]
    (h : node.Pruned cmp) (hother : other.Pruned cmp)
    (hleaf : ∀ rest, ¬ path <+: rest →
      (rest <+: path → (other.getChild cmp path).isEmpty = true) →
      other.leafAt cmp rest = node.leafAt cmp rest) :
    other = node.updateChild cmp path (other.getChild cmp path) := by
  refine hother.ext_leafAt (h.updateChild (hother.getChild path) path) ?_
  intro rest
  rw [leafAt_updateChild h]
  split
  · next hbelow =>
    obtain ⟨below, rfl⟩ := hbelow
    rw [List.drop_left, ← leafAt_append]
  · next hbelow =>
    split
    · next habove =>
      have hne : rest ≠ path := by
        rintro rfl
        exact hbelow List.prefix_rfl
      exact leafAt_of_above habove.1 hne habove.2
    · next hnot =>
      refine hleaf rest hbelow (fun habove => ?_)
      by_contra hempty
      exact hnot ⟨habove, by simpa using hempty⟩

end FNode

namespace FWriteTreeRef

variable [DecidableEq K] [Std.TransCmp cmp] [Std.TransCmp scmp] [Std.LawfulEqCmp cmp]
  [Std.LawfulEqCmp scmp] {ref ref' : FWriteTreeRef K V} {serverSnap serverSnap' : FNode K V}

/-! ## Section 3: Changes of the server's data -/

section server
variable (hvalid : Valid cmp scmp ref.writeTree.visibleWrites) {path : FPath K}
include hvalid

omit [Std.TransCmp cmp] [Std.LawfulEqCmp cmp] in
/-- Between a location that is not written and one below that is, there is a written path. -/
theorem OpenIn.leafAt_of_shadowing (hopen : ref.OpenIn cmp serverSnap) {other rest : FPath K}
    (hother : ref.shadowingWriteAtPath cmp scmp other = none)
    (hrest : (ref.shadowingWriteAtPath cmp scmp (other ++ rest)).isSome) :
    serverSnap.leafAt cmp other = none := by
  obtain ⟨node, hnode⟩ := Option.isSome_iff_exists.mp hrest
  obtain ⟨w, hw, hpre, -⟩ := exists_of_completeNodeAtPath hvalid hnode
  rw [FPath.child, ← List.append_assoc] at hpre
  have hnot : ¬ w.1 <+: ref.path ++ other := not_prefix_of_completeNodeAtPath hvalid hother w hw
  -- The written path is below the location.
  obtain ⟨below, hbelow⟩ :=
    (List.prefix_or_prefix_of_prefix hpre (List.prefix_append _ _)).resolve_left hnot
  rw [List.append_assoc] at hbelow
  refine hopen w hw (other ++ below) hbelow.symm other (List.prefix_append _ _) ?_
  intro heq
  refine hnot ?_
  rw [← hbelow, ← heq]

/-- Below a pending write the server's data makes no difference. -/
theorem shown_updateChild_of_shadowing (hserver : serverSnap.Pruned cmp)
    (hopen : ref.OpenIn cmp serverSnap) {snap : FNode K V} (hsnap : snap.Pruned cmp)
    (hopen' : ref.OpenIn cmp (serverSnap.updateChild cmp path snap))
    (hshadow : (ref.shadowingWriteAtPath cmp scmp path).isSome) :
    ref.shown cmp scmp (serverSnap.updateChild cmp path snap) = ref.shown cmp scmp serverSnap := by
  have hserver' := hserver.updateChild hsnap path
  refine (pruned_shown hvalid hserver').ext_leafAt (pruned_shown hvalid hserver) ?_
  intro other
  rw [leafAt_shown hvalid hserver' hopen', leafAt_shown hvalid hserver hopen]
  cases hother : ref.shadowingWriteAtPath cmp scmp other with
  | some node => rfl
  | none =>
    rw [Option.elim_none, Option.elim_none]
    by_cases hbelow : path <+: other
    · -- It would be written as well.
      obtain ⟨rest, rfl⟩ := hbelow
      obtain ⟨node, hnode⟩ := Option.isSome_iff_exists.mp hshadow
      have hcomplete := completeNodeAtPath_append hvalid hnode rest
      rw [FPath.child, List.append_assoc] at hcomplete
      rw [shadowingWriteAtPath, FPath.child, hcomplete] at hother
      cases hother
    · by_cases habove : other <+: path
      · obtain ⟨rest, rfl⟩ := habove
        rw [hopen.leafAt_of_shadowing hvalid hother hshadow,
          hopen'.leafAt_of_shadowing hvalid hother hshadow]
      · rw [FNode.leafAt_updateChild hserver, if_neg hbelow, if_neg (fun h => habove h.1)]

/-- Elsewhere what is shown changes at the path. -/
theorem shown_updateChild (hserver : serverSnap.Pruned cmp) (hopen : ref.OpenIn cmp serverSnap)
    {snap : FNode K V} (hsnap : snap.Pruned cmp)
    (hopen' : ref.OpenIn cmp (serverSnap.updateChild cmp path snap))
    (hshadow : ref.shadowingWriteAtPath cmp scmp path = none) :
    ref.shown cmp scmp (serverSnap.updateChild cmp path snap)
      = (ref.shown cmp scmp serverSnap).updateChild cmp path
        ((ref.shown cmp scmp (serverSnap.updateChild cmp path snap)).getChild cmp path) := by
  have hserver' := hserver.updateChild hsnap path
  refine (pruned_shown hvalid hserver).eq_updateChild (pruned_shown hvalid hserver') ?_
  intro other hbelow hempty
  rw [leafAt_shown hvalid hserver' hopen', leafAt_shown hvalid hserver hopen]
  cases hother : ref.shadowingWriteAtPath cmp scmp other with
  | some node => rfl
  | none =>
    rw [Option.elim_none, Option.elim_none, FNode.leafAt_updateChild hserver, if_neg hbelow]
    split
    · next habove =>
      -- Something was written at the path but nothing is shown, so a pending write is below.
      obtain ⟨rest, value, hvalue⟩ := hsnap.exists_leaf habove.2
      have hnothing := hempty habove.1
      have hshown : (ref.shown cmp scmp (serverSnap.updateChild cmp path snap)).leafAt cmp
          (path ++ rest) = none := by
        rw [FNode.leafAt_append, FNode.eq_empty_of_isEmpty hnothing, FNode.leafAt_empty]
      have hbelowPath : (ref.shadowingWriteAtPath cmp scmp (path ++ rest)).isSome := by
        by_contra hnone
        rw [leafAt_shown hvalid hserver' hopen', Option.not_isSome_iff_eq_none.mp hnone,
          Option.elim_none, FNode.leafAt_append, FNode.getChild_updateChild_self hserver,
          hvalue] at hshown
        cases hshown
      obtain ⟨above, rfl⟩ := habove.1
      rw [List.append_assoc] at hbelowPath
      exact (hopen.leafAt_of_shadowing hvalid hother hbelowPath).symm
    · rfl

end server

/-! ## Section 4: Writes of the user -/

section user
variable (hvalid : Valid cmp scmp ref.writeTree.visibleWrites)
  (hvalid' : Valid cmp scmp ref'.writeTree.visibleWrites)
include hvalid hvalid'

/-- Where the same is written, the same is shown. -/
theorem shown_congr (hserver : serverSnap.Pruned cmp) (hopen : ref.OpenIn cmp serverSnap)
    (hopen' : ref'.OpenIn cmp serverSnap)
    (hshadow : ∀ path, ref'.shadowingWriteAtPath cmp scmp path
      = ref.shadowingWriteAtPath cmp scmp path) :
    ref'.shown cmp scmp serverSnap = ref.shown cmp scmp serverSnap := by
  refine (pruned_shown hvalid' hserver).ext_leafAt (pruned_shown hvalid hserver) ?_
  intro path
  rw [leafAt_shown hvalid' hserver hopen', leafAt_shown hvalid hserver hopen, hshadow]

/-- A further write at a path is a write to what is shown. -/
theorem shown_addWrite (hpath : ref'.path = ref.path) {path : FPath K} {node : FNode K V}
    (hnode : node.Pruned cmp)
    (hadd : addWrite cmp scmp ref.writeTree.visibleWrites node (ref.path ++ path)
      = some ref'.writeTree.visibleWrites)
    (hserver : serverSnap.Pruned cmp) (hopen : ref.OpenIn cmp serverSnap)
    (hopen' : ref'.OpenIn cmp serverSnap) (hopenPath : OpenAt cmp serverSnap path) :
    ref'.shown cmp scmp serverSnap
      = (ref.shown cmp scmp serverSnap).updateChild cmp path node := by
  have hshown := pruned_shown hvalid hserver
  refine (pruned_shown hvalid' hserver).ext_leafAt (hshown.updateChild hnode path) ?_
  intro other
  rw [leafAt_shown hvalid' hserver hopen', FNode.leafAt_updateChild hshown,
    leafAt_shown hvalid hserver hopen, shadowingWriteAtPath, shadowingWriteAtPath, hpath,
    completeNodeAtPath_addWrite hvalid hadd, FPath.child]
  simp only [List.prefix_append_right_inj, List.length_append, List.drop_append,
    Nat.add_sub_cancel_left, List.drop_of_length_le (Nat.le_add_right _ _), List.nil_append]
  by_cases hbelow : path <+: other
  · rw [if_pos hbelow, if_pos hbelow]
    rfl
  · rw [if_neg hbelow, if_neg hbelow]
    have hne : other ≠ path := by
      rintro rfl
      exact hbelow List.prefix_rfl
    cases hcomplete : completeNodeAtPath cmp scmp ref.writeTree.visibleWrites
        (ref.path ++ other) with
    | none =>
      rw [Option.map_none, Option.elim_none]
      split
      · next habove => exact hopenPath other habove.1 hne
      · rfl
    | some complete =>
      rw [Option.map_some, Option.elim_some, Option.elim_some]
      by_cases habove : other <+: path
      · rw [if_pos habove]
        obtain ⟨rest, rfl⟩ := habove
        cases rest with
        | nil => exact absurd (List.append_nil other).symm hne
        | cons k rest =>
          rw [List.drop_left, FNode.value?_updateChild_cons]
          cases node.isEmpty <;> simp
      · rw [if_neg habove, if_neg (fun hcon => habove hcon.1)]

end user

end FWriteTreeRef

end MeetupApp.Firebase
