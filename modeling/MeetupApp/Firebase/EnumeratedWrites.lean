import MeetupApp.Firebase.CompoundWrite

/-! # The writes of a compound write

    The writes in the order in which the tree is enumerated and applied.  No two
    of their paths contain one another, and what is written at a path comes from
    the one write at or above it. -/

namespace MeetupApp.Firebase

open SortedEntries

namespace FCompoundWrite

open FImmutableTree

variable {K V : Type}

/-! ## Section 1: The enumeration -/

section writes
variable {cmp scmp : K → K → Ordering}

@[simp] theorem forEach_ofValue (value : FNode K V) :
    (ofValue value : FCompoundWrite K V).forEach = [([], value)] := by
  simp [ofValue, forEach, forEachChild]

theorem mem_forEachChild {T : Type} {children : List (K × FImmutableTree K T)} {w : FPath K × T} :
    w ∈ forEachChild children
      ↔ ∃ e ∈ children, ∃ below ∈ e.2.forEach, w = (e.1 :: below.1, below.2) := by
  induction children with
  | nil => simp [forEachChild]
  | cons e children ih =>
    obtain ⟨k, write⟩ := e
    rw [forEachChild, List.mem_append, ih]
    simp [eq_comm]

theorem applyChildren_eq {children : List (K × FCompoundWrite K V)}
    (h : ∀ e ∈ children, ∀ relativePath node,
      applySubtreeWrite cmp e.2 relativePath node
        = e.2.forEach.foldl (fun n w => n.updateChild cmp (relativePath ++ w.1) w.2) node)
    (relativePath : FPath K) (node : FNode K V) :
    applyChildren cmp children relativePath node
      = (forEachChild children).foldl
          (fun n w => n.updateChild cmp (relativePath ++ w.1) w.2) node := by
  induction children generalizing node with
  | nil => rfl
  | cons e children ih =>
    obtain ⟨k, write⟩ := e
    rw [applyChildren, forEachChild, List.foldl_append, List.foldl_map,
      h (k, write) (by simp), ih (fun e he => h e (by simp [he]))]
    simp [FPath.child]

/-- A tree is applied write by write, in the order of its enumeration. -/
theorem applySubtreeWrite_eq {write : FCompoundWrite K V} (h : Valid cmp scmp write)
    (relativePath : FPath K) (node : FNode K V) :
    applySubtreeWrite cmp write relativePath node
      = write.forEach.foldl (fun n w => n.updateChild cmp (relativePath ++ w.1) w.2) node := by
  induction h generalizing relativePath node with
  | leaf pruned => simp [ofValue, applySubtreeWrite, forEach, forEachChild]
  | node ascending valid ih =>
    rw [applySubtreeWrite, forEach, applyChildren_eq ih]

theorem Valid.pruned {write : FCompoundWrite K V} (h : Valid cmp scmp write) :
    ∀ w ∈ write.forEach, w.2.Pruned cmp := by
  induction h with
  | leaf pruned =>
    intro w hw
    obtain rfl : w = _ := by simpa using hw
    exact pruned
  | node ascending valid ih =>
    intro w hw
    rw [forEach, mem_forEachChild] at hw
    obtain ⟨e, he, below, hbelow, rfl⟩ := hw
    exact ih e he below hbelow

theorem subtreeAtPath_cons (children : List (K × FCompoundWrite K V)) (k : K) (path : FPath K) :
    subtreeAtPath scmp (.mk none children) (k :: path)
      = subtreeAtPath scmp (FImmutableTree.child scmp children k) path := by
  rw [subtreeAtPath, FImmutableTree.child]
  cases lookup scmp k children with
  | none => cases path <;> rfl
  | some child => rfl

variable [Std.LawfulEqCmp scmp]

/-- No write of a tree is above another one. -/
theorem Valid.pairwise_apart {write : FCompoundWrite K V} (h : Valid cmp scmp write) :
    write.forEach.Pairwise (fun w w' => FPath.Apart w.1 w'.1) := by
  induction h with
  | leaf pruned => simp
  | @node children ascending valid ih =>
    clear valid
    rw [forEach]
    induction children with
    | nil => simp [forEachChild]
    | cons e children hrest =>
      obtain ⟨k, write⟩ := e
      obtain ⟨hlt, hasc⟩ := ascending_cons.mp ascending
      rw [forEachChild, List.pairwise_append, List.pairwise_map]
      refine ⟨?_, hrest hasc (fun e he => ih e (by simp [he])), ?_⟩
      · refine (ih (k, write) (by simp)).imp ?_
        intro w w' hw
        simpa [FPath.Apart, List.cons_prefix_cons] using hw
      · intro w hw w' hw'
        obtain ⟨below, -, rfl⟩ := List.mem_map.mp hw
        obtain ⟨e, he, below', -, rfl⟩ := mem_forEachChild.mp hw'
        -- The two keys are different.
        have hne : k ≠ e.1 := by
          rintro rfl
          simpa [Std.ReflCmp.compare_self] using hlt e he
        simp [FPath.Apart, List.cons_prefix_cons, hne, Ne.symm hne]

/-- Two writes of a tree above the same path are the same write. -/
theorem eq_of_prefix {write : FCompoundWrite K V} (h : Valid cmp scmp write)
    {w w' : FPath K × FNode K V} (hw : w ∈ write.forEach) (hw' : w' ∈ write.forEach)
    {path : FPath K} (hpre : w.1 <+: path) (hpre' : w'.1 <+: path) : w = w' := by
  by_contra hne
  have hsymm : Std.Symm (fun w w' : FPath K × FNode K V => FPath.Apart w.1 w'.1) :=
    ⟨fun _ _ h => h.symm⟩
  have hapart := h.pairwise_apart.forall hw hw' hne
  rcases List.prefix_or_prefix_of_prefix hpre hpre' with hle | hle
  · exact hapart.1 hle
  · exact hapart.2 hle

variable [Std.TransCmp scmp]

theorem child_of_mem {children : List (K × FCompoundWrite K V)} (h : Ascending scmp children)
    {e : K × FCompoundWrite K V} (he : e ∈ children) :
    FImmutableTree.child scmp children e.1 = e.2 := by
  rw [FImmutableTree.child, (mem_iff_lookup h).mp he, Option.getD_some]

variable [DecidableEq K]

/-- What is written at a path comes from the one write at or above it. -/
theorem exists_of_completeNodeAtPath {write : FCompoundWrite K V} (h : Valid cmp scmp write)
    {path : FPath K} {complete : FNode K V}
    (hcomplete : completeNodeAtPath cmp scmp write path = some complete) :
    ∃ w ∈ write.forEach, w.1 <+: path
      ∧ complete = w.2.getChild cmp (path.drop w.1.length) := by
  induction path generalizing write with
  | nil =>
    cases h with
    | @leaf value pruned =>
      rw [completeNodeAtPath_leaf] at hcomplete
      exact ⟨([], value), by simp, List.nil_prefix, (Option.some.inj hcomplete).symm⟩
    | node ascending valid => cases hcomplete
  | cons k path ih =>
    cases h with
    | @leaf value pruned =>
      rw [completeNodeAtPath_leaf] at hcomplete
      exact ⟨([], value), by simp, List.nil_prefix, (Option.some.inj hcomplete).symm⟩
    | @node children ascending valid =>
      rw [completeNodeAtPath_cons] at hcomplete
      obtain ⟨w, hw, hpre, heq⟩ := ih ((Valid.node ascending valid).child k) hcomplete
      cases hlookup : lookup scmp k children with
      | none =>
        rw [FImmutableTree.child, hlookup, Option.getD_none] at hw
        simp [FImmutableTree.empty, forEach, forEachChild] at hw
      | some write =>
        rw [FImmutableTree.child, hlookup, Option.getD_some] at hw
        have hmem : (k, write) ∈ children := (mem_iff_lookup ascending).mpr hlookup
        refine ⟨(k :: w.1, w.2), ?_, ?_, ?_⟩
        · rw [forEach, mem_forEachChild]
          exact ⟨_, hmem, w, hw, rfl⟩
        · simpa [List.cons_prefix_cons] using hpre
        · simpa using heq

/-- Where nothing is written, there is no write at or above. -/
theorem not_prefix_of_completeNodeAtPath {write : FCompoundWrite K V} (h : Valid cmp scmp write)
    {path : FPath K} (hcomplete : completeNodeAtPath cmp scmp write path = none) :
    ∀ w ∈ write.forEach, ¬ w.1 <+: path := by
  induction path generalizing write with
  | nil =>
    cases h with
    | leaf pruned => cases hcomplete
    | node ascending valid =>
      intro w hw hpre
      rw [forEach, mem_forEachChild] at hw
      obtain ⟨e, he, below, hbelow, rfl⟩ := hw
      simp at hpre
  | cons k path ih =>
    cases h with
    | leaf pruned =>
      rw [completeNodeAtPath_leaf] at hcomplete
      cases hcomplete
    | @node children ascending valid =>
      rw [completeNodeAtPath_cons] at hcomplete
      intro w hw hpre
      rw [forEach, mem_forEachChild] at hw
      obtain ⟨e, he, below, hbelow, rfl⟩ := hw
      obtain ⟨rfl, hbelowpre⟩ := List.cons_prefix_cons.mp hpre
      refine ih ((Valid.node ascending valid).child e.1) hcomplete below ?_ hbelowpre
      rwa [child_of_mem ascending he]

/-- A write of a tree is found at its path and is the first one on the way there. -/
theorem completeNodeAtPath_of_mem {write : FCompoundWrite K V} (h : Valid cmp scmp write)
    {w : FPath K × FNode K V} (hw : w ∈ write.forEach) :
    completeNodeAtPath cmp scmp write w.1 = some w.2
    ∧ ∀ above, above <+: w.1 → above ≠ w.1 →
      completeNodeAtPath cmp scmp write above = none := by
  constructor
  · cases hcomplete : completeNodeAtPath cmp scmp write w.1 with
    | none => exact absurd List.prefix_rfl (not_prefix_of_completeNodeAtPath h hcomplete w hw)
    | some complete =>
      obtain ⟨w', hw', hpre, rfl⟩ := exists_of_completeNodeAtPath h hcomplete
      obtain rfl := eq_of_prefix h hw' hw hpre List.prefix_rfl
      rw [List.drop_length, FNode.getChild_nil]
  · intro above habove hne
    by_contra hsome
    obtain ⟨complete, hcomplete⟩ := Option.ne_none_iff_exists'.mp hsome
    obtain ⟨w', hw', hpre, -⟩ := exists_of_completeNodeAtPath h hcomplete
    obtain rfl := eq_of_prefix h hw' hw (hpre.trans habove) List.prefix_rfl
    exact hne (habove.eq_of_length_le hpre.length_le)

/-- A further write adds no written path but its own. -/
theorem mem_forEach_addWrite {write' : FCompoundWrite K V} (hwrite : Valid cmp scmp write)
    {newNode : FNode K V} {path : FPath K}
    (hadd : addWrite cmp scmp write newNode path = some write') :
    ∀ w ∈ write'.forEach, w.1 = path ∨ ∃ old ∈ write.forEach, old.1 = w.1 := by
  induction path generalizing write write' with
  | nil =>
    obtain rfl := Option.some.inj hadd
    simp
  | cons k path ih =>
    cases hwrite with
    | @leaf value pruned =>
      obtain rfl := Option.some.inj ((addWrite_leaf value newNode k path).symm.trans hadd)
      simp
    | @node children ascending valid =>
      have hthis := Valid.node ascending valid
      rw [addWrite_cons hthis] at hadd
      obtain ⟨newChild, hnew, rfl⟩ := Option.map_eq_some_iff.mp hadd
      intro w hw
      rw [forEach, mem_forEachChild] at hw
      obtain ⟨e, he, below, hbelow, rfl⟩ := hw
      rcases (mem_put_iff ascending).mp he with rfl | ⟨-, hold⟩
      · rcases ih (hthis.child k) hnew below hbelow with heq | ⟨old, hold, heq⟩
        · exact .inl (by rw [heq])
        · refine .inr ⟨(k :: old.1, old.2), ?_, by rw [heq]⟩
          rw [forEach, mem_forEachChild]
          cases hlookup : lookup scmp k children with
          | none =>
            rw [FImmutableTree.child, hlookup, Option.getD_none] at hold
            simp [FImmutableTree.empty, forEach, forEachChild] at hold
          | some oldChild =>
            rw [FImmutableTree.child, hlookup, Option.getD_some] at hold
            exact ⟨(k, oldChild), (mem_iff_lookup ascending).mpr hlookup, old, hold, rfl⟩
      · refine .inr ⟨(e.1 :: below.1, below.2), ?_, rfl⟩
        rw [forEach, mem_forEachChild]
        exact ⟨e, hold, below, hbelow, rfl⟩

/-- What the subtree at a path writes is what the tree writes below the path. -/
theorem subtreeAtPath_spec {write : FCompoundWrite K V} (hwrite : Valid cmp scmp write)
    {path : FPath K} (h : completeNodeAtPath cmp scmp write path = none) :
    Valid cmp scmp (subtreeAtPath scmp write path)
    ∧ (∀ rest, completeNodeAtPath cmp scmp (subtreeAtPath scmp write path) rest
        = completeNodeAtPath cmp scmp write (path ++ rest))
    ∧ ∀ w ∈ (subtreeAtPath scmp write path).forEach, (path ++ w.1, w.2) ∈ write.forEach := by
  induction path generalizing write with
  | nil =>
    cases write
    exact ⟨hwrite, fun _ => rfl, fun w hw => hw⟩
  | cons k path ih =>
    cases hwrite with
    | leaf pruned =>
      rw [completeNodeAtPath_leaf] at h
      cases h
    | @node children ascending valid =>
      rw [completeNodeAtPath_cons] at h
      obtain ⟨hvalid, hcomplete, hwrites⟩ := ih ((Valid.node ascending valid).child k) h
      rw [subtreeAtPath_cons]
      refine ⟨hvalid, ?_, ?_⟩
      · intro rest
        rw [hcomplete, List.cons_append, completeNodeAtPath_cons]
      · intro w hw
        have hbelow := hwrites w hw
        rw [forEach, mem_forEachChild]
        cases hlookup : lookup scmp k children with
        | none =>
          rw [FImmutableTree.child, hlookup, Option.getD_none] at hbelow
          simp [FImmutableTree.empty, forEach, forEachChild] at hbelow
        | some childTree =>
          rw [FImmutableTree.child, hlookup, Option.getD_some] at hbelow
          exact ⟨(k, childTree), (mem_iff_lookup ascending).mpr hlookup, _, hbelow, rfl⟩

end writes

/-! ## Section 2: Below a path -/

section below
variable {cmp scmp : K → K → Ordering} [DecidableEq K] {write : FCompoundWrite K V}

/-- Below a written node nothing else is written. -/
theorem completeNodeAtPath_append (hwrite : Valid cmp scmp write) {path : FPath K}
    {complete : FNode K V} (h : completeNodeAtPath cmp scmp write path = some complete)
    (rest : FPath K) :
    completeNodeAtPath cmp scmp write (path ++ rest) = some (complete.getChild cmp rest) := by
  induction path generalizing write with
  | nil =>
    cases hwrite with
    | leaf pruned =>
      rw [completeNodeAtPath_leaf] at h
      obtain rfl := Option.some.inj h
      rw [List.nil_append, completeNodeAtPath_leaf, FNode.getChild_nil]
    | node ascending valid => cases h
  | cons k path ih =>
    cases hwrite with
    | leaf pruned =>
      rw [completeNodeAtPath_leaf] at h
      obtain rfl := Option.some.inj h
      rw [completeNodeAtPath_leaf, FNode.getChild_append]
    | @node children ascending valid =>
      rw [completeNodeAtPath_cons] at h
      rw [List.cons_append, completeNodeAtPath_cons]
      exact ih ((Valid.node ascending valid).child k) h

theorem childCompoundWriteAtPath_eq {path : FPath K}
    (h : completeNodeAtPath cmp scmp write path = none) :
    childCompoundWriteAtPath cmp scmp write path = subtreeAtPath scmp write path := by
  rw [childCompoundWriteAtPath]
  split
  · next hnil =>
    subst hnil
    cases write
    rfl
  · rw [h]

theorem Valid.childCompoundWriteAtPath [Std.TransCmp cmp] [Std.TransCmp scmp]
    [Std.LawfulEqCmp scmp] (hwrite : Valid cmp scmp write) (path : FPath K) :
    Valid cmp scmp (FCompoundWrite.childCompoundWriteAtPath cmp scmp write path) := by
  cases hcomplete : completeNodeAtPath cmp scmp write path with
  | none =>
    rw [childCompoundWriteAtPath_eq hcomplete]
    exact (subtreeAtPath_spec hwrite hcomplete).1
  | some node =>
    rw [FCompoundWrite.childCompoundWriteAtPath, hcomplete]
    split
    · exact hwrite
    · obtain ⟨w, hw, -, rfl⟩ := exists_of_completeNodeAtPath hwrite hcomplete
      exact .leaf ((hwrite.pruned w hw).getChild _)

theorem completeNodeAtPath_childCompoundWriteAtPath [Std.TransCmp scmp] [Std.LawfulEqCmp scmp]
    (hwrite : Valid cmp scmp write) (path rest : FPath K) :
    completeNodeAtPath cmp scmp (FCompoundWrite.childCompoundWriteAtPath cmp scmp write path) rest
      = completeNodeAtPath cmp scmp write (path ++ rest) := by
  cases hcomplete : completeNodeAtPath cmp scmp write path with
  | none => rw [childCompoundWriteAtPath_eq hcomplete, (subtreeAtPath_spec hwrite hcomplete).2.1]
  | some node =>
    rw [FCompoundWrite.childCompoundWriteAtPath, hcomplete]
    split
    · next hnil => rw [hnil, List.nil_append]
    · rw [completeNodeAtPath_leaf, completeNodeAtPath_append hwrite hcomplete]

end below

end FCompoundWrite

end MeetupApp.Firebase
