import MeetupApp.Firebase.ViewProcessor

/-! # Core/Operation, Core/FSyncTree.m

    How an operation at its path becomes one at a location.  Below its path it is the
    part of it that concerns the location, above its path it is the same with a shorter
    path, and elsewhere nothing arrives. -/

namespace MeetupApp.Firebase

open SortedEntries FImmutableTree FCompoundWrite

variable {K V : Type}

/-! ## Section 1: Operations below their path -/

section operations
variable (cmp scmp : K → K → Ordering) [DecidableEq K]

namespace FOperation

/-- `operationForChild:`, for the key at the front of the path if it is not empty. -/
def operationForChild (childKey : K) : FOperation K V → Option (FOperation K V)
  | .overwrite source [] snap =>
    some (.overwrite source [] (snap.getImmediateChild cmp childKey))
  | .overwrite source (_ :: path) snap => some (.overwrite source path snap)
  | .merge source [] children =>
    let childTree := childCompoundWriteAtPath cmp scmp children [childKey]
    if childTree.isEmpty then none
    else
      match childTree.value with
      | some rootWrite => some (.overwrite source [] rootWrite)
      | none => some (.merge source [] childTree)
  | .merge source (_ :: path) children => some (.merge source path children)
  | .ackUserWrite [] affectedTree revert =>
    if affectedTree.value.isSome then some (.ackUserWrite [] affectedTree revert)
    else some (.ackUserWrite [] (subtreeAtPath scmp affectedTree [childKey]) revert)
  | .ackUserWrite (_ :: path) affectedTree revert => some (.ackUserWrite path affectedTree revert)
  | .listenComplete [] => some (.listenComplete [])
  | .listenComplete (_ :: path) => some (.listenComplete path)

/-- `applyOperationHelper:` and `applyOperationDescendantsHelper:`, the operation as it
    reaches a location. -/
def operationAt : FPath K → FOperation K V → Option (FOperation K V)
  | [], operation => some operation
  | childKey :: location, operation =>
    match operation.path with
    | [] => (operationForChild cmp scmp childKey operation).bind (operationAt location)
    | front :: _ =>
      if front = childKey then
        (operationForChild cmp scmp childKey operation).bind (operationAt location)
      else none

end FOperation

end operations

/-! ## Section 2: Where an operation arrives -/

/-- A merge with direct children of its path. -/
def FCompoundWrite.Direct (changedChildren : FCompoundWrite K V) : Prop :=
  changedChildren.value = none
    ∧ ∀ e ∈ changedChildren.childCompoundWrites, ∃ node, e.2 = ofValue node

section arrival
variable {cmp scmp : K → K → Ordering} [DecidableEq K]

namespace FOperation

theorem operationAt_overwrite_below (location rest : FPath K) (source : FOperationSource)
    (snap : FNode K V) :
    operationAt cmp scmp location (.overwrite source (location ++ rest) snap)
      = some (.overwrite source rest snap) := by
  induction location with
  | nil => rfl
  | cons k location ih =>
    simp only [List.cons_append, operationAt, FOperation.path, operationForChild, if_true,
      Option.bind_some, ih]

theorem operationAt_overwrite_above (path rest : FPath K) (source : FOperationSource)
    (snap : FNode K V) :
    operationAt cmp scmp (path ++ rest) (.overwrite source path snap)
      = some (.overwrite source [] (snap.getChild cmp rest)) := by
  induction path with
  | nil =>
    rw [List.nil_append]
    induction rest generalizing snap with
    | nil => rfl
    | cons k rest ih =>
      simp only [operationAt, FOperation.path, operationForChild, Option.bind_some, ih,
        FNode.getChild_cons]
  | cons k path ih =>
    simp only [List.cons_append, operationAt, FOperation.path, operationForChild, if_true,
      Option.bind_some, ih]

theorem operationAt_merge_below (location rest : FPath K) (source : FOperationSource)
    (children : FCompoundWrite K V) :
    operationAt cmp scmp location (.merge source (location ++ rest) children)
      = some (.merge source rest children) := by
  induction location with
  | nil => rfl
  | cons k location ih =>
    simp only [List.cons_append, operationAt, FOperation.path, operationForChild, if_true,
      Option.bind_some, ih]

variable (cmp scmp) in
/-- Below the path of such a merge there is at most an overwrite. -/
theorem operationAt_merge_above {children : FCompoundWrite K V}
    (hdirect : FCompoundWrite.Direct children) (path : FPath K) (k : K) (rest : FPath K)
    (source : FOperationSource) :
    operationAt cmp scmp (path ++ k :: rest) (.merge source path children)
      = (completeNodeAtPath cmp scmp children [k]).map
        (fun node => .overwrite source [] (node.getChild cmp rest)) := by
  induction path with
  | nil =>
    rw [List.nil_append, operationAt]
    dsimp only [FOperation.path, operationForChild]
    cases hcomplete : completeNodeAtPath cmp scmp children [k] with
    | some node =>
      have htree : childCompoundWriteAtPath cmp scmp children [k] = ofValue node := by
        rw [childCompoundWriteAtPath, if_neg (List.cons_ne_nil k []), hcomplete]
      rw [htree]
      exact operationAt_overwrite_above [] rest source node
    | none =>
      have htree : childCompoundWriteAtPath cmp scmp children [k] = empty := by
        rw [childCompoundWriteAtPath_eq hcomplete]
        obtain ⟨value, entries⟩ := children
        obtain ⟨hvalue, hchildren⟩ := hdirect
        obtain rfl : value = none := hvalue
        rw [subtreeAtPath]
        cases hlookup : lookup scmp k entries with
        | none => rfl
        | some child =>
          obtain ⟨e, hmem, -, rfl⟩ := mem_of_lookup hlookup
          obtain ⟨node, hnode⟩ := hchildren e hmem
          rw [completeNodeAtPath_cons, FImmutableTree.child, hlookup, Option.getD_some, hnode,
            completeNodeAtPath_leaf] at hcomplete
          cases hcomplete
      rw [htree]
      rfl
  | cons k' path ih =>
    simp only [List.cons_append, operationAt, FOperation.path, operationForChild, if_true,
      Option.bind_some, ih]

/-- Elsewhere nothing arrives. -/
theorem operationAt_apart {location : FPath K} {operation : FOperation K V}
    (hbelow : ¬ location <+: operation.path) (habove : ¬ operation.path <+: location) :
    operationAt cmp scmp location operation = none := by
  induction location generalizing operation with
  | nil => exact absurd List.nil_prefix hbelow
  | cons k location ih =>
    cases hpath : operation.path with
    | nil =>
      rw [hpath] at habove
      exact absurd List.nil_prefix habove
    | cons front path =>
      rw [operationAt, hpath]
      dsimp only
      by_cases hfront : front = k
      · subst hfront
        rw [hpath, List.prefix_cons_inj] at hbelow habove
        rw [if_pos rfl]
        cases operation with
        | overwrite source path' snap | merge source path' children
        | ackUserWrite path' affectedTree revert | listenComplete path' =>
          obtain rfl : path' = front :: path := hpath
          exact ih hbelow habove
      · rw [if_neg hfront]

end FOperation

/-! ## Section 3: Affected trees -/

/-- The children of the tree are in order, and so are theirs. -/
inductive Ordered {T : Type} (scmp : K → K → Ordering) : FImmutableTree K T → Prop where
  | mk {value : Option T} {children : List (K × FImmutableTree K T)}
      (ascending : Ascending scmp children) (ordered : ∀ e ∈ children, Ordered scmp e.2) :
      Ordered scmp (.mk value children)

omit [DecidableEq K] in
theorem ordered_empty {T : Type} : Ordered scmp (empty : FImmutableTree K T) :=
  .mk ascending_nil (by simp)

variable [Std.TransCmp scmp] [Std.LawfulEqCmp scmp]

omit [DecidableEq K] in
theorem Ordered.child {T : Type} {value : Option T} {children : List (K × FImmutableTree K T)}
    (h : Ordered scmp (.mk value children)) (k : K) :
    Ordered scmp (FImmutableTree.child scmp children k) := by
  obtain ⟨ascending, ordered⟩ := h
  rw [FImmutableTree.child]
  cases hlookup : lookup scmp k children with
  | none => exact ordered_empty
  | some child => exact ordered (k, child) ((mem_iff_lookup ascending).mpr hlookup)

omit [DecidableEq K] in
theorem Ordered.setValue {T : Type} {tree : FImmutableTree K T} (h : Ordered scmp tree) (v : T)
    (path : FPath K) : Ordered scmp (FImmutableTree.setValue scmp v tree path) := by
  induction path generalizing tree with
  | nil =>
    obtain ⟨ascending, ordered⟩ := h
    exact .mk ascending ordered
  | cons k path ih =>
    obtain ⟨value, children⟩ := tree
    have hchild := h.child
    obtain ⟨ascending, ordered⟩ := h
    refine .mk ascending.put (fun e he => ?_)
    rcases (mem_put_iff ascending).mp he with rfl | ⟨-, hmem⟩
    · exact ih (hchild k)
    · exact ordered e hmem

omit [DecidableEq K] [Std.TransCmp scmp] [Std.LawfulEqCmp scmp] in
theorem mem_forEach_mk {T : Type} {value : Option T} {children : List (K × FImmutableTree K T)}
    {m : FPath K × T} : m ∈ (FImmutableTree.mk value children).forEach
      ↔ m ∈ forEachChild children ∨ (m.1 = [] ∧ value = some m.2) := by
  obtain ⟨path, v⟩ := m
  cases value with
  | none => simp [forEach]
  | some value => simp [forEach, eq_comm]

/-- The path at which a value is set is one of the tree, besides those there were. -/
theorem mem_forEach_setValue {tree : FImmutableTree K Unit} (h : Ordered scmp tree)
    {path other : FPath K} (hother : other = path ∨ (other, ()) ∈ tree.forEach) :
    (other, ()) ∈ (FImmutableTree.setValue scmp () tree path).forEach := by
  induction path generalizing tree other with
  | nil =>
    obtain ⟨value, children⟩ := tree
    rw [FImmutableTree.setValue, mem_forEach_mk]
    rcases hother with rfl | hmem
    · exact .inr ⟨rfl, rfl⟩
    · rcases mem_forEach_mk.mp hmem with hmem | ⟨hnil, -⟩
      · exact .inl hmem
      · exact .inr ⟨hnil, rfl⟩
  | cons k path ih =>
    obtain ⟨value, children⟩ := tree
    have hchild := h.child k
    obtain ⟨ascending, ordered⟩ := h
    have hnew : (k, FImmutableTree.setValue scmp () (FImmutableTree.child scmp children k) path)
        ∈ put scmp true k (FImmutableTree.setValue scmp () (FImmutableTree.child scmp children k)
          path) children := (mem_put_iff ascending).mpr (.inl rfl)
    rw [FImmutableTree.setValue, mem_forEach_mk]
    rcases hother with rfl | hmem
    · exact .inl (mem_forEachChild.mpr ⟨_, hnew, (path, ()), ih hchild (.inl rfl), rfl⟩)
    · rcases mem_forEach_mk.mp hmem with hmem | hroot
      · obtain ⟨e, he, ⟨below, _⟩, hbelow, heq⟩ := mem_forEachChild.mp hmem
        left
        by_cases hk : e.1 = k
        · subst hk
          have hsame : FImmutableTree.child scmp children e.1 = e.2 := by
            rw [FImmutableTree.child, (mem_iff_lookup ascending).mp he, Option.getD_some]
          rw [← hsame] at hbelow
          exact mem_forEachChild.mpr ⟨_, hnew, (below, ()), ih hchild (.inr hbelow), heq⟩
        · exact mem_forEachChild.mpr
            ⟨e, (mem_put_iff ascending).mpr (.inr ⟨hk, he⟩), (below, ()), hbelow, heq⟩
      · exact .inr hroot

variable (V cmp) in
/-- What is affected of the location is found in the tree that arrives there. -/
theorem operationAt_ackUserWrite {affectedTree : FImmutableTree K Unit}
    (hordered : Ordered scmp affectedTree) (revert : Bool) {location path : FPath K}
    {affected : FPath K → Prop}
    (haffected : ∀ other, affected other →
      ∃ m ∈ affectedTree.forEach, path ++ m.1 <+: location ++ other) :
    (FOperation.operationAt cmp scmp location
        (.ackUserWrite path affectedTree revert : FOperation K V) = none
      ∧ ∀ other, ¬ affected other)
    ∨ ∃ path' affectedTree', FOperation.operationAt cmp scmp location
        (.ackUserWrite path affectedTree revert : FOperation K V)
          = some (.ackUserWrite path' affectedTree' revert)
      ∧ ∀ other, affected other → ∃ m ∈ affectedTree'.forEach, path' ++ m.1 <+: other := by
  induction location generalizing path affectedTree with
  | nil => exact .inr ⟨path, affectedTree, rfl, haffected⟩
  | cons k location ih =>
    cases path with
    | cons front path =>
      rw [FOperation.operationAt]
      dsimp only [FOperation.path, FOperation.operationForChild]
      by_cases hfront : front = k
      · subst hfront
        rw [if_pos rfl, Option.bind_some]
        refine ih hordered (fun other hother => ?_)
        obtain ⟨m, hm, hpre⟩ := haffected other hother
        exact ⟨m, hm, (List.prefix_cons_inj front).mp hpre⟩
      · rw [if_neg hfront]
        refine .inl ⟨rfl, fun other hother => ?_⟩
        obtain ⟨m, -, hpre⟩ := haffected other hother
        exact hfront (List.cons_prefix_cons.mp hpre).1
    | nil =>
      rw [FOperation.operationAt]
      dsimp only [FOperation.path, FOperation.operationForChild]
      cases hvalue : affectedTree.value with
      | some v =>
        rw [Option.isSome_some, if_pos rfl, Option.bind_some]
        refine ih hordered (fun other _ => ⟨([], v), ?_, List.nil_prefix⟩)
        obtain ⟨value, children⟩ := affectedTree
        exact mem_forEach_mk.mpr (.inr ⟨rfl, hvalue⟩)
      | none =>
        rw [Option.isSome_none, if_neg Bool.false_ne_true, Option.bind_some]
        obtain ⟨value, children⟩ := affectedTree
        obtain rfl : value = none := hvalue
        have hchild := hordered.child k
        obtain ⟨ascending, ordered⟩ := hordered
        have hsubtree : subtreeAtPath scmp (.mk none children) [k]
            = FImmutableTree.child scmp children k := by
          rw [subtreeAtPath, FImmutableTree.child]
          cases lookup scmp k children <;> rfl
        rw [hsubtree]
        refine ih hchild (fun other hother => ?_)
        obtain ⟨m, hm, hpre⟩ := haffected other hother
        rw [forEach, mem_forEachChild] at hm
        obtain ⟨e, he, below, hbelow, rfl⟩ := hm
        obtain ⟨hkey, hrest⟩ := List.cons_prefix_cons.mp hpre
        refine ⟨below, ?_, hrest⟩
        rwa [← hkey, FImmutableTree.child, (mem_iff_lookup ascending).mp he, Option.getD_some]

end arrival

end MeetupApp.Firebase
