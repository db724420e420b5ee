import MeetupApp.Firebase.PendingWrites

/-! # Core/FRepo.m

    The writes of the client.  `set` and `update` give a write its number and add it
    to the pending ones, `ackWrite` removes it when the server has answered.

    The runs of the client are those of a queue: nothing that the app calls fails,
    an answer can come exactly when one is due, and what is shown is what the writes
    in the queue make of the data, one after another. -/

namespace MeetupApp.Firebase

open FImmutableTree FCompoundWrite

variable {K V : Type} {cmp scmp : K → K → Ordering}

/-- `FRepo`, as far as it keeps the writes of the client. -/
structure FRepo (K V : Type) where
  writeIdCounter : Int
  pendingWriteTree : FWriteTree K V

namespace FRepo

/-! ## Section 1: The operations -/

/-- A repo without restored writes. -/
def init : FRepo K V where
  writeIdCounter := 0
  pendingWriteTree := .init

section operations
variable (cmp scmp) [DecidableEq K]

/-- `set:withNode:withCallback:` -/
def set (repo : FRepo K V) (path : FPath K) (newNode : FNode K V) : Option (FRepo K V) := do
  let writeId := repo.writeIdCounter
  some {
    writeIdCounter := writeId + 1
    pendingWriteTree :=
      ← repo.pendingWriteTree.addOverwriteAtPath cmp scmp path newNode writeId true }

/-- `update:withNodes:withCallback:` -/
def update (repo : FRepo K V) (path : FPath K) (resolved : FCompoundWrite K V) :
    Option (FRepo K V) := do
  if !resolved.isEmpty then
    let writeId := repo.writeIdCounter
    some {
      writeIdCounter := writeId + 1
      pendingWriteTree := ← repo.pendingWriteTree.addMergeAtPath cmp scmp path resolved writeId }
  else some repo

/-- `ackWrite:rerunTransactionsAtPath:status:`; a write that failed is removed as well. -/
def ackWrite (repo : FRepo K V) (writeId : Int) : Option (FRepo K V) := do
  let (pendingWriteTree, _) ← repo.pendingWriteTree.removeWriteId cmp scmp writeId
  some { repo with pendingWriteTree }

end operations

/-! ## Section 2: Runs -/

/-- What happens to a repo. -/
inductive Label (K V : Type) where
  | set (path : FPath K) (newNode : FNode K V)
  | update (path : FPath K) (resolved : FCompoundWrite K V)
  /-- The server answers the oldest pending write. -/
  | answered

/-- Calls with stored nodes; an update is one of direct children of its path. -/
def Plain (cmp scmp : K → K → Ordering) : Label K V → Prop
  | .set _ newNode => newNode.Pruned cmp
  | .update _ resolved => Valid cmp scmp resolved ∧ ∀ w ∈ resolved.forEach, w.1.length = 1
  | .answered => True

/-- One step of a repo. -/
def step (cmp scmp : K → K → Ordering) [DecidableEq K] (repo : FRepo K V) :
    Label K V → Option (FRepo K V)
  | .set path newNode => repo.set cmp scmp path newNode
  | .update path resolved => repo.update cmp scmp path resolved
  | .answered => do
    let record ← repo.pendingWriteTree.allWrites.head?
    repo.ackWrite cmp scmp record.writeId

/-- The writes that a call writes. -/
abbrev Writes (K V : Type) := List (FPath K × FNode K V)

/-- One step of the queue of the writes that are not answered yet. -/
def queueStep (queue : List (Writes K V)) : Label K V → Option (List (Writes K V))
  | .set path newNode => some (queue ++ [[(path, newNode)]])
  | .update path resolved =>
    if resolved.isEmpty then some queue
    else some (queue ++ [resolved.forEach.map (fun w => (path.child w.1, w.2))])
  | .answered =>
    match queue with
    | [] => none
    | _ :: rest => some rest

/-- The repo holds the writes of the queue, with numbers below the counter. -/
structure Refines (cmp scmp : K → K → Ordering) [DecidableEq K] (repo : FRepo K V)
    (queue : List (Writes K V)) : Prop where
  agrees : repo.pendingWriteTree.Agrees cmp scmp
  queue : repo.pendingWriteTree.allWrites.map (·.writes) = queue
  nonneg : 0 ≤ repo.writeIdCounter
  last : repo.pendingWriteTree.lastWriteId < repo.writeIdCounter
  ids : ∀ record ∈ repo.pendingWriteTree.allWrites, record.writeId < repo.writeIdCounter

/-! ## Section 3: The refinement -/

section refinement
variable [DecidableEq K] {repo : FRepo K V} {queue : List (Writes K V)}

theorem refines_init : Refines cmp scmp (init : FRepo K V) [] where
  agrees := FWriteTree.agrees_init
  queue := rfl
  nonneg := le_rfl
  last := Int.negSucc_lt_zero 0
  ids := by simp [init, FWriteTree.init]

/-- Another record, with the number of the counter. -/
theorem Refines.add (h : Refines cmp scmp repo queue) {record : FWriteRecord K V}
    {write : FCompoundWrite K V} (hid : record.writeId = repo.writeIdCounter)
    (hagrees : FWriteTree.Agrees cmp scmp
      ⟨write, repo.pendingWriteTree.allWrites ++ [record], repo.writeIdCounter⟩) :
    Refines cmp scmp
      ⟨repo.writeIdCounter + 1,
        ⟨write, repo.pendingWriteTree.allWrites ++ [record], repo.writeIdCounter⟩⟩
      (queue ++ [record.writes]) := by
  refine ⟨hagrees, ?_, ?_, ?_, ?_⟩
  · simp [h.queue]
  · have := h.nonneg
    dsimp only
    omega
  · dsimp only
    omega
  · intro r hr
    rcases List.mem_append.mp hr with hr | hr
    · have := h.ids r hr
      dsimp only
      omega
    · rw [List.mem_singleton.mp hr, hid]
      dsimp only
      omega

variable [Std.TransCmp cmp] [Std.TransCmp scmp] [Std.LawfulEqCmp cmp] [Std.LawfulEqCmp scmp]

/-- The oldest record can be removed.  The last number stays or is taken from the rest. -/
theorem exists_removeWriteId {tree : FWriteTree K V} (h : tree.Agrees cmp scmp)
    {record : FWriteRecord K V} {rest : List (FWriteRecord K V)}
    (hall : tree.allWrites = record :: rest) :
    ∃ tree' changed, tree.removeWriteId cmp scmp record.writeId = some (tree', changed)
      ∧ tree'.allWrites = rest
      ∧ (tree'.lastWriteId = tree.lastWriteId
        ∨ tree'.lastWriteId = (rest.getLast?.map (·.writeId)).getD (-1)) := by
  have hrest : ∀ w ∈ rest.flatMap (·.writes), w.2.Pruned cmp := by
    intro w hw
    obtain ⟨r, hr, hw⟩ := List.mem_flatMap.mp hw
    exact (h.plain r (by simp [hall, hr])).pruned w hw
  simp only [FWriteTree.removeWriteId, hall, List.findIdx?_cons, decide_true, if_true,
    Option.bind_eq_bind, Option.bind_some, List.getElem?_cons_zero, List.eraseIdx_cons_zero]
  generalize FWriteTree.overlapLoop record 0 rest rest.length (record.visible, false) = flags
  obtain ⟨visible, overlaps⟩ := flags
  cases visible with
  | false => exact ⟨_, _, rfl, rfl, .inl rfl⟩
  | true =>
    cases overlaps with
    | true =>
      -- The writes that are left were added once, so they can be added again.
      have hempty : Valid cmp scmp (emptyWrite : FCompoundWrite K V) := .empty
      obtain ⟨write, hwrite, -⟩ := addWrites_spec hempty hrest
      simp only [FWriteTree.resetTree, FWriteTree.layerTreeFromWrites_default, hwrite,
        Option.bind_eq_bind, Option.bind_some]
      exact ⟨_, _, rfl, rfl, .inr rfl⟩
    | false =>
      obtain ⟨writeId, path, data, visible⟩ := record
      cases data with
      | overwrite node => exact ⟨_, _, rfl, rfl, .inl rfl⟩
      | merge merge => exact ⟨_, _, rfl, rfl, .inl rfl⟩

/-- One step of the repo is one step of the queue. -/
theorem refines_step {l : Label K V} (hplain : Plain cmp scmp l)
    (h : Refines cmp scmp repo queue) :
    Option.Rel (Refines cmp scmp) (step cmp scmp repo l) (queueStep queue l) := by
  cases l with
  | set path newNode =>
    obtain ⟨write, hwrite⟩ := exists_addWrite h.agrees.valid newNode path
    have hrecord : FWriteTree.PlainRecord cmp
        ⟨repo.writeIdCounter, path, .overwrite newNode, true⟩ :=
      FWriteTree.plainRecord_overwrite hplain
    have hagrees := h.agrees.add hrecord ((FWriteTree.addWrites_singleton _ _).trans hwrite)
      repo.writeIdCounter
    simp only [step, set, FWriteTree.addOverwriteAtPath, if_pos h.last, if_true, hwrite,
      Option.bind_eq_bind, Option.bind_some, queueStep]
    exact .some (h.add rfl hagrees)
  | update path resolved =>
    obtain ⟨hvalid, hdirect⟩ := hplain
    simp only [step, update, queueStep]
    cases hempty : resolved.isEmpty with
    | true => exact .some h
    | false =>
      have hrecord : FWriteTree.PlainRecord cmp
          ⟨repo.writeIdCounter, path, .merge resolved, true⟩ :=
        FWriteTree.plainRecord_merge hvalid hdirect
      obtain ⟨write, hwrite, -⟩ := addWrites_spec h.agrees.valid hrecord.pruned
      have hagrees := h.agrees.add hrecord hwrite repo.writeIdCounter
      have hadd : addCompoundWrite cmp scmp repo.pendingWriteTree.visibleWrites resolved path
          = some write := (FWriteTree.addCompoundWrite_eq _ _ _).trans hwrite
      simp only [FWriteTree.addMergeAtPath, if_pos h.last, hadd, Option.bind_eq_bind,
        Option.bind_some, Bool.not_false, if_true]
      exact .some (h.add rfl hagrees)
  | answered =>
    have hqueue := h.queue
    cases hall : repo.pendingWriteTree.allWrites with
    | nil =>
      rw [hall] at hqueue
      subst hqueue
      simp only [step, hall, queueStep]
      exact .none
    | cons record rest =>
      rw [hall] at hqueue
      subst hqueue
      obtain ⟨tree', changed, hremoved, hrest, hlast⟩ := exists_removeWriteId h.agrees hall
      have hagrees : tree'.Agrees cmp scmp :=
        FWriteTree.agrees_step (l := .answered) trivial h.agrees (by
          simp [FWriteTree.step, hall, hremoved])
      simp only [step, hall, queueStep, ackWrite, hremoved, List.map_cons, List.head?_cons,
        Option.bind_eq_bind, Option.bind_some]
      refine .some ⟨hagrees, by rw [hrest], h.nonneg, ?_, ?_⟩
      · have hids := h.ids
        have hnonneg := h.nonneg
        dsimp only
        rcases hlast with hlast | hlast
        · rw [hlast]
          exact h.last
        · rw [hlast]
          cases hgot : rest.getLast? with
          | none =>
            dsimp only [Option.map, Option.getD]
            omega
          | some r => exact hids r (by simp [hall, List.mem_of_getLast? hgot])
      · intro r hr
        rw [hrest] at hr
        exact h.ids r (by simp [hall, hr])

/-- What is shown of a node is what the writes of the queue make of it. -/
theorem Refines.applyToNode (h : Refines cmp scmp repo queue) {node : FNode K V}
    (hnode : node.Pruned cmp) (hopen : ∀ w ∈ queue.flatten, OpenAt cmp node w.1) :
    FCompoundWrite.applyToNode cmp repo.pendingWriteTree.visibleWrites node
      = updateChildren cmp node queue.flatten := by
  have hpending : repo.pendingWriteTree.pending = queue.flatten := by
    rw [← h.queue, FWriteTree.pending, List.flatMap_def]
  rw [← hpending] at hopen ⊢
  exact h.agrees.applyToNode hnode hopen

end refinement

end FRepo

end MeetupApp.Firebase
