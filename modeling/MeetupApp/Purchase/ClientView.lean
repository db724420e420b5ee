import MeetupApp.Firebase.LocalView
import MeetupApp.Purchase.Interleaving

/-! # What a phone shows while its purchases are on their way

    The machine of purchases keeps for each client the writes that the server has
    not taken, the SDK of the client keeps the writes that the server has not
    answered.  Here the two are run side by side: the SDK of one client is given
    the writes that this client issues and an answer for each that the server
    takes, while all the other clients go on buying.

    The result: at every moment the phone shows the server's database with its own
    outstanding purchases already made, whatever the others have written.  The texts
    on the screens and the lists on sale have to be ones that the database can store;
    every write that follows from them is then one, too. -/

namespace MeetupApp.Purchase

open Firebase

variable {K Image : Type} [LinearOrder K]

/-! ## Section 1: The traffic of one client -/

/-- What passes between client `c` and the server in a step from `s` to `s'`. -/
def trafficStep (c : Nat) (s s' : State K Image) : Label K Image → List (Traffic K)
  | .tap _ _ _ _ => []
  -- The callback of a confirmed purchase has put its writes at the end of the outbox.
  | .deliver _ _ => ((s'.outbox c).drop (s.outbox c).length).map .write
  | .accept client => if client = c then [.answered] else []
  | .reject client => if client = c then [.answered] else []

/-- The traffic of a run. -/
def traffic (c : Nat) : State K Image → List (Label K Image) → List (Traffic K)
  | _, [] => []
  | s, l :: ls =>
    match step s l with
    | none => []
    | some m => trafficStep c s m l ++ traffic c m ls

/-- The server takes the oldest write of a client. -/
theorem exec_served (c : Nat) {s : State K Image} {client : Nat} {w : Write K}
    {rest : List (Write K)} (hout : s.outbox client = w :: rest) (db : Database K) :
    Runs.exec unansweredStep (s.outbox c) (if client = c then [.answered] else [])
      = some ((s.serve client db rest).outbox c) := by
  have hserved : (s.serve client db rest).outbox = Function.update s.outbox client rest := rfl
  rw [hserved]
  split
  · next hc =>
    subst hc
    rw [hout, Function.update_self]
    rfl
  · next hc =>
    rw [Function.update_of_ne (Ne.symm hc)]
    rfl

/-- A delivery puts writes at the end of an outbox, or none. -/
theorem outbox_deliver (c : Nat) {s s' : State K Image} {i version : Nat}
    (h : step s (.deliver i version) = some s') : ∃ new, s'.outbox c = s.outbox c ++ new := by
  obtain ⟨r, value, -, -, ⟨-, rfl⟩ | ⟨-, rfl⟩ | ⟨remaining, all, -, -, -, rfl⟩⟩ :=
    step_deliver h
  · exact ⟨[], (List.append_nil _).symm⟩
  · exact ⟨[], (List.append_nil _).symm⟩
  · unfold State.confirm
    by_cases hc : c = r.client
    · subst hc
      exact ⟨_, Function.update_self ..⟩
    · exact ⟨[], by simp only [Function.update_of_ne hc, List.append_nil]⟩

/-- A step only adds to the end of an outbox, except where the server takes the oldest write. -/
theorem exec_trafficStep (c : Nat) {s s' : State K Image} {l : Label K Image}
    (h : step s l = some s') :
    Runs.exec unansweredStep (s.outbox c) (trafficStep c s s' l) = some (s'.outbox c) := by
  cases l with
  | tap client currentUser screen sliderValue =>
    rcases step_tap h with ⟨-, rfl⟩ | ⟨uid, -, -, -, rfl⟩
    · rfl
    · rfl
  | deliver i version =>
    obtain ⟨new, hnew⟩ := outbox_deliver c h
    rw [trafficStep, hnew, List.drop_left, exec_writes]
  | accept client =>
    obtain ⟨w, rest, hout, rfl⟩ := step_accept h
    exact exec_served c hout _
  | reject client =>
    obtain ⟨w, rest, hout, rfl⟩ := step_reject h
    exact exec_served c hout _

/-- The writes of a client that the server has not answered are those in its outbox. -/
theorem exec_traffic (c : Nat) {s s' : State K Image} {ls : List (Label K Image)}
    (h : Runs.exec step s ls = some s') :
    Runs.exec unansweredStep (s.outbox c) (traffic c s ls) = some (s'.outbox c) := by
  induction ls generalizing s with
  | nil =>
    obtain rfl : s = s' := Option.some.inj h
    rfl
  | cons l ls ih =>
    obtain ⟨m, hm, hrest⟩ := Runs.exec_cons_eq_some.mp h
    rw [traffic, hm]
    dsimp only
    rw [Runs.exec_append, exec_trafficStep c hm, Option.bind_some, ih hrest]

/-- What a client issues in a step is in its outbox after the step. -/
theorem mem_outbox_of_trafficStep (c : Nat) {s s' : State K Image} {l : Label K Image}
    {w : Write K} (hw : .write w ∈ trafficStep c s s' l) : w ∈ s'.outbox c := by
  cases l with
  | tap client currentUser screen sliderValue => cases hw
  | deliver i version =>
    obtain ⟨w', hw', heq⟩ := List.mem_map.mp hw
    rw [← Traffic.write.inj heq]
    exact List.mem_of_mem_drop hw'
  | accept client =>
    rw [trafficStep] at hw
    split at hw <;> simp at hw
  | reject client =>
    rw [trafficStep] at hw
    split at hw <;> simp at hw

/-! ## Section 2: What can be written -/

/-- The texts of a screen can be stored. -/
def ScreenFits (screen : EventDescriptionViewController K Image) : Prop :=
  ∀ text ∈ [screen.eventName, screen.eventDescriptionVar, screen.eventPhotoString,
    screen.eventStartDate], (Field.string text).Fits

/-- Both lists of an inventory can be stored. -/
def InventoryFits (node : Option Value) : Prop :=
  ∀ key ∈ ["AllTickets", "RemainingTickets"], (Field.strings (codes (field node key))).Fits

def DatabaseFits (db : Database Name) : Prop := ∀ id : Name, InventoryFits db.eventsTickets[id]?

/-- A tap is on a screen whose texts can be stored. -/
def LabelFits : Label K Image → Prop
  | .tap _ _ screen _ => ScreenFits screen
  | _ => True

/-- A write that can be made, and that leaves an inventory that can be written again. -/
def WriteFits (w : Write Name) : Prop :=
  w.Storable ∧ ∀ key object, w = .eventsTickets key object → InventoryFits (nodeFrom object)

/-- Everything the system holds or has in flight can be written. -/
structure Fitting (s : State Name Image) : Prop where
  inventory : DatabaseFits s.db
  screens : ∀ r ∈ s.reads, ScreenFits r.request.screen
  snapshots : ∀ r ∈ s.reads, ∀ node ∈ r.held, InventoryFits node
  writes : ∀ client, ∀ w ∈ s.outbox client, WriteFits w

theorem fits_sublist {xs ys : List String} (hsub : ys.Sublist xs) (h : (Field.strings xs).Fits) :
    (Field.strings ys).Fits :=
  ⟨fun s hs => h.valid s (hsub.subset hs), hsub.length_le.trans h.few⟩

theorem fitting_initial {db : Database Name} (h : DatabaseFits db) :
    Fitting (State.initial db : State Name Image) where
  inventory := h
  screens r hr := by cases hr
  snapshots r hr := by cases hr
  writes client w hw := by cases hw

theorem databaseFits_empty : DatabaseFits .empty := by
  intro id key _
  rw [Database.empty, Std.ExtTreeMap.getElem?_empty]
  exact ⟨by simp [Field.texts], Nat.zero_le _⟩

theorem databaseFits_apply {db : Database Name} {w : Write Name} (hw : WriteFits w)
    (h : DatabaseFits db) : DatabaseFits (db.apply w) := by
  intro id
  cases w with
  | eventsTickets key object =>
    rw [apply_tickets_inventory, ChildMap.getElem?_put]
    split
    · exact hw.2 key object rfl
    · exact h id
  | profileEvents uid key object => exact h id
  | profile uid object => exact h id

theorem writeFits_inventory (key : Name) {all remaining : List String}
    (hall : (Field.strings all).Fits) (hremaining : (Field.strings remaining).Fits) :
    WriteFits (.eventsTickets key (inventoryObject all remaining)) := by
  refine ⟨storable_of_fieldNames ?_ ?_ ?_, ?_⟩
  · simp [inventoryObject]
  · simp [inventoryObject, fieldNames]
  · simp [inventoryObject, hall, hremaining]
  · intro key object heq
    obtain ⟨rfl, rfl⟩ := Write.eventsTickets.inj heq
    simp [InventoryFits, field_inventory_all, field_inventory_remaining, hall, hremaining]

/-- The two writes of a purchase can be made. -/
theorem writeFits_of_purchase {r : BuyRequest Name Image} {node : Option Value}
    {remaining all : List String} (hscreen : ScreenFits r.screen) (hnode : InventoryFits node)
    (hrem : castStrings (field node "RemainingTickets") = some remaining)
    (hall : castStrings (field node "AllTickets") = some all) :
    WriteFits (.eventsTickets r.key
        (inventoryObject all (remaining.drop r.numberTickets.toNat))) ∧
    WriteFits (.profileEvents r.uid r.key
        (userObject r.screen (remaining.take r.numberTickets.toNat))) := by
  have hallFits : (Field.strings all).Fits := by
    rw [← codes_of_castStrings hall]
    exact hnode _ (by simp)
  have hremFits : (Field.strings remaining).Fits := by
    rw [← codes_of_castStrings hrem]
    exact hnode _ (by simp)
  have hleft := fits_sublist (List.drop_sublist r.numberTickets.toNat _) hremFits
  have hbought := fits_sublist (List.take_sublist r.numberTickets.toNat _) hremFits
  refine ⟨writeFits_inventory _ hallFits hleft, storable_of_fieldNames ?_ ?_ ?_, ?_⟩
  · simp [userObject]
  · simp [userObject, fieldNames]
  · simp only [ScreenFits, List.mem_cons, List.not_mem_nil, or_false, forall_eq_or_imp,
      forall_eq] at hscreen
    simp [userObject, hscreen, hbought]
  · rintro key object ⟨⟩

/-- The server's move keeps what can be written, whether it applies the write or not. -/
theorem fitting_serve {s : State Name Image} (hi : Fitting s) {client : Nat}
    {db : Database Name} {w : Write Name} {rest : List (Write Name)}
    (hout : s.outbox client = w :: rest) (hdb : DatabaseFits db) :
    Fitting (s.serve client db rest) where
  inventory := hdb
  screens r hr := by
    obtain ⟨q, hq, rfl⟩ := mem_reads_serve.mp hr
    exact hi.screens q hq
  snapshots r hr node hnode := by
    obtain ⟨q, hq, rfl⟩ := mem_reads_serve.mp hr
    rcases List.mem_append.mp hnode with hold | hnew
    · exact hi.snapshots q hq node hold
    · rw [List.mem_singleton.mp hnew]
      exact hdb q.request.key
  writes c v hv := hi.writes c v (mem_outbox_of_serve hout hv)

/-- One step keeps what can be written. -/
theorem fitting_step {s s' : State Name Image} {l : Label Name Image} (hl : LabelFits l)
    (hi : Fitting s) (h : step s l = some s') : Fitting s' := by
  cases l with
  | tap client currentUser screen sliderValue =>
    rcases step_tap h with ⟨-, rfl⟩ | ⟨uid, -, -, -, rfl⟩
    · exact hi
    · refine ⟨hi.inventory, ?_, ?_, hi.writes⟩
      · intro r hr
        rcases mem_reads_issue.mp hr with hold | rfl
        · exact hi.screens r hold
        · exact hl
      · intro r hr node hnode
        rcases mem_reads_issue.mp hr with hold | rfl
        · exact hi.snapshots r hold node hnode
        · rw [List.mem_singleton.mp hnode]
          exact hi.inventory _
  | deliver i version =>
    obtain ⟨r, node, hr, hnode, hcase⟩ := step_deliver h
    have hmem : r ∈ s.reads := List.mem_of_getElem? hr
    rcases hcase with ⟨-, rfl⟩ | ⟨-, rfl⟩ | ⟨remaining, all, hrem, hall, -, rfl⟩
    · exact ⟨hi.inventory, fun q hq => hi.screens q (mem_reads_of_crash hq),
        fun q hq => hi.snapshots q (mem_reads_of_crash hq), hi.writes⟩
    · exact ⟨hi.inventory, fun q hq => hi.screens q (mem_reads_of_answer hq),
        fun q hq => hi.snapshots q (mem_reads_of_answer hq), hi.writes⟩
    · have hheld : InventoryFits node := hi.snapshots r hmem node (List.mem_of_getElem? hnode)
      have hpurchase := writeFits_of_purchase (hi.screens r hmem) hheld hrem hall
      refine ⟨hi.inventory, fun q hq => hi.screens q (mem_reads_of_confirm hq),
        fun q hq => hi.snapshots q (mem_reads_of_confirm hq), ?_⟩
      intro c w hw
      rcases mem_outbox_confirm hw with hold | rfl | rfl
      · exact hi.writes c w hold
      · exact hpurchase.1
      · exact hpurchase.2
  | accept client =>
    obtain ⟨w, rest, hout, rfl⟩ := step_accept h
    have hw : WriteFits w := hi.writes client w (by simp [hout])
    exact fitting_serve hi hout (databaseFits_apply hw hi.inventory)
  | reject client =>
    obtain ⟨w, rest, hout, rfl⟩ := step_reject h
    exact fitting_serve hi hout hi.inventory

/-- Every write of a run can be made. -/
theorem storable_traffic (c : Nat) {s : State Name Image} {ls : List (Label Name Image)}
    (hls : ∀ l ∈ ls, LabelFits l) (hi : Fitting s) {w : Write Name}
    (hw : .write w ∈ traffic c s ls) : w.Storable := by
  induction ls generalizing s with
  | nil => cases hw
  | cons l ls ih =>
    rw [traffic] at hw
    cases hm : step s l with
    | none =>
      rw [hm] at hw
      cases hw
    | some m =>
      rw [hm] at hw
      have hnext : Fitting m := fitting_step (hls l (by simp)) hi hm
      rcases List.mem_append.mp hw with hw | hw
      · exact (hnext.writes c w (mem_outbox_of_trafficStep c hw)).1
      · exact ih (fun k hk => hls k (by simp [hk])) hnext hw

/-! ## Section 3: What is shown -/

/-- The server's database stays one that a tree holds. -/
theorem exists_represents {db : Database Name} {ls : List (Label Name Image)}
    {s : State Name Image} (hdb : DatabaseFits db)
    (hls : ∀ l ∈ ls, LabelFits l) (hrun : Runs.exec step (State.initial db) ls = some s)
    (h : ∃ node, Represents node db) : ∃ node, Represents node s.db := by
  have hinv := Runs.exec_preserves_of_labels LabelFits
    (fun s : State Name Image => (∃ node, Represents node s.db) ∧ Fitting s) ?_ hls
    ⟨h, fitting_initial hdb⟩ hrun
  · exact hinv.1
  · intro s l s' hl hinv hstep
    refine ⟨?_, fitting_step hl hinv.2 hstep⟩
    obtain ⟨⟨node, hnode⟩, hfits⟩ := hinv
    cases l with
    | tap client currentUser screen sliderValue =>
      rcases step_tap hstep with ⟨-, rfl⟩ | ⟨uid, -, -, -, rfl⟩
      · exact ⟨node, hnode⟩
      · exact ⟨node, hnode⟩
    | deliver i version =>
      have hdb : s'.db = s.db := by
        obtain ⟨r, value, -, -, ⟨-, rfl⟩ | ⟨-, rfl⟩ | ⟨remaining, all, -, -, -, rfl⟩⟩ :=
          step_deliver hstep <;> rfl
      exact ⟨node, by rwa [hdb]⟩
    | accept client =>
      obtain ⟨w, rest, hw, rfl⟩ := step_accept hstep
      exact ⟨_, hnode.apply (hfits.writes client w (by simp [hw])).1⟩
    | reject client =>
      obtain ⟨w, rest, hw, rfl⟩ := step_reject hstep
      exact ⟨node, hnode⟩

/-- **What a phone shows.**  Any number of clients buy, in any interleaving.  Then the SDK of
    client `c` has failed nowhere, and what it shows of the server's database is that database
    with the outstanding purchases of `c` made. -/
theorem shown_to_client (c : Nat) {db : Database Name} {ls : List (Label Name Image)}
    {s : State Name Image} (hdb : DatabaseFits db)
    (hls : ∀ l ∈ ls, LabelFits l) (hrun : Runs.exec step (State.initial db) ls = some s)
    {node : FNode Name Leaf} (h : Represents node s.db) :
    ∃ repo, Runs.exec clientStep .init (traffic c (State.initial db : State Name Image) ls)
        = some repo
      ∧ Represents
        (FCompoundWrite.applyToNode keyComparator repo.pendingWriteTree.visibleWrites node)
        ((s.outbox c).foldl Database.apply s.db) := by
  have hstorable : ∀ w, .write w ∈ traffic c (State.initial db : State Name Image) ls →
      w.Storable := fun w hw => storable_traffic c hls (fitting_initial hdb) hw
  have hrel := shown_represents _ hstorable h
  have hwaiting : Runs.exec unansweredStep [] (traffic c (State.initial db : State Name Image) ls)
      = some (s.outbox c) := exec_traffic c hrun
  rw [hwaiting] at hrel
  generalize Runs.exec clientStep .init
    (traffic c (State.initial db : State Name Image) ls) = next at hrel ⊢
  cases hrel with
  | some hshown => exact ⟨_, rfl, hshown⟩

/-- The inventory of a purchase is taken, its record is on its way. -/
def halfTaken : List (Label Name Unit) :=
  [.tap 0 (some (.ofString "ana")) (concertScreen (.ofString "e1")) 2, .deliver 0 0, .accept 0]

/-- The database of the run. -/
def concertOnSale : Database Name := onSale (.ofString "e1") ["A1", "A2", "A3"]

theorem shown_to_client_halfTaken :
    ∃ (s : State Name Unit) (node : FNode Name Leaf) (repo : FRepo Name Leaf),
      Runs.exec step (State.initial concertOnSale) halfTaken = some s
      ∧ ticketsHeld s.db (.ofString "ana") (.ofString "e1") = []
      ∧ ticketsHeld ((s.outbox 0).foldl Database.apply s.db) (.ofString "ana") (.ofString "e1")
        = ["A1", "A2"]
      ∧ Runs.exec clientStep .init (traffic 0 (State.initial concertOnSale) halfTaken) = some repo
      ∧ Represents
        (FCompoundWrite.applyToNode keyComparator repo.pendingWriteTree.visibleWrites node)
        ((s.outbox 0).foldl Database.apply s.db) := by
  have hrun : (Runs.exec step (State.initial concertOnSale) halfTaken).map
      (fun s => (ticketsHeld s.db (.ofString "ana") (.ofString "e1"),
        ticketsHeld ((s.outbox 0).foldl Database.apply s.db) (.ofString "ana") (.ofString "e1")))
      = some ([], ["A1", "A2"]) := by decide
  obtain ⟨s, hs, hheld⟩ := Option.map_eq_some_iff.mp hrun
  obtain ⟨hbefore, hafter⟩ := Prod.mk.inj hheld
  have hfits : DatabaseFits concertOnSale :=
    databaseFits_apply (writeFits_inventory _ (by decide) (by decide)) databaseFits_empty
  have hlabels : ∀ l ∈ halfTaken, LabelFits l := by
    simp only [halfTaken, List.mem_cons, List.not_mem_nil, or_false]
    rintro l (rfl | rfl | rfl)
    · change ∀ text ∈ _, _
      decide
    · trivial
    · trivial
  have hsale : Represents _ concertOnSale := represents_empty.apply_tickets (.ofString "e1") _
  obtain ⟨node, hnode⟩ := exists_represents hfits hlabels hs ⟨_, hsale⟩
  obtain ⟨repo, hrepo, hshown⟩ := shown_to_client 0 hfits hlabels hs hnode
  exact ⟨s, node, repo, hs, hbefore, hafter, hrepo, hshown⟩

end MeetupApp.Purchase
