import Mathlib.Data.String.Basic
import MeetupApp.Firebase.Database
import MeetupApp.Firebase.Repo
import MeetupApp.Firebase.StoredRecords

/-! # What the app sees of its own writes

    The database of the app as a tree of nodes, and the writes of the app as the
    client issues them: the two updates of a purchase are merges, the profile of a
    sign-up is an overwrite.  The nodes are those that the library makes of the
    app's dictionaries, the event ids and uids are names, and the nodes and the
    compound writes are in the order of the library's comparators.

    The result connects the tree to `Database.apply`.  Whatever the app writes and
    however many of the writes the server has answered, the client shows the
    database with all of them applied: a write is seen as soon as it is issued,
    and its answer changes nothing of what is seen. -/

namespace MeetupApp.Firebase

open SortedEntries FImmutableTree FCompoundWrite

/-! ## Section 1: Paths of the app -/

namespace Names

/-! The names on the paths that the app writes to. -/

def eventsTickets : Name := .ofString "eventsTickets"
def users : Name := .ofString "users"
def profile : Name := .ofString "profile"
def events : Name := .ofString "events"

theorem tickets_ne_users : eventsTickets ≠ users := by decide
theorem events_ne_users : events ≠ users := by decide
theorem events_ne_tickets : events ≠ eventsTickets := by decide

/-- `eventsTickets/<id>` -/
def ticketsPath (id : Name) : FPath Name := [eventsTickets, id]

/-- `users/profile/<uid>` -/
def profilePath (uid : Name) : FPath Name := [users, profile, uid]

/-- `users/profile/<uid>/events/<id>` -/
def recordPath (uid id : Name) : FPath Name := [users, profile, uid, events, id]

end Names

/-- `nodeFrom:` of a dictionary of the app. -/
def nodeOf (object : Object) : Option (FNode Name Leaf) :=
  FSnapshotUtilities.nodeFrom isValidLeafValue 0 (payloadOf Name.ofString object)

/-- The node of a value of the database. -/
def stored (value : Option Value) : FNode Name Leaf := encode Name.ofString value

/-- `compoundWriteFromDictionary:withValidationFrom:` of a dictionary with one key; the check
    of the paths has nothing to compare. -/
def compoundWriteFromDictionary (key : Name) (object : Object) :
    Option (FCompoundWrite Name Leaf) := do
  let node ← nodeOf object
  addWrite keyComparator stringComparator emptyWrite node [key]

/-- The call by which the app issues a write: `updateChildValues` and `setValue`.  An object
    that is not accepted is an exception. -/
def Write.call : Write Name → Option (FRepo.Label Name Leaf)
  | .eventsTickets key object => do
    some (.update [Names.eventsTickets] (← compoundWriteFromDictionary key object))
  | .profileEvents uid key object => do
    some (.update [Names.users, Names.profile, uid, Names.events]
      (← compoundWriteFromDictionary key object))
  | .profile uid object => do some (.set (Names.profilePath uid) (← nodeOf object))

/-- The objects that the app writes: its own field names, and texts that fit. -/
def Write.Storable : Write Name → Prop
  | .eventsTickets _ object | .profileEvents _ _ object => StorableObject Name.ofString object
  | .profile _ object =>
    StorableObject Name.ofString object ∧ ∀ field ∈ object, field.1 ≠ "events"

/-- The path and the node of a write. -/
def Write.onTree : Write Name → FPath Name × FNode Name Leaf
  | .eventsTickets key object => (Names.ticketsPath key, stored (nodeFrom object))
  | .profileEvents uid key object => (Names.recordPath uid key, stored (nodeFrom object))
  | .profile uid object => (Names.profilePath uid, stored (nodeFrom object))

/-- What the call hands to the repo. -/
def Write.label : Write Name → FRepo.Label Name Leaf
  | .eventsTickets key object =>
    .update [Names.eventsTickets] (.mk none [(key, ofValue (stored (nodeFrom object)))])
  | .profileEvents uid key object =>
    .update [Names.users, Names.profile, uid, Names.events]
      (.mk none [(key, ofValue (stored (nodeFrom object)))])
  | .profile uid object => .set (Names.profilePath uid) (stored (nodeFrom object))

section traffic
variable {K : Type}

/-- What passes between the app and the server. -/
inductive Traffic (K : Type) where
  | write (w : Write K)
  /-- The server answers the oldest write, whether it accepts it or not. -/
  | answered

/-- The writes among what passes. -/
def issued (labels : List (Traffic K)) : List (Write K) :=
  labels.filterMap (fun l => match l with | .write w => some w | .answered => none)

theorem mem_issued {labels : List (Traffic K)} {w : Write K} :
    w ∈ issued labels ↔ .write w ∈ labels := by
  rw [issued, List.mem_filterMap]
  constructor
  · intro h
    obtain ⟨l, hl, heq⟩ := h
    cases l with
    | write w' =>
      obtain rfl := Option.some.inj heq
      exact hl
    | answered => cases heq
  · exact fun h => ⟨_, h, rfl⟩

/-- One step of the writes that are not answered yet. -/
def unansweredStep (ws : List (Write K)) : Traffic K → Option (List (Write K))
  | .write w => some (ws ++ [w])
  | .answered =>
    match ws with
    | [] => none
    | _ :: rest => some rest

/-- Writes that are issued wait behind those that wait already. -/
theorem exec_writes (ws new : List (Write K)) :
    Runs.exec unansweredStep ws (new.map .write) = some (ws ++ new) := by
  induction new generalizing ws with
  | nil => simp
  | cons w new ih =>
    rw [List.map_cons, Runs.exec_cons]
    change Runs.exec unansweredStep (ws ++ [w]) (new.map .write) = _
    rw [ih, List.append_assoc, List.singleton_append]

/-- The writes that are not answered yet are the last ones issued. -/
theorem issued_eq_append {labels : List (Traffic K)} {ws : List (Write K)}
    (hrun : Runs.exec unansweredStep [] labels = some ws) :
    ∃ done, issued labels = done ++ ws := by
  refine Runs.exec_preserves_trace (fun tr ws => ∃ done, issued tr = done ++ ws) ?_
    ⟨[], rfl⟩ hrun
  intro tr ws l ws' hinv hstep
  obtain ⟨done, hdone⟩ := hinv
  cases l with
  | write w =>
    obtain rfl := Option.some.inj hstep
    exact ⟨done, by simp [issued] at hdone ⊢; simp [hdone]⟩
  | answered =>
    cases ws with
    | nil => cases hstep
    | cons first rest =>
      obtain rfl := Option.some.inj hstep
      exact ⟨done ++ [first], by simp [issued] at hdone ⊢; simp [hdone]⟩

end traffic

/-- One step of the client. -/
def clientStep (repo : FRepo Name Leaf) : Traffic Name → Option (FRepo Name Leaf)
  | .write w => do FRepo.step keyComparator stringComparator repo (← w.call)
  | .answered => FRepo.step keyComparator stringComparator repo .answered

/-- The tree holds the database.  Above the paths of the app it has no leaves. -/
structure Represents (node : FNode Name Leaf) (db : Database Name) : Prop where
  pruned : node.Pruned keyComparator
  events : ∀ id, node.getChild keyComparator [Names.events, id] = stored db.events[id]?
  tickets : ∀ id,
    node.getChild keyComparator (Names.ticketsPath id) = stored db.eventsTickets[id]?
  records : ∀ uid id,
    node.getChild keyComparator (Names.recordPath uid id) = stored (db.record uid id)
  fields : ∀ uid k, k ≠ Names.events →
    node.getChild keyComparator (Names.profilePath uid ++ [k])
      = (stored db.profileFields[uid]?).getImmediateChild keyComparator k
  openTickets : ∀ id, OpenAt keyComparator node (Names.ticketsPath id)
  openRecords : ∀ uid id, OpenAt keyComparator node (Names.recordPath uid id)

theorem pruned_stored (value : Option Value) : (stored value).Pruned keyComparator :=
  pruned_encode Name.ofString value

/-- What the library makes of an object is what is stored of it. -/
theorem nodeOf_eq {object : Object} (h : StorableObject Name.ofString object) :
    nodeOf object = some (stored (nodeFrom object)) := by
  obtain ⟨entries, hnode, hstored, -⟩ := exists_nodeFrom_object asciiFoundation h
  rw [nodeOf, hnode, stored, hstored]

/-- The node of an object is not a leaf. -/
theorem value?_stored {object : Object} (h : StorableObject Name.ofString object) :
    (stored (nodeFrom object)).value? = none := by
  obtain ⟨entries, -, hstored, -⟩ := exists_nodeFrom_object asciiFoundation h
  rw [stored, hstored]
  rfl

/-- It has no child under a name that is none of the object's. -/
theorem getImmediateChild_stored {object : Object} (h : StorableObject Name.ofString object)
    {k : Name} (hk : ∀ field ∈ object, Name.ofString field.1 ≠ k) :
    (stored (nodeFrom object)).getImmediateChild keyComparator k = .empty := by
  obtain ⟨entries, -, hstored, -, hkeys⟩ := exists_nodeFrom_object asciiFoundation h
  rw [stored, hstored, FNode.getImmediateChild]
  cases hlookup : lookup keyComparator k entries with
  | none => rfl
  | some child =>
    obtain ⟨e, he, heq, -⟩ := mem_of_lookup hlookup
    obtain ⟨c, hc, hname⟩ := List.mem_map.mp (hkeys.mem_iff.mp (List.mem_map_of_mem he))
    obtain ⟨field, hfield, hfieldNode⟩ := List.mem_filterMap.mp hc
    obtain ⟨v, -, rfl⟩ := Option.map_eq_some_iff.mp hfieldNode
    exact absurd (hname.trans (Std.LawfulEqCmp.eq_of_compare heq).symm) (hk field hfield)

/-- The keys of the dictionaries that the app writes. -/
def fieldNames : List String :=
  ["email", "username", "AllTickets", "RemainingTickets", "Name", "Description", "Image", "Start",
    "Tickets"]

/-- None of them is taken for an integer. -/
theorem plainName_fieldNames {s : String} (hs : s ∈ fieldNames) : PlainName Name.ofString s := by
  simp only [fieldNames, List.mem_cons, List.not_mem_nil, or_false] at hs
  rcases hs with rfl | rfl | rfl | rfl | rfl | rfl | rfl | rfl | rfl
  all_goals exact plainName_ofString rfl (by decide) (by decide)

/-- Dictionaries of the app whose texts fit. -/
theorem storable_of_fieldNames {object : Object} (hdistinct : (object.map (·.1)).Nodup)
    (hnames : ∀ field ∈ object, field.1 ∈ fieldNames) (hfits : ∀ field ∈ object, field.2.Fits) :
    StorableObject Name.ofString object :=
  ⟨hdistinct, fun field hfield => plainName_fieldNames (hnames field hfield), hfits⟩

/-- A write whose object is accepted is handed to the repo. -/
theorem Write.call_eq {w : Write Name} (h : w.Storable) : w.call = some w.label := by
  cases w with
  | eventsTickets key object =>
    rw [Write.call, compoundWriteFromDictionary, nodeOf_eq h]
    rfl
  | profileEvents uid key object =>
    rw [Write.call, compoundWriteFromDictionary, nodeOf_eq h]
    rfl
  | profile uid object =>
    rw [Write.call, nodeOf_eq h.1]
    rfl

/-- A call puts its write at the end of the queue. -/
theorem queueStep_label (w : Write Name) (queue : List (FRepo.Writes Name Leaf)) :
    FRepo.queueStep queue w.label = some (queue ++ [[w.onTree]]) := by
  cases w <;> rfl

/-! ## Section 2: One write -/

section write
variable {node newChild : FNode Name Leaf} {db : Database Name}

theorem leafAt_cons (k : Name) (path : FPath Name) :
    node.leafAt keyComparator (k :: path)
      = (node.getImmediateChild keyComparator k).leafAt keyComparator path := by
  rw [FNode.leafAt, FNode.getChild_cons, FNode.leafAt]

/-- Below the path of a write is what was written. -/
theorem getChild_updateChild_below (h : node.Pruned keyComparator) (path rest : FPath Name) :
    (node.updateChild keyComparator path newChild).getChild keyComparator (path ++ rest)
      = newChild.getChild keyComparator rest := by
  rw [FNode.getChild_append, FNode.getChild_updateChild_self h]

/-- The inventory of an event is replaced. -/
theorem Represents.apply_tickets (h : Represents node db)
    (key : Name) (object : Object) :
    Represents
      (node.updateChild keyComparator (Names.ticketsPath key) (stored (nodeFrom object)))
      (db.apply (.eventsTickets key object)) := by
  have hrecords : ∀ uid id, FPath.Apart (Names.ticketsPath key) (Names.recordPath uid id) := by
    intro uid id
    simp [FPath.Apart, Names.ticketsPath, Names.recordPath, List.cons_prefix_cons,
      Names.tickets_ne_users, Names.tickets_ne_users.symm]
  have hsame : ∀ id, id ≠ key → FPath.Apart (Names.ticketsPath key) (Names.ticketsPath id) := by
    intro id hne
    simp [FPath.Apart, Names.ticketsPath, List.cons_prefix_cons, hne, hne.symm]
  refine ⟨h.pruned.updateChild (pruned_stored _) _, ?_, ?_, ?_, ?_, ?_, ?_⟩
  · intro id
    rw [FNode.getChild_updateChild_of_apart h.pruned, h.events]
    · rfl
    · simp [Names.ticketsPath, List.cons_prefix_cons, Names.events_ne_tickets.symm]
    · simp [Names.ticketsPath, List.cons_prefix_cons, Names.events_ne_tickets]
  · intro id
    rw [apply_tickets_inventory, ChildMap.getElem?_put]
    split
    · next heq =>
      subst heq
      exact FNode.getChild_updateChild_self h.pruned _
    · next hne =>
      have hap := hsame id (Ne.symm hne)
      rw [FNode.getChild_updateChild_of_apart h.pruned hap.1 hap.2, h.tickets]
  · intro uid id
    have hap := hrecords uid id
    rw [FNode.getChild_updateChild_of_apart h.pruned hap.1 hap.2, h.records]
    rfl
  · intro uid k hk
    rw [FNode.getChild_updateChild_of_apart h.pruned, h.fields uid k hk]
    · rfl
    · simp [Names.ticketsPath, Names.profilePath, List.cons_prefix_cons, Names.tickets_ne_users]
    · simp [Names.ticketsPath, Names.profilePath, List.cons_prefix_cons,
        Names.tickets_ne_users.symm]
  · intro id
    by_cases heq : id = key
    · subst heq
      refine (h.openTickets id).updateChild_of h.pruned (fun above habove hne hbelow => ?_)
      exact absurd (habove.eq_of_length_le hbelow.length_le) hne
    · exact (h.openTickets id).updateChild h.pruned (hsame id heq)
  · intro uid id
    exact (h.openRecords uid id).updateChild h.pruned (hrecords uid id)

/-- One record of a profile is replaced. -/
theorem Represents.apply_record (h : Represents node db)
    (uid key : Name) (object : Object) :
    Represents
      (node.updateChild keyComparator (Names.recordPath uid key) (stored (nodeFrom object)))
      (db.apply (.profileEvents uid key object)) := by
  have htickets : ∀ id, FPath.Apart (Names.recordPath uid key) (Names.ticketsPath id) := by
    intro id
    simp [FPath.Apart, Names.ticketsPath, Names.recordPath, List.cons_prefix_cons,
      Names.tickets_ne_users, Names.tickets_ne_users.symm]
  have hother : ∀ u id, ¬ (uid = u ∧ key = id) →
      FPath.Apart (Names.recordPath uid key) (Names.recordPath u id) := by
    intro u id hne
    simp only [FPath.Apart, Names.recordPath, List.cons_prefix_cons, List.nil_prefix, true_and,
      and_true]
    exact ⟨fun heq => hne heq, fun heq => hne ⟨heq.1.symm, heq.2.symm⟩⟩
  refine ⟨h.pruned.updateChild (pruned_stored _) _, ?_, ?_, ?_, ?_, ?_, ?_⟩
  · intro id
    rw [FNode.getChild_updateChild_of_apart h.pruned, h.events]
    · rfl
    · simp [Names.recordPath, List.cons_prefix_cons, Names.events_ne_users.symm]
    · simp [Names.recordPath, List.cons_prefix_cons, Names.events_ne_users]
  · intro id
    have hap := htickets id
    rw [FNode.getChild_updateChild_of_apart h.pruned hap.1 hap.2, h.tickets]
    rfl
  · intro u id
    rw [record_apply_record]
    split
    · next heq =>
      obtain ⟨rfl, rfl⟩ := heq
      exact FNode.getChild_updateChild_self h.pruned _
    · next hne =>
      have hap := hother u id hne
      rw [FNode.getChild_updateChild_of_apart h.pruned hap.1 hap.2, h.records]
  · intro u k hk
    rw [FNode.getChild_updateChild_of_apart h.pruned, h.fields u k hk]
    · rfl
    · simp [Names.recordPath, Names.profilePath, List.cons_prefix_cons]
    · simp [Names.recordPath, Names.profilePath, List.cons_prefix_cons, hk]
  · intro id
    exact (h.openTickets id).updateChild h.pruned (htickets id)
  · intro u id
    by_cases heq : uid = u ∧ key = id
    · obtain ⟨rfl, rfl⟩ := heq
      refine (h.openRecords uid key).updateChild_of h.pruned (fun above habove hne hbelow => ?_)
      exact absurd (habove.eq_of_length_le hbelow.length_le) hne
    · exact (h.openRecords u id).updateChild h.pruned (hother u id heq)

/-- A profile is replaced: its other children are the new ones, and its records are gone. -/
theorem Represents.apply_profile (h : Represents node db)
    (uid : Name) {object : Object} (hleaf : (stored (nodeFrom object)).value? = none)
    (hevents : (stored (nodeFrom object)).getImmediateChild keyComparator Names.events = .empty) :
    Represents
      (node.updateChild keyComparator (Names.profilePath uid) (stored (nodeFrom object)))
      (db.apply (.profile uid object)) := by
  have htickets : ∀ id, FPath.Apart (Names.profilePath uid) (Names.ticketsPath id) := by
    intro id
    simp [FPath.Apart, Names.ticketsPath, Names.profilePath, List.cons_prefix_cons,
      Names.tickets_ne_users, Names.tickets_ne_users.symm]
  have hother : ∀ u rest, u ≠ uid →
      FPath.Apart (Names.profilePath uid) (Names.profilePath u ++ rest) := by
    intro u rest hne
    simp [FPath.Apart, Names.profilePath, List.cons_prefix_cons, hne, hne.symm]
  have hsplit : ∀ u id, Names.recordPath u id = Names.profilePath u ++ [Names.events, id] :=
    fun _ _ => rfl
  refine ⟨h.pruned.updateChild (pruned_stored _) _, ?_, ?_, ?_, ?_, ?_, ?_⟩
  · intro id
    rw [FNode.getChild_updateChild_of_apart h.pruned, h.events]
    · rfl
    · simp [Names.profilePath, List.cons_prefix_cons, Names.events_ne_users.symm]
    · simp [Names.profilePath, List.cons_prefix_cons, Names.events_ne_users]
  · intro id
    have hap := htickets id
    rw [FNode.getChild_updateChild_of_apart h.pruned hap.1 hap.2, h.tickets]
    rfl
  · intro u id
    rw [record_apply_profile]
    split
    · next heq =>
      subst heq
      rw [hsplit, getChild_updateChild_below h.pruned, FNode.getChild_cons, hevents,
        FNode.getChild_empty]
      rfl
    · next hne =>
      have hap := hother u [Names.events, id] hne
      rw [hsplit, FNode.getChild_updateChild_of_apart h.pruned hap.1 hap.2, ← hsplit, h.records]
  · intro u k hk
    rw [apply_profile_fields, ChildMap.getElem?_put]
    split
    · next heq =>
      subst heq
      rw [getChild_updateChild_below h.pruned, FNode.getChild_cons, FNode.getChild_nil]
    · next hne =>
      have hap := hother u [k] (Ne.symm hne)
      rw [FNode.getChild_updateChild_of_apart h.pruned hap.1 hap.2, h.fields u k hk]
  · intro id
    exact (h.openTickets id).updateChild h.pruned (htickets id)
  · intro u id
    by_cases heq : u = uid
    · subst heq
      refine (h.openRecords u id).updateChild_of h.pruned (fun above habove hne hbelow => ?_)
      -- The new node has no leaf at its root, and nothing at `events`.
      obtain ⟨rest, rfl⟩ := hbelow
      rw [List.drop_left]
      rw [hsplit, List.prefix_append_right_inj] at habove
      cases rest with
      | nil => rwa [FNode.leafAt, FNode.getChild_nil]
      | cons k rest =>
        obtain ⟨rfl, -⟩ := List.cons_prefix_cons.mp habove
        rw [leafAt_cons, hevents, FNode.leafAt_empty]
    · exact (h.openRecords u id).updateChild h.pruned (hother u [Names.events, id] heq)

/-- Every write of the app: the tree with the write is the database with the write. -/
theorem Represents.apply (h : Represents node db)
    {w : Write Name} (hw : w.Storable) :
    Represents
      (node.updateChild keyComparator w.onTree.1 w.onTree.2)
      (db.apply w) := by
  cases w with
  | eventsTickets key object => exact h.apply_tickets key object
  | profileEvents uid key object => exact h.apply_record uid key object
  | profile uid object =>
    obtain ⟨hobject, hevents⟩ := hw
    have hother : ∀ field ∈ object, Name.ofString field.1 ≠ Names.events := by
      intro field hfield heq
      refine hevents field hfield (utf16_injective ?_)
      rw [← (hobject.plain field hfield).text, heq]
      exact Name.text_ofString (by decide)
    exact h.apply_profile uid (value?_stored hobject) (getImmediateChild_stored hobject hother)

/-- Writes one after another. -/
theorem Represents.applyAll (h : Represents node db)
    {ws : List (Write Name)} (hws : ∀ w ∈ ws, w.Storable) :
    Represents (updateChildren keyComparator node (ws.map (·.onTree)))
      (ws.foldl Database.apply db) := by
  induction ws generalizing node db with
  | nil => exact h
  | cons w ws ih =>
    exact ih (h.apply (hws w (by simp))) (fun w' hw' => hws w' (by simp [hw']))

/-- No write of the app is below a leaf. -/
theorem Represents.openAt (h : Represents node db) (w : Write Name) :
    OpenAt keyComparator node w.onTree.1 := by
  cases w with
  | eventsTickets key object => exact h.openTickets key
  | profileEvents uid key object => exact h.openRecords uid key
  | profile uid object =>
    -- A path above the profile is above its records.
    intro above habove hne
    refine h.openRecords uid uid above (habove.trans ?_) ?_
    · exact List.prefix_append [Names.users, Names.profile, uid] [Names.events, uid]
    · rintro rfl
      simpa [Write.onTree, Names.profilePath, Names.recordPath] using habove.length_le

end write

/-! ## Section 3: Writes and answers -/

section client

/-- The calls of the app store plain nodes. -/
theorem Write.plain_label (w : Write Name) :
    FRepo.Plain keyComparator stringComparator w.label := by
  have hupdate : ∀ (path : FPath Name) key object, FRepo.Plain keyComparator stringComparator
      (.update path (.mk none [(key, ofValue (stored (nodeFrom object)))])) := by
    intro path key object
    refine ⟨.node (List.pairwise_singleton _ _) ?_, ?_⟩
    · intro e he
      rw [List.mem_singleton.mp he]
      exact .leaf (pruned_stored _)
    · intro w hw
      obtain ⟨e, he, below, hbelow, rfl⟩ := mem_forEachChild.mp hw
      rw [List.mem_singleton.mp he, forEach_ofValue, List.mem_singleton] at hbelow
      rw [hbelow]
      rfl
  cases w with
  | eventsTickets key object => exact hupdate _ _ _
  | profileEvents uid key object => exact hupdate _ _ _
  | profile uid object => exact pruned_stored _

/-- The client keeps the writes that are not answered yet. -/
theorem client_refines (labels : List (Traffic Name))
    (hlabels : ∀ w, .write w ∈ labels → w.Storable) :
    Option.Rel
      (fun repo ws =>
        FRepo.Refines keyComparator stringComparator repo (ws.map (fun w => [w.onTree])))
      (Runs.exec clientStep .init labels)
      (Runs.exec unansweredStep [] labels) := by
  refine Runs.exec_rel (fun l => ∀ w, l = .write w → w.Storable) _ ?_ ?_ FRepo.refines_init
  · intro repo ws l hl h
    cases l with
    | write w =>
      have hstep := FRepo.refines_step w.plain_label h
      rw [queueStep_label] at hstep
      rw [clientStep, Write.call_eq (hl w rfl), Option.bind_eq_bind, Option.bind_some,
        unansweredStep]
      generalize FRepo.step keyComparator stringComparator repo w.label = next at hstep
      cases hstep with
      | some hnext =>
        refine .some ?_
        rwa [List.map_append, List.map_singleton]
    | answered =>
      have hplain : FRepo.Plain keyComparator stringComparator
          (.answered : FRepo.Label Name Leaf) := trivial
      have hstep := FRepo.refines_step hplain h
      rw [clientStep]
      generalize FRepo.step keyComparator stringComparator repo .answered = next at hstep
      cases ws with
      | nil =>
        cases hstep
        exact .none
      | cons w rest =>
        cases hstep with
        | some hnext => exact .some hnext
  · rintro l hl w rfl
    exact hlabels w hl

/-- **What the app sees of its own writes.**  An answer can come exactly when a write is
    waiting for one, no write ever fails, and the tree that the client shows of the database
    it has from the server is that database with the writes that wait. -/
theorem shown_represents (labels : List (Traffic Name))
    (hlabels : ∀ w, .write w ∈ labels → w.Storable) {node : FNode Name Leaf}
    {db : Database Name} (h : Represents node db) :
    Option.Rel
      (fun repo ws => Represents
        (applyToNode keyComparator repo.pendingWriteTree.visibleWrites node)
        (ws.foldl Database.apply db))
      (Runs.exec clientStep .init labels)
      (Runs.exec unansweredStep [] labels) := by
  have hrel : Option.Rel
      (fun repo ws =>
        FRepo.Refines keyComparator stringComparator repo (ws.map (fun w => [w.onTree])))
      (Runs.exec clientStep .init labels)
      (Runs.exec unansweredStep [] labels) := client_refines labels hlabels
  cases hqueue : Runs.exec unansweredStep [] labels with
  | none =>
    rw [hqueue] at hrel
    generalize Runs.exec clientStep .init labels = repo at hrel ⊢
    cases hrel
    exact .none
  | some ws =>
    rw [hqueue] at hrel
    generalize Runs.exec clientStep .init labels = repo at hrel ⊢
    cases hrel with
    | some hrefines =>
      have hflat : (ws.map (fun w => [w.onTree])).flatten
          = ws.map (·.onTree) := by
        rw [← List.flatMap_def, List.map_eq_flatMap]
      have hopen : ∀ w ∈ ws.map (·.onTree), OpenAt keyComparator node w.1 := by
        intro w hw
        obtain ⟨w, -, rfl⟩ := List.mem_map.mp hw
        exact h.openAt w
      refine .some ?_
      rw [hrefines.applyToNode h.pruned (by rwa [hflat]), hflat]
      refine h.applyAll (fun w hw => hlabels w ?_)
      -- What waits for an answer has been issued.
      obtain ⟨done, hdone⟩ := issued_eq_append hqueue
      refine mem_issued.mp ?_
      rw [hdone]
      exact List.mem_append_right _ hw

/-! ## Section 4: Writes made twice -/

/-- What is read after steps that each set it or leave it alone: the last to set it decides. -/
theorem read_foldl {S T α : Type} {apply : S → T → S} (read : S → α) {sets : T → Option α}
    (hread : ∀ s t, read (apply s t) = (sets t).getD (read s)) (s : S) (ts : List T) :
    read (ts.foldl apply s) = (ts.filterMap sets).getLast?.getD (read s) := by
  induction ts generalizing s with
  | nil => rfl
  | cons t ts ih =>
    rw [List.foldl_cons, ih, hread]
    cases hset : sets t with
    | none => rw [List.filterMap_cons_none hset, Option.getD_none]
    | some x =>
      rw [List.filterMap_cons_some hset, List.getLast?_cons]
      rfl

/-- Such steps made twice in a row are made once. -/
theorem read_replay {S T α : Type} {apply : S → T → S} (read : S → α) {sets : T → Option α}
    (hread : ∀ s t, read (apply s t) = (sets t).getD (read s)) (s : S) (ts : List T) :
    read (ts.foldl apply (ts.foldl apply s)) = read (ts.foldl apply s) := by
  rw [read_foldl read hread, read_foldl read hread]
  cases (ts.filterMap sets).getLast? <;> rfl

/-- What a write stores as the inventory of an event. -/
def Write.inventoryOf (k : Name) : Write Name → Option (Option Value)
  | .eventsTickets key object => if key = k then some (nodeFrom object) else none
  | _ => none

/-- What a write stores as the fields of a profile. -/
def Write.fieldsOf (uid : Name) : Write Name → Option (Option Value)
  | .profile u object => if u = uid then some (nodeFrom object) else none
  | _ => none

/-- What a write stores as a record of a profile. -/
def Write.recordOf (uid id : Name) : Write Name → Option (Option Value)
  | .profileEvents u key object => if u = uid ∧ key = id then some (nodeFrom object) else none
  | .profile u _ => if uid = u then some none else none
  | _ => none

/-- Writes made twice in a row are made once. -/
theorem foldl_apply_replay (db : Database Name) (ws : List (Write Name)) :
    ws.foldl Database.apply (ws.foldl Database.apply db) = ws.foldl Database.apply db := by
  have hevents : ∀ db : Database Name, (ws.foldl Database.apply db).events = db.events := by
    induction ws with
    | nil => exact fun _ => rfl
    | cons w ws ih =>
      intro db
      rw [List.foldl_cons, ih, apply_events]
  have hinventory : ∀ k (db : Database Name) w, (db.apply w).eventsTickets[k]?
      = (w.inventoryOf k).getD db.eventsTickets[k]? := by
    intro k db w
    cases w with
    | eventsTickets key object =>
      rw [apply_tickets_inventory, ChildMap.getElem?_put, Write.inventoryOf]
      split <;> rfl
    | profileEvents uid key object => rfl
    | profile uid object => rfl
  have hfields : ∀ uid (db : Database Name) w, (db.apply w).profileFields[uid]?
      = (w.fieldsOf uid).getD db.profileFields[uid]? := by
    intro uid db w
    cases w with
    | eventsTickets key object => rfl
    | profileEvents uid key object => rfl
    | profile u object =>
      rw [apply_profile_fields, ChildMap.getElem?_put, Write.fieldsOf]
      split <;> rfl
  have hrecord : ∀ uid id (db : Database Name) w,
      (db.apply w).record uid id = (w.recordOf uid id).getD (db.record uid id) := by
    intro uid id db w
    cases w with
    | eventsTickets key object => rfl
    | profileEvents u key object =>
      rw [record_apply_record, Write.recordOf]
      split <;> rfl
    | profile u object =>
      rw [record_apply_profile, Write.recordOf]
      split <;> rfl
  refine Database.ext_getElem? (by rw [hevents]) ?_ ?_ ?_
  · exact fun k => read_replay (fun db => db.eventsTickets[k]?) (hinventory k) db ws
  · exact fun uid => read_replay (fun db => db.profileFields[uid]?) (hfields uid) db ws
  · exact fun k => read_replay (fun db => db.record (ofLex k).1 (ofLex k).2) (hrecord _ _) db ws

/-- **No flicker.**  However many of the writes the server has made and answered, as long as
    it has made those that it has answered, the client shows the database with all of them. -/
theorem shown_of_partly_made (labels : List (Traffic Name))
    (hlabels : ∀ w, .write w ∈ labels → w.Storable) {ws : List (Write Name)}
    (hrun : Runs.exec unansweredStep [] labels = some ws) {made : Nat}
    (hmade : (issued labels).length ≤ made + ws.length) {db : Database Name}
    {node : FNode Name Leaf}
    (h : Represents node (((issued labels).take made).foldl Database.apply db)) :
    ∃ repo, Runs.exec clientStep .init labels = some repo
      ∧ Represents
        (applyToNode keyComparator repo.pendingWriteTree.visibleWrites node)
        ((issued labels).foldl Database.apply db) := by
  have hrel := shown_represents labels hlabels h
  obtain ⟨done, hdone⟩ := issued_eq_append hrun
  rw [hrun] at hrel
  generalize Runs.exec clientStep .init labels = next at hrel ⊢
  cases hrel with
  | @some repo _ hshown =>
    refine ⟨repo, rfl, ?_⟩
    have htake : (issued labels).take made = done ++ ws.take (made - done.length) := by
      rw [hdone, List.take_append, List.take_of_length_le]
      rw [hdone, List.length_append] at hmade
      omega
    have hall : ws.foldl Database.apply (((issued labels).take made).foldl Database.apply db)
        = (issued labels).foldl Database.apply db := by
      -- The writes that were made are done, and then the first of those that wait.
      conv_lhs => rw [← List.take_append_drop (made - done.length) ws]
      rw [htake, List.foldl_append, List.foldl_append, foldl_apply_replay, hdone,
        ← List.foldl_append, List.take_append_drop, ← List.foldl_append]
    rwa [hall] at hshown

end client

/-! ## Section 5: A sign-up and a purchase -/

theorem represents_empty : Represents .empty (.empty : Database Name) := by
  refine ⟨.empty, ?_, ?_, ?_, ?_, ?_, ?_⟩
  · exact fun id => FNode.getChild_empty
  · exact fun id => FNode.getChild_empty
  · exact fun uid id => FNode.getChild_empty
  · exact fun uid k _ => FNode.getChild_empty
  · exact fun id above _ _ => FNode.leafAt_empty above
  · exact fun uid id above _ _ => FNode.leafAt_empty above

/-- A sign-up and a purchase of its user, with one answer so far. -/
def signUpAndPurchase : List (Traffic Name) :=
  [.write (.profile (.ofString "u1")
     [("email", .string "ana@mail.mx"), ("username", .string "Ana")]),
   .write (.eventsTickets (.ofString "e1")
     [("AllTickets", .strings ["A1", "A2"]), ("RemainingTickets", .strings ["A2"])]),
   .answered,
   .write (.profileEvents (.ofString "u1") (.ofString "e1")
     [("Name", .string "Concert"), ("Tickets", .strings ["A1"])])]

theorem storable_signUpAndPurchase (w : Write Name) (hw : .write w ∈ signUpAndPurchase) :
    w.Storable := by
  simp only [signUpAndPurchase, List.mem_cons, Traffic.write.injEq, reduceCtorEq, List.not_mem_nil,
    or_false, false_or] at hw
  rcases hw with rfl | rfl | rfl
  · exact ⟨storable_of_fieldNames (by decide) (by decide) (by decide), by decide⟩
  · exact storable_of_fieldNames (by decide) (by decide) (by decide)
  · exact storable_of_fieldNames (by decide) (by decide) (by decide)

/-- The server has made the first two of the three writes. -/
theorem shown_of_partly_made_two :
    ∃ repo, Runs.exec clientStep .init signUpAndPurchase = some repo
      ∧ Represents
        (applyToNode keyComparator repo.pendingWriteTree.visibleWrites
          (updateChildren keyComparator .empty
            (((issued signUpAndPurchase).take 2).map (·.onTree))))
        ((issued signUpAndPurchase).foldl Database.apply .empty) := by
  have hmade : (issued signUpAndPurchase).length ≤ 2 + 2 := by decide
  refine shown_of_partly_made _ storable_signUpAndPurchase rfl hmade ?_
  refine represents_empty.applyAll (fun w hw => ?_)
  exact storable_signUpAndPurchase w (mem_issued.mp (List.mem_of_mem_take hw))

end MeetupApp.Firebase
