import Mathlib.Data.Prod.Lex
import MeetupApp.Firebase.Value
import MeetupApp.Framework.ChildMap

/-! # The database tree

    The subtrees of the Firebase database that the app reads and writes, and
    the three kinds of writes it issues.  `K` is the type of the keys that
    Firebase assigns (event ids, uids) with the order in which it enumerates
    them. -/

namespace MeetupApp.Firebase

/-! ## Section 1: The tree -/

/-- The database.  Each subtree is kept as the map of its records:
    `events/<id>`, `eventsTickets/<id>`, `users/profile/<uid>/events/<id>`, and
    for each profile the dictionary of its other children. -/
structure Database (K : Type) [LinearOrder K] where
  events : ChildMap K Value
  eventsTickets : ChildMap K Value
  profileFields : ChildMap K Value
  profileEvents : ChildMap (K ×ₗ K) Value

variable {K : Type} [LinearOrder K]

/-- `ChildMap.transCmp` for the keys of the records, again under a name of its own. -/
instance transCmp_pair : Std.TransCmp (compare : K ×ₗ K → K ×ₗ K → Ordering) :=
  ChildMap.transCmp

@[ext] theorem Database.ext_getElem? {db db' : Database K} (hev : db.events = db'.events)
    (htk : ∀ k : K, db.eventsTickets[k]? = db'.eventsTickets[k]?)
    (hpf : ∀ k : K, db.profileFields[k]? = db'.profileFields[k]?)
    (hpe : ∀ k : K ×ₗ K, db.profileEvents[k]? = db'.profileEvents[k]?) : db = db' := by
  obtain ⟨ev, tk, pf, pe⟩ := db
  obtain ⟨ev', tk', pf', pe'⟩ := db'
  obtain rfl : ev = ev' := hev
  obtain rfl : tk = tk' := Std.ExtTreeMap.ext_getElem? htk
  obtain rfl : pf = pf' := Std.ExtTreeMap.ext_getElem? hpf
  obtain rfl : pe = pe' := Std.ExtTreeMap.ext_getElem? hpe
  rfl

/-- A database without a single record. -/
def Database.empty : Database K := ⟨∅, ∅, ∅, ∅⟩

/-- The value of `users/profile/<uid>/events/<id>`. -/
def Database.record (db : Database K) (uid id : K) : Option Value :=
  db.profileEvents[toLex (uid, id)]?

/-- The children of `users/profile/<uid>/events`, in key order. -/
def Database.recordsOf (db : Database K) (uid : K) : List (K × Value) :=
  (db.profileEvents.toList.filter (fun r => (ofLex r.1).1 = uid)).map
    (fun r => ((ofLex r.1).2, r.2))

theorem Database.mem_recordsOf (db : Database K) {uid id : K} {v : Value} :
    (id, v) ∈ db.recordsOf uid ↔ db.record uid id = some v := by
  unfold recordsOf record
  rw [← ChildMap.mem_toList, List.mem_map]
  constructor
  · rintro ⟨⟨k, w⟩, hk, heq⟩
    obtain ⟨hmem, huid⟩ := List.mem_filter.mp hk
    simp only [decide_eq_true_eq] at huid
    simp only [Prod.mk.injEq] at heq
    obtain ⟨rfl, rfl⟩ := heq
    subst huid
    exact hmem
  · intro h
    exact ⟨(toLex (uid, id), v), List.mem_filter.mpr ⟨h, by simp⟩, rfl⟩

/-- The records of one profile come in strictly increasing key order. -/
theorem Database.sorted_recordsOf (db : Database K) (uid : K) :
    (db.recordsOf uid).Pairwise (fun a b => a.1 < b.1) := by
  unfold recordsOf
  rw [List.pairwise_map]
  refine (List.Pairwise.filter _ db.profileEvents.sorted_toList).imp_of_mem ?_
  intro a b ha hb hlt
  have hua := (List.mem_filter.mp ha).2
  have hub := (List.mem_filter.mp hb).2
  simp only [decide_eq_true_eq] at hua hub
  -- Both keys start with `uid`, so the order is decided by the event id.
  rcases Prod.Lex.lt_iff.mp hlt with h | ⟨-, h⟩
  · rw [hua, hub] at h
    exact absurd h (lt_irrefl _)
  · exact h

/-! ## Section 2: Writes -/

/-- A write as the app issues it. -/
inductive Write (K : Type) where
  /-- `child("eventsTickets/").updateChildValues([key: object])` -/
  | eventsTickets (key : K) (object : Object)
  /-- `child("users/profile/\(uid)/events").updateChildValues([key: object])` -/
  | profileEvents (uid key : K) (object : Object)
  /-- `child("users/profile/\(uid)").setValue(object)` -/
  | profile (uid : K) (object : Object)

/-- What the server does with an accepted write.  `updateChildValues` replaces
    the children its keys name and keeps their siblings; `setValue` replaces the
    whole node, the `events` below it included. -/
def Database.apply (db : Database K) : Write K → Database K
  | .eventsTickets key object =>
      { db with eventsTickets := db.eventsTickets.put key (nodeFrom object) }
  | .profileEvents uid key object =>
      { db with profileEvents := db.profileEvents.put (toLex (uid, key)) (nodeFrom object) }
  | .profile uid object =>
      { db with
        profileFields := db.profileFields.put uid (nodeFrom object)
        profileEvents := db.profileEvents.keep (fun k => (ofLex k).1 ≠ uid) }

section apply
variable (db : Database K)

@[simp] theorem apply_events (w : Write K) : (db.apply w).events = db.events := by
  cases w <;> rfl

@[simp] theorem apply_tickets_inventory (key : K) (object : Object) :
    (db.apply (.eventsTickets key object)).eventsTickets
      = db.eventsTickets.put key (nodeFrom object) := rfl

@[simp] theorem apply_tickets_fields (key : K) (object : Object) :
    (db.apply (.eventsTickets key object)).profileFields = db.profileFields := rfl

@[simp] theorem apply_tickets_records (key : K) (object : Object) :
    (db.apply (.eventsTickets key object)).profileEvents = db.profileEvents := rfl

@[simp] theorem apply_record_inventory (uid key : K) (object : Object) :
    (db.apply (.profileEvents uid key object)).eventsTickets = db.eventsTickets := rfl

@[simp] theorem apply_record_fields (uid key : K) (object : Object) :
    (db.apply (.profileEvents uid key object)).profileFields = db.profileFields := rfl

@[simp] theorem apply_record_records (uid key : K) (object : Object) :
    (db.apply (.profileEvents uid key object)).profileEvents
      = db.profileEvents.put (toLex (uid, key)) (nodeFrom object) := rfl

@[simp] theorem apply_profile_inventory (uid : K) (object : Object) :
    (db.apply (.profile uid object)).eventsTickets = db.eventsTickets := rfl

@[simp] theorem apply_profile_fields (uid : K) (object : Object) :
    (db.apply (.profile uid object)).profileFields
      = db.profileFields.put uid (nodeFrom object) := rfl

/-- One record of one profile is replaced, every other record is kept. -/
theorem record_apply_record (uid key u id : K) (object : Object) :
    (db.apply (.profileEvents uid key object)).record u id
      = if uid = u ∧ key = id then nodeFrom object else db.record u id := by
  unfold Database.record
  rw [apply_record_records, ChildMap.getElem?_put]
  simp [Prod.ext_iff]

/-- `setValue` on a profile erases its records and keeps those of other profiles. -/
theorem record_apply_profile (uid u id : K) (object : Object) :
    (db.apply (.profile uid object)).record u id = if u = uid then none else db.record u id := by
  unfold Database.record Database.apply
  rw [ChildMap.getElem?_keep]
  by_cases h : u = uid <;> simp [h]

end apply

end MeetupApp.Firebase
