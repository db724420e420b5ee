import MeetupApp.Purchase.Interleaving

/-! # Integrity of the inventory under every interleaving

    Whatever the order of the steps and whichever writes the server refuses,
    purchases only ever cut codes off the front of a list they read.  So every
    list of remaining codes, at the server, in a snapshot or in a write, is a
    suffix of the stock that was put on sale, every list of tickets is a
    contiguous segment of it, and `AllTickets` never changes. -/

namespace MeetupApp.Purchase

open Firebase FrontSale

variable {K Image : Type} [LinearOrder K]

/-! ## Section 1: The invariant -/

/-- An inventory node of `id`, at the server or in flight, that descends from the
    one in `db₀`. -/
structure Descends (db₀ : Database K) (id : K) (node : Option Value) : Prop where
  all : field node "AllTickets" = field db₀.eventsTickets[id]? "AllTickets"
  remaining : codes (field node "RemainingTickets") <:+ stock db₀ id

/-- A write in flight that carries only codes of the opening stock, in order. -/
def WriteDescends (db₀ : Database K) : Write K → Prop
  | .eventsTickets key object => Descends db₀ key (nodeFrom object)
  | .profileEvents _ key object => codes (field (nodeFrom object) "Tickets") <:+: stock db₀ key
  | .profile _ _ => True

/-- **Integrity.**  Everything the system holds or has in flight descends from the
    inventory of `db₀`. -/
structure Integrity (db₀ : Database K) (s : State K Image) : Prop where
  inventory : ∀ id, Descends db₀ id s.db.eventsTickets[id]?
  tickets : ∀ uid id, ticketsHeld s.db uid id <:+: stock db₀ id
  snapshots : ∀ r ∈ s.reads, ∀ node ∈ r.held, Descends db₀ r.request.key node
  writes : ∀ client, ∀ w ∈ s.outbox client, WriteDescends db₀ w

/-- No profile holds a ticket. -/
def NothingSold (db : Database K) : Prop :=
  ∀ uid id, ticketsHeld db uid id = []

theorem descends_refl (db₀ : Database K) (id : K) : Descends db₀ id db₀.eventsTickets[id]? :=
  ⟨rfl, List.suffix_refl _⟩

theorem integrity_initial {db₀ : Database K} (h : NothingSold db₀) :
    Integrity db₀ (State.initial db₀ : State K Image) where
  inventory := descends_refl db₀
  tickets uid id := by
    show ticketsHeld db₀ uid id <:+: stock db₀ id
    rw [h uid id]
    exact List.nil_infix
  snapshots r hr := by cases hr
  writes client w hw := by cases hw

/-! ## Section 2: Preservation -/

/-- The server keeps integrity when it applies a write that descends. -/
theorem descends_apply {db₀ db : Database K} {w : Write K} (hw : WriteDescends db₀ w)
    (h : ∀ id, Descends db₀ id db.eventsTickets[id]?) (id : K) :
    Descends db₀ id (db.apply w).eventsTickets[id]? := by
  cases w with
  | eventsTickets key object =>
    rw [apply_tickets_inventory, ChildMap.getElem?_put]
    by_cases hk : key = id
    · subst hk
      rw [if_pos rfl]
      exact hw
    · rw [if_neg hk]
      exact h id
  | profileEvents uid key object => exact h id
  | profile uid object => exact h id

theorem tickets_apply {db₀ db : Database K} {w : Write K} (hw : WriteDescends db₀ w)
    (h : ∀ uid id, ticketsHeld db uid id <:+: stock db₀ id) (uid id : K) :
    ticketsHeld (db.apply w) uid id <:+: stock db₀ id := by
  cases w with
  | eventsTickets key object => exact h uid id
  | profileEvents u key object =>
    unfold ticketsHeld
    rw [record_apply_record]
    -- The record written is the one asked for, or the write does not concern it.
    by_cases hk : u = uid ∧ key = id
    · rcases hk with ⟨rfl, rfl⟩
      rw [if_pos ⟨rfl, rfl⟩]
      exact hw
    · rw [if_neg hk]
      exact h uid id
  | profile u object =>
    unfold ticketsHeld
    rw [record_apply_profile]
    by_cases hu : uid = u
    · rw [if_pos hu]
      exact List.nil_infix
    · rw [if_neg hu]
      exact h uid id

/-- The two writes of a purchase descend when the delivered snapshot does. -/
theorem writes_of_purchase {db₀ : Database K} {r : BuyRequest K Image} {node : Option Value}
    {remaining all : List String} (hnode : Descends db₀ r.key node)
    (hrem : castStrings (field node "RemainingTickets") = some remaining)
    (hall : castStrings (field node "AllTickets") = some all) :
    WriteDescends db₀ (.eventsTickets r.key
        (inventoryObject all (remaining.drop r.numberTickets.toNat))) ∧
    WriteDescends db₀ (.profileEvents r.uid r.key
        (userObject r.screen (remaining.take r.numberTickets.toNat))) := by
  have hsuffix : remaining <:+ stock db₀ r.key := by
    have := hnode.remaining
    rwa [codes_of_castStrings hrem] at this
  refine ⟨⟨?_, ?_⟩, ?_⟩
  · -- `AllTickets` is written back as it was read.
    rw [field_inventory_all, ← eq_node_of_castStrings hall, hnode.all]
  · rw [field_inventory_remaining, codes_node_strings]
    exact drop_suffix hsuffix _
  · show codes (field (nodeFrom (userObject _ _)) "Tickets") <:+: _
    rw [field_userObject_tickets, codes_node_strings]
    exact take_infix hsuffix _

/-- The server's move keeps integrity, whether it applies the write or not. -/
theorem integrity_serve {db₀ : Database K} {s : State K Image} (hi : Integrity db₀ s)
    {client : Nat} {db : Database K} {w : Write K} {rest : List (Write K)}
    (hout : s.outbox client = w :: rest)
    (hinv : ∀ id, Descends db₀ id db.eventsTickets[id]?)
    (htick : ∀ uid id, ticketsHeld db uid id <:+: stock db₀ id) :
    Integrity db₀ (s.serve client db rest) where
  inventory := hinv
  tickets := htick
  snapshots r hr node hnode := by
    obtain ⟨q, hq, rfl⟩ := mem_reads_serve.mp hr
    rcases List.mem_append.mp hnode with hold | hnew
    · exact hi.snapshots q hq node hold
    · rw [List.mem_singleton] at hnew
      subst hnew
      exact hinv q.request.key
  writes c v hv := hi.writes c v (mem_outbox_of_serve hout hv)

/-- One step keeps integrity. -/
theorem integrity_step {db₀ : Database K} {s s' : State K Image} {l : Label K Image}
    (hi : Integrity db₀ s) (h : step s l = some s') : Integrity db₀ s' := by
  cases l with
  | tap client currentUser screen sliderValue =>
    rcases step_tap h with ⟨-, rfl⟩ | ⟨uid, -, -, -, rfl⟩
    · exact hi
    · refine ⟨hi.inventory, hi.tickets, ?_, hi.writes⟩
      intro r hr node hnode
      rcases mem_reads_issue.mp hr with hold | rfl
      · exact hi.snapshots r hold node hnode
      · rw [List.mem_singleton] at hnode
        subst hnode
        exact hi.inventory _
  | deliver i version =>
    rcases step_deliver h with ⟨r, node, hr, hnode, hcase⟩
    have hmem : r ∈ s.reads := List.mem_of_getElem? hr
    have hdesc : Descends db₀ r.request.key node :=
      hi.snapshots r hmem node (List.mem_of_getElem? hnode)
    rcases hcase with ⟨-, rfl⟩ | ⟨-, rfl⟩ | ⟨remaining, all, hrem, hall, -, rfl⟩
    · exact ⟨hi.inventory, hi.tickets, fun q hq => hi.snapshots q (mem_reads_of_crash hq),
        hi.writes⟩
    · exact ⟨hi.inventory, hi.tickets, fun q hq => hi.snapshots q (mem_reads_of_answer hq),
        hi.writes⟩
    · have hpurchase := writes_of_purchase hdesc hrem hall
      refine ⟨hi.inventory, hi.tickets, fun q hq => hi.snapshots q (mem_reads_of_confirm hq), ?_⟩
      intro c w hw
      rcases mem_outbox_confirm hw with hold | rfl | rfl
      · exact hi.writes c w hold
      · exact hpurchase.1
      · exact hpurchase.2
  | accept client =>
    -- The write that is applied was in flight, so it descends.
    rcases step_accept h with ⟨w, rest, hout, rfl⟩
    have hw : WriteDescends db₀ w := hi.writes client w (by rw [hout]; simp)
    exact integrity_serve hi hout (descends_apply hw hi.inventory) (tickets_apply hw hi.tickets)
  | reject client =>
    -- The database stays, and pending reads see its value once more.
    rcases step_reject h with ⟨w, rest, hout, rfl⟩
    exact integrity_serve hi hout hi.inventory hi.tickets

/-- **Integrity of every run.**  From a database without sales, every state that any
    interleaving of taps, deliveries, accepted and rejected writes reaches keeps
    `AllTickets`, and holds suffixes and segments of the opening stock only. -/
theorem integrity_of_run {db₀ : Database K} (hsold : NothingSold db₀)
    {ls : List (Label K Image)} {s : State K Image}
    (hrun : Runs.exec step (State.initial db₀) ls = some s) : Integrity db₀ s :=
  Runs.exec_preserves (Integrity db₀) (fun _ _ _ hi h => integrity_step hi h)
    (integrity_initial hsold) hrun

/-- A purchase whose inventory write is accepted and whose profile write is refused. -/
def refusedProfile : List (Label String Unit) :=
  [.tap 0 (some "ana") (concertScreen "e1") 2, .deliver 0 0, .accept 0, .reject 0]

/-- Integrity at this run, which loses the two codes it took. -/
theorem integrity_refusedProfile :
    ∃ s : State String Unit,
      Runs.exec step (State.initial (onSale "e1" ["A1", "A2", "A3"])) refusedProfile = some s ∧
      stock s.db "e1" = ["A3"] ∧ Integrity (onSale "e1" ["A1", "A2", "A3"]) s := by
  have hrun : (Runs.exec step (State.initial (onSale "e1" ["A1", "A2", "A3"]))
      refusedProfile).map (fun s => stock s.db "e1") = some ["A3"] := by decide
  obtain ⟨s, hs, hstock⟩ := Option.map_eq_some_iff.mp hrun
  exact ⟨s, hs, hstock, integrity_of_run (ticketsHeld_onSale "e1" ["A1", "A2", "A3"]) hs⟩

end MeetupApp.Purchase
