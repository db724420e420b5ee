import MeetupApp.Purchase.Interleaving

/-! # Purchases one after another

    One purchase from the tap to its second write with nothing in between
    (`buy`), what it does to each part of the database, and its place in the
    interleaving machine: a serial sequence of purchases is one of its runs
    (`exec_serial`), and it refines the office that sells from the front of its
    stock (`sell_of_buy`). -/

namespace MeetupApp.Purchase

open Firebase FrontSale

variable {K Image : Type} [LinearOrder K]

/-! ## Section 1: One purchase -/

/-- One successful purchase: the read delivers the current inventory and both
    writes are accepted.  `none` if it traps, is refused or buys nothing. -/
def buy (db : Database K) (r : BuyRequest K Image) : Option (Database K) :=
  if 0 < r.numberTickets then
    match r.deliver db.eventsTickets[r.key]? with
    | some (.purchaseMade _ inventory profile _) => some ((db.apply inventory).apply profile)
    | _ => none
  else none

/-- `AllTickets` of an event; an absent list counts as empty. -/
def allTickets (db : Database K) (id : K) : List String :=
  codes (field db.eventsTickets[id]? "AllTickets")

/-- The inventory write of a purchase that finds `remaining` and `all`. -/
def inventoryWrite (r : BuyRequest K Image) (remaining all : List String) : Write K :=
  .eventsTickets r.key (inventoryObject all (remaining.drop r.numberTickets.toNat))

/-- The profile write of a purchase that finds `remaining`. -/
def profileWrite (r : BuyRequest K Image) (remaining : List String) : Write K :=
  .profileEvents r.uid r.key (userObject r.screen (remaining.take r.numberTickets.toNat))

/-- **Everything a purchase needs and does.** -/
theorem buy_eq_some {db db' : Database K} {r : BuyRequest K Image} :
    buy db r = some db' ↔ 0 < r.numberTickets ∧ ∃ remaining all,
      castStrings (field db.eventsTickets[r.key]? "RemainingTickets") = some remaining ∧
      castStrings (field db.eventsTickets[r.key]? "AllTickets") = some all ∧
      r.numberTickets.toNat ≤ remaining.length ∧
      db' = (db.apply (inventoryWrite r remaining all)).apply (profileWrite r remaining) := by
  unfold buy
  constructor
  · intro h
    split at h
    · next hpos =>
      split at h
      · next tickestBuy inventory profile alert hmade =>
        obtain ⟨remaining, all, hrem, hall, hn, heq⟩ := BuyRequest.deliver_purchaseMade hmade
        unfold BuyRequest.purchase at heq
        injection heq with htickets hinventory hprofile
        subst hinventory hprofile
        exact ⟨hpos, remaining, all, hrem, hall, hn, (Option.some.inj h).symm⟩
      · cases h
    · cases h
  · intro h
    rcases h with ⟨hpos, remaining, all, hrem, hall, hn, rfl⟩
    rw [if_pos hpos, BuyRequest.deliver_enough hrem hall hn]
    rfl

/-! ## Section 2: What a purchase changes -/

section effect
variable {db db' : Database K} {r : BuyRequest K Image}

/-- The inventory of the event after the purchase. -/
theorem inventory_buy (h : buy db r = some db') :
    ∃ remaining all, castStrings (field db.eventsTickets[r.key]? "RemainingTickets")
        = some remaining ∧
      castStrings (field db.eventsTickets[r.key]? "AllTickets") = some all ∧
      r.numberTickets.toNat ≤ remaining.length ∧
      db'.eventsTickets[r.key]?
        = nodeFrom (inventoryObject all (remaining.drop r.numberTickets.toNat)) := by
  obtain ⟨-, remaining, all, hrem, hall, hn, rfl⟩ := buy_eq_some.mp h
  refine ⟨remaining, all, hrem, hall, hn, ?_⟩
  show (db.eventsTickets.put r.key _)[r.key]? = _
  rw [ChildMap.getElem?_put_self]

/-- The inventories of other events are untouched. -/
theorem inventory_buy_other (h : buy db r = some db') {id : K} (hid : r.key ≠ id) :
    db'.eventsTickets[id]? = db.eventsTickets[id]? := by
  obtain ⟨-, remaining, all, -, -, -, rfl⟩ := buy_eq_some.mp h
  show (db.eventsTickets.put r.key _)[id]? = _
  rw [ChildMap.getElem?_put_of_ne _ _ hid]

/-- The buyer's record of the event is replaced by the one of this purchase. -/
theorem record_buy (h : buy db r = some db') (uid id : K) :
    db'.record uid id
      = if r.uid = uid ∧ r.key = id then
          nodeFrom (userObject r.screen ((stock db r.key).take r.numberTickets.toNat))
        else db.record uid id := by
  obtain ⟨-, remaining, all, hrem, -, -, rfl⟩ := buy_eq_some.mp h
  unfold stock
  rw [codes_of_castStrings hrem, profileWrite, record_apply_record]
  rfl

theorem events_buy (h : buy db r = some db') : db'.events = db.events := by
  obtain ⟨-, remaining, all, -, -, -, rfl⟩ := buy_eq_some.mp h
  rfl

/-- Purchases do not touch `/events`. -/
theorem events_of_run {db₀ db : Database K} {rs : List (BuyRequest K Image)}
    (hrun : Runs.exec buy db₀ rs = some db) : db.events = db₀.events :=
  Runs.exec_preserves (fun d => d.events = db₀.events)
    (fun _ _ _ hd h => (events_buy h).trans hd) rfl hrun

/-- The purchase takes its codes off the front of the stock. -/
theorem stock_buy (h : buy db r = some db') (id : K) :
    stock db' id
      = if r.key = id then (stock db id).drop r.numberTickets.toNat else stock db id := by
  by_cases hid : r.key = id
  · subst hid
    obtain ⟨remaining, all, hrem, -, -, hnode⟩ := inventory_buy h
    rw [if_pos rfl, stock, hnode, field_inventory_remaining, codes_node_strings, stock,
      codes_of_castStrings hrem]
  · rw [if_neg hid, stock, inventory_buy_other h hid, stock]

/-- `AllTickets` is written back as it was read. -/
theorem allTickets_buy (h : buy db r = some db') (id : K) :
    allTickets db' id = allTickets db id := by
  unfold allTickets
  by_cases hid : r.key = id
  · subst hid
    obtain ⟨remaining, all, -, hall, -, hnode⟩ := inventory_buy h
    rw [hnode, field_inventory_all, codes_node_strings, codes_of_castStrings hall]
  · rw [inventory_buy_other h hid]

theorem quantity_le_stock (h : buy db r = some db') :
    r.numberTickets.toNat ≤ (stock db r.key).length := by
  obtain ⟨remaining, all, hrem, -, hn, -⟩ := inventory_buy h
  rw [stock, codes_of_castStrings hrem]
  exact hn

/-- The codes taken are the buyer's tickets for the event; other records keep theirs. -/
theorem ticketsHeld_buy (h : buy db r = some db') (uid id : K) :
    ticketsHeld db' uid id
      = if r.uid = uid ∧ r.key = id then (stock db r.key).take r.numberTickets.toNat
        else ticketsHeld db uid id := by
  unfold ticketsHeld
  rw [record_buy h]
  split
  · rw [field_userObject_tickets, codes_node_strings]
  · rfl

/-- A buyer holds at least one ticket afterwards. -/
theorem ticketsHeld_buy_ne_nil (h : buy db r = some db') : ticketsHeld db' r.uid r.key ≠ [] := by
  have hpos : 0 < r.numberTickets := (buy_eq_some.mp h).1
  have hle := quantity_le_stock h
  rw [ticketsHeld_buy h, if_pos ⟨rfl, rfl⟩, ← List.length_pos_iff, List.length_take]
  omega

/-- **Refinement.**  A purchase is a sale of the office: the stock loses its first
    codes and the ledger gains exactly these. -/
theorem sell_of_buy (h : buy db r = some db') (ledger : List (Sale K K String)) :
    (Office.mk (stock db) ledger).sell r.uid r.key r.numberTickets.toNat
      = some ⟨stock db', ledger
          ++ [⟨r.key, r.uid, (stock db r.key).take r.numberTickets.toNat⟩]⟩ := by
  unfold Office.sell
  rw [if_pos (quantity_le_stock h)]
  have hstock : Function.update (stock db) r.key ((stock db r.key).drop r.numberTickets.toNat)
      = stock db' := by
    funext id
    rw [stock_buy h, Function.update_apply]
    by_cases hid : r.key = id
    · subst hid
      simp
    · simp [hid, Ne.symm hid]
  rw [hstock]

end effect

/-! ## Section 3: Serial runs are runs of the machine -/

/-- The steps of one purchase of `client`, in a row. -/
def serialLabels (client : Nat) (r : BuyRequest K Image) : List (Label K Image) :=
  [.tap client (some r.uid) r.screen r.numberTickets, .deliver 0 0, .accept client, .accept client]

/-- Nothing is in flight and no process has ended. -/
structure Quiescent (s : State K Image) : Prop where
  reads : s.reads = []
  outbox : ∀ client, s.outbox client = []
  crashed : s.crashed = []

theorem quiescent_initial (db : Database K) : Quiescent (State.initial db : State K Image) :=
  ⟨rfl, fun _ => rfl, rfl⟩

/-- The state after a tap and its delivery, when nothing else is in flight. -/
def bought (s : State K Image) (client : Nat) (r : BuyRequest K Image)
    (remaining all : List String) : State K Image :=
  (s.issue client r).confirm 0 client ⟨r.key, r.uid, remaining.take r.numberTickets.toNat⟩
    (inventoryWrite r remaining all) (profileWrite r remaining)

section bought
variable {s : State K Image} (hq : Quiescent s) (client : Nat) (r : BuyRequest K Image)
  (remaining all : List String)
include hq

theorem bought_reads : (bought s client r remaining all).reads = [] := by
  simp [bought, State.confirm, State.issue, hq.reads]

/-- The two writes of the purchase are the only ones in flight, the inventory first. -/
theorem bought_outbox : (bought s client r remaining all).outbox
    = Function.update (fun _ => []) client
        [inventoryWrite r remaining all, profileWrite r remaining] := by
  have houtbox : s.outbox = fun _ => [] := funext hq.outbox
  simp [bought, State.confirm, State.issue, houtbox]

/-- The tap issues the read, and its delivery confirms the purchase. -/
theorem exec_bought (hkey : r.key = r.screen.eventId) (hpos : 0 < r.numberTickets)
    (hrem : castStrings (field s.db.eventsTickets[r.key]? "RemainingTickets") = some remaining)
    (hall : castStrings (field s.db.eventsTickets[r.key]? "AllTickets") = some all)
    (hn : r.numberTickets.toNat ≤ remaining.length) :
    Runs.exec step s [.tap client (some r.uid) r.screen r.numberTickets, .deliver 0 0]
      = some (bought s client r remaining all) := by
  have htap : step s (.tap client (some r.uid) r.screen r.numberTickets)
      = some (s.issue client r) := by
    rw [step_tap_signedIn (by simp [hq.crashed]) hpos, ← hkey]
  -- The read of the tap is the only one.
  let read : PendingRead K Image := ⟨client, r, [s.db.eventsTickets[r.key]?]⟩
  have hread : (s.issue client r).reads[0]? = some read := by
    simp [State.issue, hq.reads, read]
  have hheld : read.held[0]? = some s.db.eventsTickets[r.key]? := rfl
  have hdeliver : step (s.issue client r) (.deliver 0 0) = some (bought s client r remaining all) :=
    step_deliver_enough hread hheld hrem hall hn
  rw [Runs.exec_cons, htap, Option.bind_some, Runs.exec_cons, hdeliver, Option.bind_some,
    Runs.exec_nil]

end bought

/-- From a quiescent state the four steps of a purchase do what `buy` does, and log
    the codes it hands out. -/
theorem exec_serialLabels {s : State K Image} (hq : Quiescent s) {r : BuyRequest K Image}
    (hkey : r.key = r.screen.eventId) {db : Database K} (h : buy s.db r = some db) (client : Nat) :
    ∃ s', Runs.exec step s (serialLabels client r) = some s' ∧ Quiescent s' ∧ s'.db = db ∧
      s'.sales = s.sales ++ [⟨r.key, r.uid, (stock s.db r.key).take r.numberTickets.toNat⟩] := by
  obtain ⟨hpos, remaining, all, hrem, hall, hn, rfl⟩ := buy_eq_some.mp h
  have hstock : stock s.db r.key = remaining := codes_of_castStrings hrem
  have hbought := exec_bought hq client r remaining all hkey hpos hrem hall hn
  have hout := bought_outbox hq client r remaining all
  -- After the delivery the two writes are in flight, and the server takes them in order.
  let s₂ := bought s client r remaining all
  have hout₂ : s₂.outbox client = [inventoryWrite r remaining all, profileWrite r remaining] := by
    show (bought s client r remaining all).outbox client = _
    rw [hout, Function.update_self]
  have hinventory := step_accept_cons hout₂
  let s₃ := s₂.serve client (s₂.db.apply (inventoryWrite r remaining all))
    [profileWrite r remaining]
  have hout₃ : s₃.outbox client = [profileWrite r remaining] := by
    simp [s₃, State.serve]
  have hprofile := step_accept_cons hout₃
  refine ⟨s₃.serve client (s₃.db.apply (profileWrite r remaining)) [], ?_,
    ⟨?_, ?_, hq.crashed⟩, rfl, ?_⟩
  · show Runs.exec step s ([.tap client (some r.uid) r.screen r.numberTickets, .deliver 0 0]
      ++ [.accept client, .accept client]) = _
    rw [Runs.exec_append, hbought, Option.bind_some, Runs.exec_cons, hinventory, Option.bind_some,
      Runs.exec_cons, hprofile, Option.bind_some, Runs.exec_nil]
  · simp [s₃, s₂, State.serve, bought_reads hq]
  · intro c
    simp [s₃, s₂, State.serve, hout]
  · rw [hstock]
    rfl

/-- **A serial run is a run of the machine**, whatever clients the purchases are made
    from, and the books of the office balance at its end. -/
theorem exec_serial {db₀ db : Database K} {rs : List (BuyRequest K Image)}
    (client : BuyRequest K Image → Nat) (hkeys : ∀ r ∈ rs, r.key = r.screen.eventId)
    (h : Runs.exec buy db₀ rs = some db) :
    ∃ s, Runs.exec step (State.initial db₀) (rs.flatMap (fun r => serialLabels (client r) r))
        = some s ∧ Quiescent s ∧ s.db = db ∧
      (Office.mk (stock db) s.sales).Balanced (stock db₀) := by
  -- Generalised over the state in which the rest of the run starts.
  suffices hgen : ∀ (s : State K Image), Quiescent s →
      (Office.mk (stock s.db) s.sales).Balanced (stock db₀) → Runs.exec buy s.db rs = some db →
      ∃ s', Runs.exec step s (rs.flatMap (fun r => serialLabels (client r) r)) = some s' ∧
        Quiescent s' ∧ s'.db = db ∧ (Office.mk (stock db) s'.sales).Balanced (stock db₀) from
    hgen (State.initial db₀) (quiescent_initial db₀) (Office.balanced_opening (stock db₀)) h
  clear h
  induction rs with
  | nil =>
    intro s hq hbal hrun
    obtain rfl : s.db = db := Option.some.inj hrun
    exact ⟨s, rfl, hq, rfl, hbal⟩
  | cons r rs ih =>
    intro s hq hbal hrun
    obtain ⟨db₁, hbuy, hrest⟩ := Runs.exec_cons_eq_some.mp hrun
    obtain ⟨s₁, hs₁, hq₁, hdb₁, hsales⟩ :=
      exec_serialLabels hq (hkeys r (by simp)) hbuy (client r)
    subst hdb₁
    have hbal₁ : (Office.mk (stock s₁.db) s₁.sales).Balanced (stock db₀) := by
      rw [hsales]
      exact Office.balanced_sell hbal (sell_of_buy hbuy s.sales)
    obtain ⟨s', hs', hq', hdb', hbal'⟩ :=
      ih (fun q hq => hkeys q (by simp [hq])) s₁ hq₁ hbal₁ hrest
    refine ⟨s', ?_, hq', hdb', hbal'⟩
    rw [List.flatMap_cons, Runs.exec_append, hs₁, Option.bind_some]
    exact hs'

end MeetupApp.Purchase
