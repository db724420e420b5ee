import MeetupApp.Controllers.Events
import MeetupApp.DataBase.Firebase
import MeetupApp.Purchase.Independence

/-! # What a buyer sees on the tickets screen

    The data of a purchased ticket passes through two decoders and two copies:
    `Event.loadTickets`, the array of the list screen, `prepare(for:sender:)`,
    the object of the profile update, and `Ticket.loadTickets`, which uses other
    names than `/events` does.  The result says that all of them agree. -/

namespace MeetupApp.Purchase

open Firebase

variable {K Image : Type}

/-! ## Section 1: A purchase from the list -/

/-- A purchase made from the list: the array at that moment, the row that was selected,
    the detail screen it led to, and the quantity. -/
structure RowPurchase (K Image : Type) where
  events : List (Event K Image)
  row : Nat
  screen : EventDescriptionViewController K Image
  numberTickets : Int

/-- What the tap on Buy captures. -/
def RowPurchase.request (uid : K) (p : RowPurchase K Image) : BuyRequest K Image where
  screen := p.screen
  uid := uid
  key := p.screen.eventId
  numberTickets := p.numberTickets

theorem RowPurchase.tapped (uid : K) (p : RowPurchase K Image) :
    buyButtonTapped (some uid) p.screen p.numberTickets = .inl (p.request uid) := rfl

/-- The array came from snapshots with these children, and the row led to the screen. -/
structure FromList (children : List (K × Value)) (p : RowPurchase K Image) : Prop where
  listed : ∃ ls, (∀ snapshot, .delivered snapshot ∈ ls → snapshot = children) ∧
    Runs.exec listStep [] ls = some p.events
  prepared : prepare p.events p.row = some p.screen

/-- The record of `/events` that a detail screen shows. -/
structure ShowsRecord (screen : EventDescriptionViewController K Image) (value : Value) : Prop where
  name : field (some value) "Name" = some (.string screen.eventName)
  description : field (some value) "Description" = some (.string screen.eventDescriptionVar)
  startDate : field (some value) "StartDate" = some (.string screen.eventStartDate)
  image : field (some value) "Image" = some (.string screen.eventPhotoString)

/-- From the record to the detail screen: the screen of row `r` shows the `r`-th record. -/
theorem record_of_fromList {children : List (K × Value)}
    (hcomplete : ∀ c ∈ children, Event.Complete c.2) {p : RowPurchase K Image}
    (h : FromList children p) :
    ∃ value, children[p.row]? = some (p.screen.eventId, value) ∧ ShowsRecord p.screen value := by
  -- The rows are those of one load, whichever of the deliveries came last.
  obtain ⟨loaded, hload⟩ :
      ∃ loaded : List (Event K Image), Event.loadTickets children = some loaded :=
    Event.loadTickets_of_complete hcomplete
  obtain ⟨ls, hls, hrun⟩ := h.listed
  obtain ⟨e, he, hprep⟩ := preparedFrom h.prepared
  obtain ⟨e', he', heq⟩ := shows_of_run hload hls hrun p.row e he
  obtain ⟨key, value, hchild, hdec⟩ := Event.row_of_loadTickets hload he'
  -- The photo is the only field in which the row may differ from what was loaded.
  have hid : e.id = e'.id := by rw [heq]; rfl
  have hname : e.name = e'.name := by rw [heq]; rfl
  have hdescription : e.description = e'.description := by rw [heq]; rfl
  have hstart : e.startDate = e'.startDate := by rw [heq]; rfl
  have hphoto : e.photoString = e'.photoString := by rw [heq]; rfl
  refine ⟨value, ?_, ?_, ?_, ?_, ?_⟩
  · rw [hchild, hprep.id, hid, hdec.id]
  · rw [hdec.name, hprep.name, hname]
  · rw [hdec.description, hprep.description, hdescription]
  · rw [hdec.startDate, hprep.startDate, hstart]
  · rw [← castString_eq_some, ← hdec.photoString, ← hphoto, hprep.photoString]

/-! ## Section 2: From the profile update to the tickets screen -/

/-- The event that `Ticket.loadTickets` makes of a purchase. -/
structure TicketOf (screen : EventDescriptionViewController K Image) (tickets : List String)
    (e : Event K Image) : Prop where
  name : e.name = screen.eventName
  description : e.description = screen.eventDescriptionVar
  startDate : e.startDate = screen.eventStartDate
  photoString : e.photoString = some screen.eventPhotoString
  tickets : e.tickets = some tickets

/-- `Ticket.loadTickets` reads what the profile update wrote. -/
theorem ofProfileRecord_userObject (key : K) (screen : EventDescriptionViewController K Image)
    {tickets : List String} (h : tickets ≠ []) {value : Value}
    (hvalue : nodeFrom (userObject screen tickets) = some value) :
    ∃ e : Event K Image, Ticket.ofProfileRecord key value = some e ∧ TicketOf screen tickets e := by
  cases tickets with
  | nil => exact absurd rfl h
  | cons c cs =>
    obtain rfl := Option.some.inj hvalue
    refine ⟨_, rfl, rfl, rfl, rfl, rfl, ?_⟩
    exact Value.asStrings_ofStrings c cs

/-- The profile update always stores a record: its strings are never absent. -/
theorem recordAfter_isSome [LinearOrder K] (db : Database K) (r : BuyRequest K Image) :
    ∃ value, recordAfter db r = some value := by
  unfold recordAfter
  cases (stock db r.key).take r.numberTickets.toNat <;> exact ⟨_, rfl⟩

/-- A purchase that can be made hands out at least one code. -/
theorem taken_ne_nil [LinearOrder K] {db : Database K} {r : BuyRequest K Image}
    (h : (buy db r).isSome) : (stock db r.key).take r.numberTickets.toNat ≠ [] := by
  obtain ⟨hpos, -, -, hn⟩ := casts_of_buyable h
  rw [← List.length_pos_iff, List.length_take]
  omega

/-! ## Section 3: The result -/

/-- What the buyer is shown for a purchase: the record that was listed under the row,
    and the codes that left its stock, in order. -/
structure Faithful [LinearOrder K] (db₀ db : Database K) (p : RowPurchase K Image)
    (e : Event K Image) : Prop where
  record : ∃ value photo, db₀.events.toList[p.row]? = some (e.id, value) ∧
    field (some value) "Name" = some (.string e.name) ∧
    field (some value) "Description" = some (.string e.description) ∧
    field (some value) "StartDate" = some (.string e.startDate) ∧
    field (some value) "Image" = some (.string photo) ∧ e.photoString = some photo
  tickets : e.tickets = some ((stock db₀ e.id).take p.numberTickets.toNat)
  removed : stock db e.id = (stock db₀ e.id).drop p.numberTickets.toNat

variable [LinearOrder K]

/-- Different rows are different events. -/
theorem distinct_of_rows {db₀ : Database K} {ps : List (RowPurchase K Image)}
    (hrecord : ∀ p ∈ ps, ∃ value, db₀.events.toList[p.row]? = some (p.screen.eventId, value))
    (hrows : (ps.map (·.row)).Nodup) (uid : K) :
    ((ps.map (·.request uid)).map (·.key)).Nodup := by
  rw [List.map_map]
  refine List.pairwise_map.mpr ((List.pairwise_map.mp hrows).imp_of_mem ?_)
  intro p q hp hq hne hkey
  obtain ⟨v, hv⟩ := hrecord p hp
  obtain ⟨w, hw⟩ := hrecord q hq
  -- One key stands at one position of the snapshot.
  have hsame := ChildMap.eq_of_mem_toList db₀.events (List.mem_of_getElem? hv)
    (List.mem_of_getElem? hw) hkey
  have hlen : p.row < db₀.events.toList.length := (List.getElem?_eq_some_iff.mp hv).1
  exact hne ((List.getElem?_inj hlen (ChildMap.nodup_toList db₀.events)).mp (by rw [hv, hw, hsame]))

/-- The records of a user without purchases, after purchases with outcome `db`. -/
theorem mem_recordsOf_outcome {db₀ db : Database K} {rs : List (BuyRequest K Image)} {uid : K}
    (hout : Outcome db₀ rs db) (hnone : db₀.recordsOf uid = []) (huids : ∀ r ∈ rs, r.uid = uid)
    {id : K} {value : Value} :
    (id, value) ∈ db.recordsOf uid ↔ ∃ r ∈ rs, r.key = id ∧ recordAfter db₀ r = some value := by
  rw [Database.mem_recordsOf]
  constructor
  · intro hval
    by_cases hid : ∃ r ∈ rs, r.key = id
    · obtain ⟨r, hr, rfl⟩ := hid
      refine ⟨r, hr, rfl, ?_⟩
      rw [← hout.record r hr, huids r hr]
      exact hval
    · -- Nothing was bought for `id`, and there was no record before.
      rw [hout.record_other uid id (fun r hr hsame => hid ⟨r, hr, hsame.2⟩)] at hval
      have hmem := db₀.mem_recordsOf.mpr hval
      rw [hnone] at hmem
      cases hmem
  · intro h
    obtain ⟨r, hr, rfl, hval⟩ := h
    rw [← huids r hr, hout.record r hr]
    exact hval

/-- The record of a purchase that went through is decoded to its ticket. -/
theorem ticket_of_purchase {db₀ : Database K} {uid : K} {p : RowPurchase K Image}
    (hbuyable : (buy db₀ (p.request uid)).isSome) :
    ∃ value, recordAfter db₀ (p.request uid) = some value ∧
      ∃ e : Event K Image, Ticket.ofProfileRecord p.screen.eventId value = some e ∧
        TicketOf p.screen ((stock db₀ p.screen.eventId).take p.numberTickets.toNat) e := by
  have htaken := taken_ne_nil hbuyable
  obtain ⟨value, hvalue⟩ := recordAfter_isSome db₀ (p.request uid)
  exact ⟨value, hvalue, ofProfileRecord_userObject _ p.screen htaken hvalue⟩

/-- The ids of the records are the events bought, each once. -/
theorem ids_recordsOf_perm {db₀ db : Database K} {rs : List (BuyRequest K Image)} {uid : K}
    (hout : Outcome db₀ rs db) (hnone : db₀.recordsOf uid = []) (huids : ∀ r ∈ rs, r.uid = uid)
    (hkeys : (rs.map (·.key)).Nodup) :
    ((db.recordsOf uid).map (·.1)).Perm (rs.map (·.key)) := by
  have hsorted : ((db.recordsOf uid).map (·.1)).Pairwise (· < ·) :=
    List.pairwise_map.mpr (db.sorted_recordsOf uid)
  rw [List.perm_ext_iff_of_nodup (hsorted.imp ne_of_lt) hkeys]
  intro id
  simp only [List.mem_map, Prod.exists, exists_and_right, exists_eq_right]
  constructor
  · intro h
    obtain ⟨value, hval⟩ := h
    obtain ⟨r, hr, hid, -⟩ := (mem_recordsOf_outcome hout hnone huids).mp hval
    exact ⟨r, hr, hid⟩
  · intro h
    obtain ⟨r, hr, hid⟩ := h
    obtain ⟨value, hvalue⟩ := recordAfter_isSome db₀ r
    exact ⟨value, (mem_recordsOf_outcome hout hnone huids).mpr ⟨r, hr, hid, hvalue⟩⟩

/-- The ticket of a purchase, next to the record that was listed and the stock that was
    cut, is what the buyer should be shown. -/
theorem faithful_of_ticketOf {db₀ db : Database K} {uid : K} {p : RowPurchase K Image}
    {value : Value} {e : Event K Image} (hid : e.id = p.screen.eventId)
    (hrow : db₀.events.toList[p.row]? = some (p.screen.eventId, value))
    (hshows : ShowsRecord p.screen value)
    (hticket : TicketOf p.screen ((stock db₀ p.screen.eventId).take p.numberTickets.toNat) e)
    (hinventory : db.eventsTickets[p.screen.eventId]? = inventoryAfter db₀ (p.request uid)) :
    Faithful db₀ db p e := by
  refine ⟨⟨value, p.screen.eventPhotoString, ?_, ?_, ?_, ?_, hshows.image, hticket.photoString⟩,
    ?_, ?_⟩
  · rw [hid, hrow]
  · rw [hticket.name, hshows.name]
  · rw [hticket.description, hshows.description]
  · rw [hticket.startDate, hshows.startDate]
  · rw [hticket.tickets, hid]
  · rw [hid, stock, hinventory, inventoryAfter, field_inventory_remaining, codes_node_strings]
    rfl

/-- **Fidelity.**  A user without purchases buys from pairwise different rows of the
    list.  Then the tickets screen loads one event for each purchase, in key order,
    with the data of the record that stood in the row and with the codes that left
    its stock. -/
theorem loadTickets_after_purchases {db₀ db : Database K} {uid : K}
    {ps : List (RowPurchase K Image)} (hcomplete : ∀ c ∈ db₀.events.toList, Event.Complete c.2)
    (hnone : db₀.recordsOf uid = []) (hrows : (ps.map (·.row)).Nodup)
    (hlist : ∀ p ∈ ps, FromList db₀.events.toList p)
    (hrun : Runs.exec buy db₀ (ps.map (·.request uid)) = some db) :
    ∃ events : List (Event K Image), Ticket.loadTickets (db.recordsOf uid) = some events ∧
      events.length = ps.length ∧ events.Pairwise (fun a b => a.id < b.id) ∧
      ∀ p ∈ ps, ∃ e ∈ events, Faithful db₀ db p e := by
  have hrecord : ∀ p ∈ ps, ∃ value,
      db₀.events.toList[p.row]? = some (p.screen.eventId, value) ∧ ShowsRecord p.screen value :=
    fun p hp => record_of_fromList hcomplete (hlist p hp)
  have hkeys := distinct_of_rows (fun p hp => (hrecord p hp).imp (fun _ h => h.1)) hrows uid
  have hout := outcome_of_exec hkeys hrun
  have huids : ∀ r ∈ ps.map (·.request uid), r.uid = uid := by simp [RowPurchase.request]
  -- Every record was written by a purchase and is decoded to its ticket.
  have hmem : ∀ id value, (id, value) ∈ db.recordsOf uid ↔
      ∃ p ∈ ps, p.screen.eventId = id ∧ recordAfter db₀ (p.request uid) = some value := by
    intro id value
    rw [mem_recordsOf_outcome hout hnone huids]
    simp [RowPurchase.request]
  have hticket := fun p hp => ticket_of_purchase
    (buyable_of_exec hkeys hrun (RowPurchase.request uid p) (List.mem_map_of_mem hp))
  obtain ⟨events, hload⟩ :
      ∃ events : List (Event K Image), Ticket.loadTickets (db.recordsOf uid) = some events := by
    refine mapM_isSome ?_
    intro c hc
    obtain ⟨p, hp, hid, hval⟩ := (hmem c.1 c.2).mp hc
    obtain ⟨value, hvalue, e, he, -⟩ := hticket p hp
    obtain rfl : value = c.2 := Option.some.inj (hvalue.symm.trans hval)
    exact ⟨e, hid ▸ he⟩
  have hids := Ticket.ids_of_loadTickets hload
  refine ⟨events, hload, ?_, ?_, ?_⟩
  · have hlen := (ids_recordsOf_perm hout hnone huids hkeys).length_eq
    rw [← hids, List.length_map, List.length_map, List.length_map] at hlen
    exact hlen
  · rw [← List.pairwise_map, hids, List.pairwise_map]
    exact db.sorted_recordsOf uid
  · intro p hp
    obtain ⟨value, hvalue, e, he, htick⟩ := hticket p hp
    -- The event delivered for the record is the decoded ticket.
    obtain ⟨e', he', hdec⟩ :=
      Ticket.mem_of_loadTickets hload ((hmem _ value).mpr ⟨p, hp, rfl, hvalue⟩)
    obtain rfl : e = e' := Option.some.inj (he.symm.trans hdec)
    obtain ⟨listed, hrow, hshows⟩ := hrecord p hp
    have hinventory := hout.inventory _ (List.mem_map_of_mem hp)
    exact ⟨e, he', faithful_of_ticketOf (Ticket.id_of_ofProfileRecord he) hrow hshows htick
      hinventory⟩

/-! ## Section 4: Two purchases from the list -/

/-- A record of `/events` with all its fields. -/
def listedRecord (name image : String) : Value :=
  .dict [("Name", .string name), ("Description", .string "An evening of music"),
    ("StartDate", .string "10/05/2019"), ("EndDate", .string "10/05/2019"),
    ("Image", .string image), ("Map", .string "maps/concert"),
    ("Price", .number 100), ("Country", .string "Mexico"), ("City", .string "CDMX"),
    ("Street", .string "Reforma 1"), ("StartHour", .string "20:00"), ("EndHour", .string "23:00")]

/-- A concert and an opera, listed and on sale. -/
def listedEvents : Database String :=
  { (onSale "e1" ["A1", "A2", "A3"]).apply
      (.eventsTickets "e2" (inventoryObject ["B1", "B2"] ["B1", "B2"])) with
    events := ((∅ : ChildMap String Value).put "e1"
      (some (listedRecord "Concert" "images/concert.png"))).put "e2"
        (some (listedRecord "Opera" "images/opera.png")) }

/-- The list screen after one load and one image. -/
def concertRows : List (ListLabel String Unit) :=
  [.delivered listedEvents.events.toList, .imageLoaded 0 (some ())]

/-- And after another load, with the image of the other row. -/
def operaRows : List (ListLabel String Unit) :=
  concertRows ++ [.delivered listedEvents.events.toList, .imageLoaded 1 (some ())]

/-- Two tickets of three for the concert. -/
def concertPurchase : RowPurchase String Unit where
  events := (Runs.exec listStep [] concertRows).getD []
  row := 0
  screen := concertScreen "e1"
  numberTickets := 2

/-- The last two tickets for the opera. -/
def operaPurchase : RowPurchase String Unit where
  events := (Runs.exec listStep [] operaRows).getD []
  row := 1
  screen := { concertScreen "e2" with
    eventName := "Opera"
    eventPhotoString := "images/opera.png" }
  numberTickets := 2

theorem complete_listedRecord (name image : String) : Event.Complete (listedRecord name image) where
  strings field hfield := by
    simp only [List.mem_cons, List.not_mem_nil, or_false] at hfield
    rcases hfield with rfl | rfl | rfl | rfl | rfl | rfl | rfl | rfl | rfl | rfl | rfl <;>
      exact ⟨_, rfl⟩
  price := ⟨_, rfl⟩

theorem complete_listedEvents : ∀ c ∈ listedEvents.events.toList, Event.Complete c.2 := by
  intro c hc
  have hlist : listedEvents.events.toList
      = [("e1", listedRecord "Concert" "images/concert.png"),
        ("e2", listedRecord "Opera" "images/opera.png")] := rfl
  rw [hlist] at hc
  simp only [List.mem_cons, List.not_mem_nil, or_false] at hc
  rcases hc with rfl | rfl
  · exact complete_listedRecord _ _
  · exact complete_listedRecord _ _

theorem fromList_purchases : ∀ p ∈ [concertPurchase, operaPurchase],
    FromList listedEvents.events.toList p := by
  intro p hp
  simp only [List.mem_cons, List.not_mem_nil, or_false] at hp
  rcases hp with rfl | rfl
  · exact ⟨⟨concertRows, by simp [concertRows], rfl⟩, rfl⟩
  · exact ⟨⟨operaRows, by simp [operaRows, concertRows], rfl⟩, rfl⟩

/-- Both purchases are on the tickets screen. -/
theorem concert_and_opera_on_ticketsScreen :
    ∃ db, Runs.exec buy listedEvents ([concertPurchase, operaPurchase].map (·.request "ana"))
        = some db ∧
      ∃ events : List (Event String Unit), Ticket.loadTickets (db.recordsOf "ana") = some events ∧
        events.length = 2 ∧ (∃ e ∈ events, Faithful listedEvents db concertPurchase e) ∧
        ∃ e ∈ events, Faithful listedEvents db operaPurchase e := by
  have hruns : (Runs.exec buy listedEvents
      ([concertPurchase, operaPurchase].map (·.request "ana"))).isSome := by decide
  obtain ⟨db, hrun⟩ := Option.isSome_iff_exists.mp hruns
  have hnone : listedEvents.recordsOf "ana" = [] := rfl
  have hdistinct : ([concertPurchase, operaPurchase].map (·.row)).Nodup := by decide
  obtain ⟨events, hload, hlen, -, hfaithful⟩ :=
    loadTickets_after_purchases complete_listedEvents hnone hdistinct fromList_purchases hrun
  exact ⟨db, hrun, events, hload, hlen, hfaithful _ (by simp), hfaithful _ (by simp)⟩

end MeetupApp.Purchase
