import MeetupApp.Firebase.Database

/-! # Models/Event.swift

    The event record, and the two loaders of the file as functions of the
    snapshot they are handed: `loadTickets` decodes `/events`,
    `loadEventsTickets` decodes `/eventsTickets/<id>`.

    A loader returns `none` where the source traps: a forced cast (`as!`) of
    `nil` or of a value of another type ends the process. -/

namespace MeetupApp

open Firebase

/-! ## Section 1: The record -/

/-- `class Event`.  `Image` stands for `UIImage`. -/
structure Event (K Image : Type) where
  id : K
  name : String
  description : String
  photo : Option Image
  photoString : Option String
  startDate : String
  endDate : Option String
  startHour : Option String
  endHour : Option String
  place : Option String
  date : Option String
  cost : Rat
  country : Option String
  city : Option String
  street : Option String
  tickets : Option (List String)

variable {K Image : Type}

/-! ## Section 2: Event.loadTickets -/

/-- The body of the loop of `Event.loadTickets` for one child of `/events`. -/
def Event.ofEventRecord (key : K) (value : Value) : Option (Event K Image) := do
  let eventObject := value.asDictionary
  let eventName := child eventObject "Name"
  let eventDescription := child eventObject "Description"
  let eventStartDate := child eventObject "StartDate"
  let eventImage := child eventObject "Image"
  let eventMapa := child eventObject "Map"
  let eventPrice := child eventObject "Price"
  let eventCountry := child eventObject "Country"
  let eventCity := child eventObject "City"
  let eventStreet := child eventObject "Street"
  let eventStartHour := child eventObject "StartHour"
  let eventEndHour := child eventObject "EndHour"
  let eventEndDate := child eventObject "EndDate"
  some {
    id := key
    name := ← castString eventName
    description := ← castString eventDescription
    photo := none
    place := castString eventMapa
    date := none
    cost := ← castDouble eventPrice
    photoString := castString eventImage
    tickets := none
    startDate := ← castString eventStartDate
    endDate := castString eventEndDate
    country := castString eventCountry
    city := castString eventCity
    street := castString eventStreet
    startHour := castString eventStartHour
    endHour := castString eventEndHour }

/-- `Event.loadTickets` on the snapshot of `/events`: its children in key order. -/
def Event.loadTickets (children : List (K × Value)) : Option (List (Event K Image)) :=
  children.mapM (fun event => Event.ofEventRecord event.1 event.2)

/-- The fields of a record that end up in an event, under the names of `/events`. -/
structure Event.DecodedFrom (key : K) (value : Value) (e : Event K Image) : Prop where
  id : e.id = key
  name : field (some value) "Name" = some (.string e.name)
  description : field (some value) "Description" = some (.string e.description)
  startDate : field (some value) "StartDate" = some (.string e.startDate)
  photoString : e.photoString = castString (field (some value) "Image")
  photo : e.photo = none

/-- What a successfully decoded event carries. -/
theorem Event.decodedFrom {key : K} {value : Value} {e : Event K Image}
    (h : Event.ofEventRecord key value = some e) : e.DecodedFrom key value := by
  simp only [ofEventRecord, Option.bind_eq_bind, Option.bind_eq_some_iff, castString_eq_some] at h
  rcases h with ⟨name, hname, description, hdescription, cost, -, start, hstart, he⟩
  obtain rfl := Option.some.inj he
  exact ⟨rfl, hname, hdescription, hstart, rfl, rfl⟩

/-- The fields of an event that the decoder leaves `nil` where the record lacks them. -/
structure Event.OptionalsFrom (value : Value) (e : Event K Image) : Prop where
  photoString : e.photoString = castString (field (some value) "Image")
  place : e.place = castString (field (some value) "Map")
  endDate : e.endDate = castString (field (some value) "EndDate")
  startHour : e.startHour = castString (field (some value) "StartHour")
  endHour : e.endHour = castString (field (some value) "EndHour")
  country : e.country = castString (field (some value) "Country")
  city : e.city = castString (field (some value) "City")
  street : e.street = castString (field (some value) "Street")

theorem Event.optionalsFrom {key : K} {value : Value} {e : Event K Image}
    (h : Event.ofEventRecord key value = some e) : e.OptionalsFrom value := by
  simp only [ofEventRecord, Option.bind_eq_bind, Option.bind_eq_some_iff] at h
  rcases h with ⟨name, -, description, -, cost, -, start, -, he⟩
  obtain rfl := Option.some.inj he
  exact ⟨rfl, rfl, rfl, rfl, rfl, rfl, rfl, rfl⟩

/-- A record of `/events` with every field the app reads, each of the right type. -/
structure Event.Complete (value : Value) : Prop where
  strings : ∀ name ∈ ["Name", "Description", "StartDate", "Image", "Map", "Country", "City",
      "Street", "StartHour", "EndHour", "EndDate"],
    ∃ s, field (some value) name = some (.string s)
  price : ∃ x, field (some value) "Price" = some (.number x)

/-- Complete records are decoded. -/
theorem Event.ofEventRecord_of_complete (key : K) {value : Value} (h : Event.Complete value) :
    ∃ e : Event K Image, Event.ofEventRecord key value = some e := by
  rcases h.strings "Name" (by simp) with ⟨name, hname⟩
  rcases h.strings "Description" (by simp) with ⟨description, hdescription⟩
  rcases h.strings "StartDate" (by simp) with ⟨start, hstart⟩
  rcases h.price with ⟨x, hx⟩
  have hobject : ∀ s, child value.asDictionary s = field (some value) s := fun _ => rfl
  simp only [ofEventRecord, hobject, hname, hdescription, hstart, hx]
  exact ⟨_, rfl⟩

/-- A snapshot of complete records is decoded. -/
theorem Event.loadTickets_of_complete {children : List (K × Value)}
    (h : ∀ c ∈ children, Event.Complete c.2) :
    ∃ events : List (Event K Image), Event.loadTickets children = some events :=
  mapM_isSome (fun c hc => ofEventRecord_of_complete c.1 (h c hc))

/-- The `r`-th child of the snapshot is decoded into row `r` of the delivered list. -/
theorem Event.decoded_row {children : List (K × Value)} {events : List (Event K Image)}
    (h : Event.loadTickets children = some events) {r : Nat} {key : K} {value : Value}
    (hr : children[r]? = some (key, value)) :
    ∃ e, events[r]? = some e ∧ Event.ofEventRecord key value = some e := by
  have hrows := mapM_eq_some_iff.mp h
  have hlen := hrows.length_eq
  obtain ⟨hlt, hchild⟩ := List.getElem?_eq_some_iff.mp hr
  have hlt' : r < events.length := by omega
  have hdec := hrows.get hlt hlt'
  simp only [List.get_eq_getElem, hchild] at hdec
  exact ⟨events[r], List.getElem?_eq_getElem hlt', hdec⟩

/-- Row `r` of the delivered list is decoded from the `r`-th child of the snapshot. -/
theorem Event.row_of_loadTickets {children : List (K × Value)} {events : List (Event K Image)}
    (h : Event.loadTickets children = some events) {r : Nat} {e : Event K Image}
    (hr : events[r]? = some e) :
    ∃ key value, children[r]? = some (key, value) ∧ e.DecodedFrom key value := by
  have hlen := (mapM_eq_some_iff.mp h).length_eq
  have hlt := (List.getElem?_eq_some_iff.mp hr).1
  have hlt' : r < children.length := by omega
  have hchild : children[r]? = some children[r] := List.getElem?_eq_getElem hlt'
  obtain ⟨e', he', hdec⟩ := decoded_row h hchild
  obtain rfl : e = e' := Option.some.inj (hr.symm.trans he')
  exact ⟨children[r].1, children[r].2, hchild, decodedFrom hdec⟩

/-! ## Section 3: Event.loadEventsTickets -/

/-- `Event.loadEventsTickets` on the snapshot value of `/eventsTickets/<id>`. -/
def Event.loadEventsTickets (value : Option Value) : Option (List (List String)) := do
  let events : List (List String) := []
  let eventObject := value.bind (·.asDictionary)
  let eventRemainingTickets := child eventObject "RemainingTickets"
  let eventAlltickets := child eventObject "AllTickets"
  let events := events ++ [← castStrings eventRemainingTickets]
  let events := events ++ [← castStrings eventAlltickets]
  some events

/-- The loader delivers the remaining tickets at index 0 and all tickets at
    index 1, and traps unless both are arrays of strings. -/
theorem Event.loadEventsTickets_eq_some {value : Option Value} {lists : List (List String)} :
    Event.loadEventsTickets value = some lists ↔
      ∃ remaining all, lists = [remaining, all] ∧
        castStrings (field value "RemainingTickets") = some remaining ∧
        castStrings (field value "AllTickets") = some all := by
  constructor
  · intro h
    simp only [loadEventsTickets, Option.bind_eq_bind, Option.bind_eq_some_iff] at h
    rcases h with ⟨remaining, hrem, all, hall, hlists⟩
    exact ⟨remaining, all, (Option.some.inj hlists).symm, hrem, hall⟩
  · rintro ⟨remaining, all, rfl, hrem, hall⟩
    unfold field at hrem hall
    simp [loadEventsTickets, hrem, hall]

end MeetupApp
