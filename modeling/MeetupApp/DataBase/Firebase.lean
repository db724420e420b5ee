import MeetupApp.Models.Event

/-! # DataBase/Firebase.swift

    `Ticket.loadTickets` as a function of the children of
    `users/profile/<uid>/events`.  The records below a profile use other names
    than those of `/events`: the start date is `Start`, and `Tickets` holds the
    codes. -/

namespace MeetupApp

open Firebase

variable {K Image : Type}

/-- The body of the loop of `Ticket.loadTickets` for one child. -/
def Ticket.ofProfileRecord (key : K) (value : Value) : Option (Event K Image) := do
  let eventObject := value.asDictionary
  let eventName := child eventObject "Name"
  let eventImage := child eventObject "Image"
  let eventDescription := child eventObject "Description"
  let eventTickets := child eventObject "Tickets"
  let evenStart := child eventObject "Start"
  some {
    id := key
    name := ← castString eventName
    description := ← castString eventDescription
    photo := none
    place := none
    date := none
    cost := 0
    photoString := castString eventImage
    tickets := castStrings eventTickets
    startDate := ← castString evenStart
    endDate := none
    country := none
    city := none
    street := none
    startHour := none
    endHour := none }

/-- `Ticket.loadTickets` on the children of `users/profile/<uid>/events`. -/
def Ticket.loadTickets (children : List (K × Value)) : Option (List (Event K Image)) :=
  children.mapM (fun event => Ticket.ofProfileRecord event.1 event.2)

/-- A decoded record carries the key it was stored under. -/
theorem Ticket.id_of_ofProfileRecord {key : K} {value : Value} {e : Event K Image}
    (h : Ticket.ofProfileRecord key value = some e) : e.id = key := by
  simp only [ofProfileRecord, Option.bind_eq_bind, Option.bind_eq_some_iff] at h
  rcases h with ⟨name, -, description, -, start, -, he⟩
  obtain rfl := Option.some.inj he
  rfl

/-- The loader delivers one event for each child, in the order of the children. -/
theorem Ticket.ids_of_loadTickets {children : List (K × Value)} {events : List (Event K Image)}
    (h : Ticket.loadTickets children = some events) :
    events.map (·.id) = children.map (·.1) := by
  have hdecoded := mapM_eq_some_iff.mp h
  clear h
  induction hdecoded with
  | nil => rfl
  | cons he _ ih => rw [List.map_cons, List.map_cons, ih, id_of_ofProfileRecord he]

/-- Every child ends up in the delivered list. -/
theorem Ticket.mem_of_loadTickets {children : List (K × Value)} {events : List (Event K Image)}
    (h : Ticket.loadTickets children = some events) {c : K × Value} (hc : c ∈ children) :
    ∃ e ∈ events, Ticket.ofProfileRecord c.1 c.2 = some e := by
  have hdecoded := mapM_eq_some_iff.mp h
  clear h
  induction hdecoded with
  | nil => cases hc
  | @cons d e cs es he _ ih =>
    rcases List.mem_cons.mp hc with rfl | hcs
    · exact ⟨e, by simp, he⟩
    · obtain ⟨e', he', hdec⟩ := ih hcs
      exact ⟨e', by simp [he'], hdec⟩

/-- Every event of the delivered list was decoded from a child. -/
theorem Ticket.child_of_loadTickets {children : List (K × Value)} {events : List (Event K Image)}
    (h : Ticket.loadTickets children = some events) {e : Event K Image} (he : e ∈ events) :
    ∃ c ∈ children, Ticket.ofProfileRecord c.1 c.2 = some e := by
  have hdecoded := mapM_eq_some_iff.mp h
  clear h
  induction hdecoded with
  | nil => cases he
  | @cons d a cs es ha _ ih =>
    rcases List.mem_cons.mp he with rfl | hes
    · exact ⟨d, by simp, ha⟩
    · obtain ⟨c, hc, hdec⟩ := ih hes
      exact ⟨c, by simp [hc], hdec⟩

end MeetupApp
