import MeetupApp.Controllers.EventDescription
import MeetupApp.Framework.Runs

/-! # Controllers/EventsViewController.swift

    The list screen: the array `events`, the two things that change it (a
    delivered snapshot of `/events`, and the image of a cell), and the three
    consumers of a row: the image block of its cell, the share action, and
    `prepare(for:sender:)`, which copies it field by field into the detail
    screen. -/

namespace MeetupApp

open Firebase

variable {K Image : Type}

/-! ## Section 1: The array -/

/-- What happens to `events`. -/
inductive ListLabel (K Image : Type) where
  /-- The completion of `loadEventInfo` runs with the children of `/events`. -/
  | delivered (children : List (K × Value))
  /-- The block that `cellForRowAt` dispatched stores the image of its row. -/
  | imageLoaded (row : Nat) (image : Option Image)

/-- `event.photo = image` -/
def Event.withPhoto (event : Event K Image) (image : Option Image) : Event K Image :=
  { event with photo := image }

/-- `self.events[indexPath.row].photo = image`; the rows are objects, so the
    row is changed in place.  `none` where the index is out of range. -/
def setPhoto (events : List (Event K Image)) (row : Nat) (image : Option Image) :
    Option (List (Event K Image)) :=
  if row < events.length then some (events.modify row (·.withPhoto image))
  else none

/-- One change of `events`; `none` where the app traps. -/
def listStep (events : List (Event K Image)) : ListLabel K Image → Option (List (Event K Image))
  | .delivered children => Event.loadTickets children
  | .imageLoaded row image => setPhoto events row image

/-- `prepare(for:sender:)`: `none` where `!` is applied to `nil` or the row does not exist. -/
def prepare (events : List (Event K Image)) (sender : Nat) :
    Option (EventDescriptionViewController K Image) := do
  let event ← events[sender]?
  some {
    eventName := event.name
    eventPhoto := ← event.photo
    eventDescriptionVar := event.description
    eventPlace := ← event.place
    eventStartDate := event.startDate
    eventEndDate := ← event.endDate
    eventStarHour := ← event.startHour
    eventEndHour := ← event.endHour
    eventPrice := event.cost
    eventCountry := ← event.country
    eventCity := ← event.city
    eventStreet := ← event.street
    eventId := event.id
    eventPhotoString := ← event.photoString }

/-! ## Section 2: What the rows are -/

/-- `events` lists rows of `loaded`, with whatever photos have arrived. -/
def Shows (loaded events : List (Event K Image)) : Prop :=
  ∀ (row : Nat) (e : Event K Image), events[row]? = some e →
    ∃ e', loaded[row]? = some e' ∧ e = e'.withPhoto e.photo

theorem shows_loaded (loaded : List (Event K Image)) : Shows loaded loaded :=
  fun _ e he => ⟨e, he, rfl⟩

/-- An image changes the photo of its row and nothing else. -/
theorem shows_setPhoto {loaded events events' : List (Event K Image)} {row : Nat}
    {image : Option Image} (hs : Shows loaded events)
    (h : setPhoto events row image = some events') : Shows loaded events' := by
  unfold setPhoto at h
  split at h
  · obtain rfl := Option.some.inj h
    intro i e he
    rw [List.getElem?_modify] at he
    obtain ⟨a, ha, hae⟩ := Option.map_eq_some_iff.mp he
    obtain ⟨e', he', heq⟩ := hs i a ha
    -- The row of the image has a new photo, every other row is as it was.
    refine ⟨e', he', ?_⟩
    split at hae
    · rw [← hae, heq]
      rfl
    · rw [← hae]
      exact heq
  · cases h

/-- However often the list is loaded and whichever images arrive, its rows are those of
    `/events`, as long as `/events` does not change. -/
theorem shows_of_run {children : List (K × Value)} {loaded events : List (Event K Image)}
    (hload : Event.loadTickets children = some loaded) {ls : List (ListLabel K Image)}
    (hls : ∀ snapshot, .delivered snapshot ∈ ls → snapshot = children)
    (hrun : Runs.exec listStep [] ls = some events) : Shows loaded events := by
  have hempty : Shows loaded [] := by
    intro row e he
    simp at he
  have hrun' := Runs.exec_preserves_trace
    (fun (tr : List (ListLabel K Image)) events =>
      (∀ snapshot, .delivered snapshot ∈ tr → snapshot = children) → Shows loaded events)
    ?_ (fun _ => hempty) hrun
  · exact hrun' hls
  · intro tr events l events' hinv hstep htr
    have hbefore : Shows loaded events :=
      hinv (fun snapshot hmem => htr snapshot (List.mem_append_left _ hmem))
    cases l with
    | delivered snapshot =>
      obtain rfl := htr snapshot (by simp)
      obtain rfl : loaded = events' := Option.some.inj (hload.symm.trans hstep)
      exact shows_loaded loaded
    | imageLoaded row image => exact shows_setPhoto hbefore hstep

/-- The fields of the detail screen that the purchase uses. -/
structure PreparedFrom (e : Event K Image) (screen : EventDescriptionViewController K Image) :
    Prop where
  id : screen.eventId = e.id
  name : screen.eventName = e.name
  description : screen.eventDescriptionVar = e.description
  startDate : screen.eventStartDate = e.startDate
  photoString : e.photoString = some screen.eventPhotoString
  price : screen.eventPrice = e.cost

/-- **Everything `prepare` does**: it unwraps nine fields of the row and copies them. -/
theorem prepare_eq_some {events : List (Event K Image)} {sender : Nat}
    {screen : EventDescriptionViewController K Image} :
    prepare events sender = some screen ↔
      ∃ e, events[sender]? = some e ∧
        e.photo = some screen.eventPhoto ∧ e.place = some screen.eventPlace ∧
        e.endDate = some screen.eventEndDate ∧ e.startHour = some screen.eventStarHour ∧
        e.endHour = some screen.eventEndHour ∧ e.country = some screen.eventCountry ∧
        e.city = some screen.eventCity ∧ e.street = some screen.eventStreet ∧
        e.photoString = some screen.eventPhotoString ∧
        screen.eventId = e.id ∧ screen.eventName = e.name ∧
        screen.eventDescriptionVar = e.description ∧ screen.eventStartDate = e.startDate ∧
        screen.eventPrice = e.cost := by
  constructor
  · intro h
    simp only [prepare, Option.bind_eq_bind, Option.bind_eq_some_iff] at h
    rcases h with ⟨e, he, photo, hphoto, place, hplace, endDate, hend, startHour, hstart, endHour,
      hendHour, country, hcountry, city, hcity, street, hstreet, url, hurl, hscreen⟩
    obtain rfl := Option.some.inj hscreen
    exact ⟨e, he, hphoto, hplace, hend, hstart, hendHour, hcountry, hcity, hstreet, hurl, rfl, rfl,
      rfl, rfl, rfl⟩
  · intro h
    rcases h with ⟨e, he, hphoto, hplace, hend, hstart, hendHour, hcountry, hcity, hstreet, hurl,
      hid, hname, hdescription, hdate, hprice⟩
    simp only [prepare, he, Option.bind_eq_bind, Option.bind_some, hphoto, hplace, hend, hstart,
      hendHour, hcountry, hcity, hstreet, hurl, ← hid, ← hname, ← hdescription, ← hdate, ← hprice]

/-- What `prepare` copies. -/
theorem preparedFrom {events : List (Event K Image)} {sender : Nat}
    {screen : EventDescriptionViewController K Image} (h : prepare events sender = some screen) :
    ∃ e, events[sender]? = some e ∧ PreparedFrom e screen := by
  obtain ⟨e, he, -, -, -, -, -, -, -, -, hurl, hid, hname, hdescription, hdate, hprice⟩ :=
    prepare_eq_some.mp h
  exact ⟨e, he, hid, hname, hdescription, hdate, hurl, hprice⟩

/-! ## Section 3: The consumers of a row -/

/-- How the process ends in a consumer. -/
inductive Fault where
  /-- `!` was applied to `nil`. -/
  | nilUnwrapped
  | indexOutOfRange
  deriving DecidableEq

/-- What the block of `cellForRowAt` captures: the event of the row, and the row. -/
structure ImageBlock (K Image : Type) where
  event : Event K Image
  row : Nat

/-- `cellForRowAt`: the block that it dispatches to the main queue. -/
def cellForRow (events : List (Event K Image)) (row : Nat) : Option (ImageBlock K Image) :=
  events[row]?.map (fun event => ⟨event, row⟩)

/-- The block, run on the list as it is then.  `download` stands for `URL(string:)`,
    `Data(contentsOf:)` and `UIImage(data:)`, when they succeed. -/
def ImageBlock.run (download : String → Image) (block : ImageBlock K Image)
    (events : List (Event K Image)) : Except Fault (List (Event K Image)) :=
  match block.event.photoString with
  | none => .error .nilUnwrapped
  | some url =>
    let image := download url
    -- The picture is that of the captured event, the row is one of the current list.
    match setPhoto events block.row (some image) with
    | none => .error .indexOutOfRange
    | some events => .ok events

/-- The share action: name, start date and picture of the row. -/
def shareItems (events : List (Event K Image)) (row : Nat) : Option (String × String × Image) := do
  let event ← events[row]?
  some (event.name, event.startDate, ← event.photo)

theorem setPhoto_eq_some {events events' : List (Event K Image)} {row : Nat}
    {image : Option Image} :
    setPhoto events row image = some events' ↔
      row < events.length ∧ events' = events.modify row (·.withPhoto image) := by
  unfold setPhoto
  split
  · next h => simp [h, eq_comm]
  · next h => simp [h]

/-- **What a block does.** -/
theorem ImageBlock.run_eq_ok {download : String → Image} {block : ImageBlock K Image}
    {events events' : List (Event K Image)} :
    block.run download events = .ok events' ↔
      ∃ url, block.event.photoString = some url ∧ block.row < events.length ∧
        events' = events.modify block.row (·.withPhoto (some (download url))) := by
  unfold run
  cases block.event.photoString with
  | none => simp
  | some url =>
    simp only [Option.some.injEq, exists_eq_left']
    rw [← setPhoto_eq_some]
    cases setPhoto events block.row (some (download url)) <;> simp

/-- The detail screen shows the photo of its row. -/
theorem photo_of_prepare {events : List (Event K Image)} {row : Nat}
    {screen : EventDescriptionViewController K Image} (h : prepare events row = some screen) :
    ∃ e, events[row]? = some e ∧ e.photo = some screen.eventPhoto ∧
      e.photoString = some screen.eventPhotoString := by
  obtain ⟨e, he, hphoto, -, -, -, -, -, -, -, hurl, -⟩ := prepare_eq_some.mp h
  exact ⟨e, he, hphoto, hurl⟩

theorem photo_of_shareItems {events : List (Event K Image)} {row : Nat} {name startDate : String}
    {image : Image} (h : shareItems events row = some (name, startDate, image)) :
    ∃ e, events[row]? = some e ∧ e.photo = some image := by
  simp only [shareItems, Option.bind_eq_bind, Option.bind_eq_some_iff, Option.some.injEq,
    Prod.mk.injEq] at h
  rcases h with ⟨e, he, photo, hphoto, -, -, rfl⟩
  exact ⟨e, he, hphoto⟩

/-- The share action needs the photo of its row. -/
theorem shareItems_isSome {events : List (Event K Image)} {row : Nat} {e : Event K Image}
    (hrow : events[row]? = some e) : (shareItems events row).isSome ↔ e.photo.isSome := by
  cases hphoto : e.photo <;> simp [shareItems, hrow, hphoto]

/-- The detail screen needs nine fields of its row. -/
theorem prepare_isSome {events : List (Event K Image)} {row : Nat} {e : Event K Image}
    (hrow : events[row]? = some e) :
    (prepare events row).isSome ↔
      e.photo.isSome ∧ e.place.isSome ∧ e.endDate.isSome ∧ e.startHour.isSome ∧
        e.endHour.isSome ∧ e.country.isSome ∧ e.city.isSome ∧ e.street.isSome ∧
        e.photoString.isSome := by
  constructor
  · intro h
    obtain ⟨screen, hscreen⟩ := Option.isSome_iff_exists.mp h
    obtain ⟨e', he', hphoto, hplace, hend, hstart, hendHour, hcountry, hcity, hstreet, hurl, -⟩ :=
      prepare_eq_some.mp hscreen
    obtain rfl : e = e' := Option.some.inj (hrow.symm.trans he')
    simp [hphoto, hplace, hend, hstart, hendHour, hcountry, hcity, hstreet, hurl]
  · intro h
    simp only [Option.isSome_iff_exists] at h
    rcases h with ⟨⟨photo, hphoto⟩, ⟨place, hplace⟩, ⟨endDate, hend⟩, ⟨startHour, hstart⟩,
      ⟨endHour, hendHour⟩, ⟨country, hcountry⟩, ⟨city, hcity⟩, ⟨street, hstreet⟩, ⟨url, hurl⟩⟩
    let screen : EventDescriptionViewController K Image := {
      eventName := e.name
      eventPhoto := photo
      eventDescriptionVar := e.description
      eventPlace := place
      eventStartDate := e.startDate
      eventEndDate := endDate
      eventStarHour := startHour
      eventEndHour := endHour
      eventPrice := e.cost
      eventCountry := country
      eventCity := city
      eventStreet := street
      eventId := e.id
      eventPhotoString := url }
    have hscreen : prepare events row = some screen :=
      prepare_eq_some.mpr ⟨e, hrow, hphoto, hplace, hend, hstart, hendHour, hcountry, hcity,
        hstreet, hurl, rfl, rfl, rfl, rfl, rfl⟩
    simp [hscreen]

end MeetupApp
