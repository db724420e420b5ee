import MeetupApp.Events.MainQueue

/-! # Which rows of the list can be used

    Three consumers read a row of the list: the image block of its cell, the share
    action and the detail screen.  The decoder admits records in which fields are
    missing that the consumers unwrap, and it leaves the photo to the block.

    The result says exactly when a row can be used, at any moment between one
    load and the next. -/

namespace MeetupApp.Events

open Firebase

variable {K Image : Type}

/-! ## Section 1: Between two loads -/

def Label.isDelivered : Label K → Bool
  | .delivered _ => true
  | _ => false

/-- The list is the one that was loaded, with the pictures stored since. -/
structure Listing (loaded : List (Event K Image)) (s : State K Image) : Prop where
  rows : Shows loaded s.events
  length : s.events.length = loaded.length
  photo : ∀ (row : Nat) (e : Event K Image), s.events[row]? = some e →
    (e.photo.isSome ↔ row ∈ s.ran)

theorem listing_load {children : List (K × Value)} {loaded : List (Event K Image)}
    (hload : Event.loadTickets children = some loaded) (s : State K Image) :
    Listing loaded (s.load loaded) where
  rows := shows_loaded loaded
  length := rfl
  photo row e hrow := by
    obtain ⟨key, value, -, hdec⟩ := Event.row_of_loadTickets hload hrow
    simp [hdec.photo, State.load]

/-- A stored picture is the only thing that changes in the list, and it is noted. -/
theorem listing_store {loaded : List (Event K Image)} {s : State K Image}
    (h : Listing loaded s) (rest : List (ImageBlock K Image)) {row : Nat} (image : Image)
    (hlt : row < s.events.length) :
    Listing loaded (s.store rest row (stored s.events row image)) where
  rows := shows_setPhoto h.rows (setPhoto_eq_some.mpr ⟨hlt, rfl⟩)
  length := by
    show (stored s.events row image).length = _
    rw [stored, List.length_modify, h.length]
  photo i e he := by
    have hmodified : (stored s.events row image)[i]? = some e := he
    rw [stored, List.getElem?_modify] at hmodified
    obtain ⟨a, ha, rfl⟩ := Option.map_eq_some_iff.mp hmodified
    have hbefore := h.photo i a ha
    by_cases hi : row = i
    · subst hi
      simp [State.store, Event.withPhoto]
    · simp [State.store, hi, Ne.symm hi, hbefore]

/-- What a step other than a load keeps. -/
theorem listing_step {download : String → Image} {loaded : List (Event K Image)}
    {s s' : State K Image} {l : Label K} (hl : l.isDelivered = false) (h : Listing loaded s)
    (hstep : step download s l = some s') : Listing loaded s' := by
  cases l with
  | delivered children => cases hl
  | cellForRow row =>
    obtain ⟨-, event, -, rfl⟩ := step_cellForRow hstep
    exact ⟨h.rows, h.length, h.photo⟩
  | runBlock =>
    obtain ⟨-, block, rest, -, hcases⟩ := step_runBlock hstep
    rcases hcases with ⟨-, rfl⟩ | ⟨url, -, -, rfl⟩ | ⟨url, -, hlt, rfl⟩
    · exact ⟨h.rows, h.length, h.photo⟩
    · exact ⟨h.rows, h.length, h.photo⟩
    · exact listing_store h rest (download url) hlt

/-- At every moment between two loads the list is the one of the first. -/
theorem listing_of_run {download : String → Image} {loaded : List (Event K Image)}
    {s s' : State K Image} {ls : List (Label K)} (hls : ∀ l ∈ ls, l.isDelivered = false)
    (h : Listing loaded s) (hrun : Runs.exec (step download) s ls = some s') :
    Listing loaded s' :=
  Runs.exec_preserves_of_labels (fun l => l.isDelivered = false) (Listing loaded)
    (fun _ _ _ hl hlisting hstep => listing_step hl hlisting hstep) hls h hrun

/-- A row of the list is the decoded record of its row, but for the photo. -/
theorem Listing.row {children : List (K × Value)} {loaded : List (Event K Image)}
    (hload : Event.loadTickets children = some loaded) {s : State K Image}
    (h : Listing loaded s) {row : Nat} {key : K} {value : Value}
    (hrow : children[row]? = some (key, value)) :
    ∃ e, s.events[row]? = some e ∧ e.OptionalsFrom value ∧ (e.photo.isSome ↔ row ∈ s.ran) := by
  obtain ⟨e', he', hdec⟩ := Event.decoded_row hload hrow
  have hlt : row < s.events.length := by
    rw [h.length]
    exact (List.getElem?_eq_some_iff.mp he').1
  have he : s.events[row]? = some s.events[row] := List.getElem?_eq_getElem hlt
  obtain ⟨a, ha, hsame⟩ := h.rows row _ he
  obtain rfl : e' = a := Option.some.inj (he'.symm.trans ha)
  have hfrom := Event.optionalsFrom hdec
  refine ⟨_, he, ?_, h.photo row _ he⟩
  rw [hsame]
  exact ⟨hfrom.photoString, hfrom.place, hfrom.endDate, hfrom.startHour, hfrom.endHour,
    hfrom.country, hfrom.city, hfrom.street⟩

/-! ## Section 2: The consumers -/

/-- The three consumers of a row complete. -/
structure Usable (download : String → Image) (events : List (Event K Image)) (row : Nat) :
    Prop where
  block : ∃ b events', cellForRow events row = some b ∧ b.run download events = .ok events'
  share : (shareItems events row).isSome
  detail : (prepare events row).isSome

/-- The fields that the consumers unwrap and the decoder does not ask for. -/
def unwrappedFields : List String :=
  ["Image", "Map", "EndDate", "StartHour", "EndHour", "Country", "City", "Street"]

/-- The block needs the URL of its event. -/
theorem block_iff (download : String → Image) {events : List (Event K Image)} {row : Nat}
    {e : Event K Image} (hrow : events[row]? = some e) :
    (∃ b events', cellForRow events row = some b ∧ b.run download events = .ok events') ↔
      e.photoString.isSome := by
  have hcell : cellForRow events row = some ⟨e, row⟩ := by simp [cellForRow, hrow]
  have hlt : row < events.length := (List.getElem?_eq_some_iff.mp hrow).1
  constructor
  · intro h
    rcases h with ⟨b, events', hb, hrun⟩
    obtain rfl := Option.some.inj (hcell.symm.trans hb)
    obtain ⟨url, hurl, -⟩ := ImageBlock.run_eq_ok.mp hrun
    exact Option.isSome_iff_exists.mpr ⟨url, hurl⟩
  · intro h
    obtain ⟨url, hurl⟩ := Option.isSome_iff_exists.mp h
    exact ⟨_, _, hcell, ImageBlock.run_eq_ok.mpr ⟨url, hurl, hlt, rfl⟩⟩

/-- An optional field of a decoded event is there when the record has a string for it. -/
theorem isSome_of_field {o : Option String} {value : Value} {name : String}
    (h : o = castString (field (some value) name)) :
    o.isSome ↔ ∃ text, field (some value) name = some (.string text) := by
  rw [h, Option.isSome_iff_exists]
  simp only [castString_eq_some]

/-- **Usable rows.**  At any moment after a load and before the next one, the image block of
    a row, its share action and its detail screen complete exactly when the record of the
    row has all the fields they unwrap, and an image block has run for the row since. -/
theorem usable_iff (download : String → Image) {children : List (K × Value)}
    {s₀ s₁ s : State K Image} (hdelivered : step download s₀ (.delivered children) = some s₁)
    {ls : List (Label K)} (hls : ∀ l ∈ ls, l.isDelivered = false)
    (hrun : Runs.exec (step download) s₁ ls = some s) {row : Nat} {key : K} {value : Value}
    (hrow : children[row]? = some (key, value)) :
    Usable download s.events row ↔
      (∀ name ∈ unwrappedFields, ∃ text, field (some value) name = some (.string text)) ∧
        row ∈ s.ran := by
  obtain ⟨-, loaded, hload, rfl⟩ := step_delivered hdelivered
  have hlisting := listing_of_run hls (listing_load hload s₀) hrun
  obtain ⟨e, he, hfrom, hphoto⟩ := hlisting.row hload hrow
  have husable : Usable download s.events row ↔ e.photoString.isSome ∧ e.photo.isSome ∧
      (prepare s.events row).isSome := by
    rw [← block_iff download he, ← shareItems_isSome he]
    exact ⟨fun h => ⟨h.block, h.share, h.detail⟩, fun h => ⟨h.1, h.2.1, h.2.2⟩⟩
  rw [husable, prepare_isSome he, hphoto, isSome_of_field hfrom.photoString,
    isSome_of_field hfrom.place, isSome_of_field hfrom.endDate, isSome_of_field hfrom.startHour,
    isSome_of_field hfrom.endHour, isSome_of_field hfrom.country, isSome_of_field hfrom.city,
    isSome_of_field hfrom.street]
  simp only [unwrappedFields, List.forall_mem_cons]
  constructor
  · intro h
    rcases h with ⟨himage, hran, -, hmap, hend, hstart, hendHour, hcountry, hcity, hstreet, -⟩
    exact ⟨⟨himage, hmap, hend, hstart, hendHour, hcountry, hcity, hstreet, by simp⟩, hran⟩
  · intro h
    rcases h with ⟨⟨himage, hmap, hend, hstart, hendHour, hcountry, hcity, hstreet, -⟩, hran⟩
    exact ⟨himage, hran, hran, hmap, hend, hstart, hendHour, hcountry, hcity, hstreet, himage⟩

/-- A record of `/events` with every field. -/
def fullRecord : Value :=
  eventRecord (unwrappedFields.map (fun name => (name, .string name)))

/-- Three records that the decoder admits.  The image block of the first one traps, for the
    record has no picture; the second one has a picture, and the detail screen traps for
    lack of a date; the third one has all fields, and both actions trap before its block
    has run. -/
theorem admitted_records_trap :
    (∃ s : State String String, Runs.exec (step id) State.initial
        [.delivered [("e1", eventRecord [])], .cellForRow 0, .runBlock] = some s ∧
      s.fault = some .nilUnwrapped ∧ ¬ Usable id s.events 0) ∧
    (∃ s : State String String, Runs.exec (step id) State.initial
        [.delivered [("e1", posterRecord "e1.png")], .cellForRow 0, .runBlock] = some s ∧
      s.fault = none ∧ prepare s.events 0 = none ∧ ¬ Usable id s.events 0) ∧
    (∃ s : State String String, Runs.exec (step id) State.initial
        [.delivered [("e1", fullRecord)]] = some s ∧
      shareItems s.events 0 = none ∧ prepare s.events 0 = none ∧ ¬ Usable id s.events 0) := by
  refine ⟨⟨_, rfl, rfl, ?_⟩, ⟨_, rfl, rfl, rfl, ?_⟩, ⟨_, rfl, rfl, rfl, ?_⟩⟩
  · intro h
    exact absurd h.share (by decide)
  · intro h
    exact absurd h.detail (by decide)
  · intro h
    exact absurd h.share (by decide)

/-- A record with all fields, once its block has run. -/
theorem usable_full :
    ∃ s₁ s : State String String,
      step id State.initial (.delivered [("e1", fullRecord)]) = some s₁ ∧
      Runs.exec (step id) s₁ [.cellForRow 0, .runBlock] = some s ∧ Usable id s.events 0 := by
  have hiff : ∀ s₁ s : State String String,
      step id State.initial (.delivered [("e1", fullRecord)]) = some s₁ →
      Runs.exec (step id) s₁ [.cellForRow 0, .runBlock] = some s →
      (Usable id s.events 0 ↔ _ ∧ 0 ∈ s.ran) :=
    fun s₁ s hdelivered hrun => usable_iff id hdelivered (by simp [Label.isDelivered]) hrun rfl
  refine ⟨_, _, rfl, rfl, (hiff _ _ rfl rfl).mpr ⟨?_, by decide⟩⟩
  intro name hname
  simp only [unwrappedFields, List.mem_cons, List.not_mem_nil, or_false] at hname
  rcases hname with rfl | rfl | rfl | rfl | rfl | rfl | rfl | rfl <;> exact ⟨_, rfl⟩

end MeetupApp.Events
