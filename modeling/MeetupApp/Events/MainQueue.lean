import MeetupApp.Controllers.Events

/-! # The list screen and its image blocks

    The main queue of the list screen: loads that complete, cells that are
    requested, and the blocks that the cells dispatched, which run later and in
    the order of dispatch.

    A block takes the picture from the event it captured and stores it into the
    row it captured, of whatever list is current when it runs.  The result says
    when the two still belong together. -/

namespace MeetupApp.Events

open Firebase

variable {K Image : Type}

/-! ## Section 1: The machine -/

structure State (K Image : Type) where
  events : List (Event K Image)
  /-- blocks that were dispatched and have not run, oldest first -/
  queue : List (ImageBlock K Image)
  /-- how the process ended, if it has -/
  fault : Option Fault
  /-- rows whose picture was stored since the list was loaded -/
  ran : List Nat

inductive Label (K : Type) where
  /-- The completion of `loadEventInfo` runs with the children of `/events`. -/
  | delivered (children : List (K × Value))
  /-- The table view asks for the cell of a row. -/
  | cellForRow (row : Nat)
  /-- The oldest block runs. -/
  | runBlock

def State.initial : State K Image where
  events := []
  queue := []
  fault := none
  ran := []

/-- `self.events = eventsAux` -/
def State.load (s : State K Image) (loaded : List (Event K Image)) : State K Image :=
  { s with events := loaded, ran := [] }

def State.dispatch (s : State K Image) (block : ImageBlock K Image) : State K Image :=
  { s with queue := s.queue ++ [block] }

/-- A block trapped. -/
def State.halt (s : State K Image) (rest : List (ImageBlock K Image)) (fault : Fault) :
    State K Image :=
  { s with queue := rest, fault := some fault }

/-- A block stored the picture of row `row`. -/
def State.store (s : State K Image) (rest : List (ImageBlock K Image)) (row : Nat)
    (events : List (Event K Image)) : State K Image :=
  { s with events := events, queue := rest, ran := row :: s.ran }

/-- One step; `none` when it is not enabled, when the decoder traps, and after a trap. -/
def step (download : String → Image) (s : State K Image) (l : Label K) : Option (State K Image) :=
  match s.fault with
  | some _ => none
  | none =>
    match l with
    | .delivered children => (Event.loadTickets children).map s.load
    | .cellForRow row => (cellForRow s.events row).map s.dispatch
    | .runBlock =>
      match s.queue with
      | [] => none
      | block :: rest =>
        match block.run download s.events with
        | .error fault => some (s.halt rest fault)
        | .ok events => some (s.store rest block.row events)

/-- The list after the picture `image` was stored into row `row`. -/
abbrev stored (events : List (Event K Image)) (row : Nat) (image : Image) :
    List (Event K Image) :=
  events.modify row (·.withPhoto (some image))

/-! ## Section 2: What a step can do -/

section step
variable {download : String → Image} {s s' : State K Image}

theorem step_delivered {children : List (K × Value)}
    (h : step download s (.delivered children) = some s') :
    s.fault = none ∧ ∃ loaded, Event.loadTickets children = some loaded ∧ s' = s.load loaded := by
  unfold step at h
  split at h
  · cases h
  · next halive =>
    obtain ⟨loaded, hload, rfl⟩ := Option.map_eq_some_iff.mp h
    exact ⟨halive, loaded, hload, rfl⟩

theorem step_cellForRow {row : Nat} (h : step download s (.cellForRow row) = some s') :
    s.fault = none ∧ ∃ event, s.events[row]? = some event ∧ s' = s.dispatch ⟨event, row⟩ := by
  unfold step at h
  split at h
  · cases h
  · next halive =>
    obtain ⟨block, hblock, rfl⟩ := Option.map_eq_some_iff.mp h
    obtain ⟨event, hevent, rfl⟩ := Option.map_eq_some_iff.mp hblock
    exact ⟨halive, event, hevent, rfl⟩

/-- **Everything a block can do**: trap on an event without a picture or on a row that is
    not there any more, or store the picture. -/
theorem step_runBlock (h : step download s .runBlock = some s') :
    s.fault = none ∧ ∃ block rest, s.queue = block :: rest ∧
      ((block.event.photoString = none ∧ s' = s.halt rest .nilUnwrapped) ∨
       (∃ url, block.event.photoString = some url ∧ s.events.length ≤ block.row ∧
          s' = s.halt rest .indexOutOfRange) ∨
       (∃ url, block.event.photoString = some url ∧ block.row < s.events.length ∧
          s' = s.store rest block.row (stored s.events block.row (download url)))) := by
  unfold step at h
  split at h
  · cases h
  · next halive =>
    simp only at h
    split at h
    · cases h
    · next block rest hqueue =>
      refine ⟨halive, block, rest, hqueue, ?_⟩
      unfold ImageBlock.run setPhoto at h
      cases hurl : block.event.photoString with
      | none =>
        simp only [hurl] at h
        exact Or.inl ⟨rfl, (Option.some.inj h).symm⟩
      | some url =>
        by_cases hrow : block.row < s.events.length
        · simp only [hurl, if_pos hrow] at h
          exact Or.inr (Or.inr ⟨url, rfl, hrow, (Option.some.inj h).symm⟩)
        · simp only [hurl, if_neg hrow] at h
          exact Or.inr (Or.inl ⟨url, rfl, by omega, (Option.some.inj h).symm⟩)

end step

/-- What a step does to the list is nothing, or one step of the list on its own. -/
theorem listStep_of_step {download : String → Image} {s s' : State K Image} {l : Label K}
    (h : step download s l = some s') :
    s'.events = s.events ∨ ∃ k, listStep s.events k = some s'.events ∧
      ∀ snapshot, k = .delivered snapshot → l = .delivered snapshot := by
  cases l with
  | delivered children =>
    obtain ⟨-, loaded, hload, rfl⟩ := step_delivered h
    refine Or.inr ⟨.delivered children, hload, ?_⟩
    intro snapshot hk
    injection hk with hk
    rw [hk]
  | cellForRow row =>
    obtain ⟨-, event, -, rfl⟩ := step_cellForRow h
    exact Or.inl rfl
  | runBlock =>
    obtain ⟨-, block, rest, -, hcases⟩ := step_runBlock h
    rcases hcases with ⟨-, rfl⟩ | ⟨url, -, -, rfl⟩ | ⟨url, -, hlt, rfl⟩
    · exact Or.inl rfl
    · exact Or.inl rfl
    · refine Or.inr ⟨.imageLoaded block.row (some (download url)), ?_, fun _ hk => (nomatch hk)⟩
      exact setPhoto_eq_some.mpr ⟨hlt, rfl⟩

/-- **Refinement.**  Forgetting the queue, a run of the screen is a run of its list, with
    the same loads. -/
theorem listRun_of_run {download : String → Image} {ls : List (Label K)} {s : State K Image}
    (hrun : Runs.exec (step download) State.initial ls = some s) :
    ∃ ks, Runs.exec listStep [] ks = some s.events ∧
      ∀ snapshot, .delivered snapshot ∈ ks → .delivered snapshot ∈ ls := by
  refine Runs.exec_preserves_trace (fun tr (t : State K Image) =>
    ∃ ks, Runs.exec listStep [] ks = some t.events ∧
      ∀ snapshot, .delivered snapshot ∈ ks → .delivered snapshot ∈ tr) ?_ ?_ hrun
  · intro tr t l t' hinv hstep
    obtain ⟨ks, hks, hloads⟩ := hinv
    rcases listStep_of_step hstep with hsame | ⟨k, hk, hload⟩
    · refine ⟨ks, by rw [hsame]; exact hks, ?_⟩
      intro snapshot hmem
      exact List.mem_append_left _ (hloads snapshot hmem)
    · refine ⟨ks ++ [k], ?_, ?_⟩
      · rw [Runs.exec_append, hks, Option.bind_some]
        exact Runs.exec_cons_of_step hk rfl
      · intro snapshot hmem
        rcases List.mem_append.mp hmem with hmem | hmem
        · exact List.mem_append_left _ (hloads snapshot hmem)
        · have hlast := hload snapshot (List.mem_singleton.mp hmem).symm
          exact List.mem_append_right _ (List.mem_singleton.mpr hlast.symm)
  · exact ⟨[], rfl, fun _ hmem => (nomatch hmem)⟩

/-- As long as `/events` does not change, the rows of the screen are its records, whatever
    was loaded, requested and stored. -/
theorem shows_of_queue {download : String → Image} {children : List (K × Value)}
    {loaded : List (Event K Image)} (hload : Event.loadTickets children = some loaded)
    {ls : List (Label K)} {s : State K Image}
    (hls : ∀ snapshot, .delivered snapshot ∈ ls → snapshot = children)
    (hrun : Runs.exec (step download) State.initial ls = some s) : Shows loaded s.events := by
  obtain ⟨ks, hks, hloads⟩ := listRun_of_run hrun
  exact shows_of_run hload (fun snapshot hmem => hls snapshot (hloads snapshot hmem)) hks

/-! ## Section 3: Pictures and their events -/

/-- The event has no picture, or the one of its own URL. -/
def OwnPhoto (download : String → Image) (e : Event K Image) : Prop :=
  e.photo = none ∨ ∃ url, e.photoString = some url ∧ e.photo = some (download url)

/-- No block missed its row, and what the list, the detail screen and the share screen show
    of an event is its own picture. -/
structure Attached (download : String → Image) (s : State K Image) : Prop where
  inRange : s.fault ≠ some .indexOutOfRange
  own : ∀ (row : Nat) (e : Event K Image), s.events[row]? = some e → OwnPhoto download e
  detail : ∀ row screen, prepare s.events row = some screen →
    screen.eventPhoto = download screen.eventPhotoString
  share : ∀ row name startDate image, shareItems s.events row = some (name, startDate, image) →
    ∃ e url, s.events[row]? = some e ∧ e.photoString = some url ∧ image = download url

/-- The two screens show the photos of the list. -/
theorem attached_of_own {download : String → Image} {s : State K Image}
    (hrange : s.fault ≠ some .indexOutOfRange)
    (hown : ∀ (row : Nat) (e : Event K Image), s.events[row]? = some e → OwnPhoto download e) :
    Attached download s where
  inRange := hrange
  own := hown
  detail row screen h := by
    obtain ⟨e, hrow, hphoto, hurl⟩ := photo_of_prepare h
    rcases hown row e hrow with hnone | ⟨url, hurl', hphoto'⟩
    · rw [hnone] at hphoto
      cases hphoto
    · obtain rfl : screen.eventPhotoString = url := Option.some.inj (hurl.symm.trans hurl')
      exact Option.some.inj (hphoto.symm.trans hphoto')
  share row name startDate image h := by
    obtain ⟨e, hrow, hphoto⟩ := photo_of_shareItems h
    rcases hown row e hrow with hnone | ⟨url, hurl, hphoto'⟩
    · rw [hnone] at hphoto
      cases hphoto
    · exact ⟨e, url, hrow, hurl, Option.some.inj (hphoto.symm.trans hphoto')⟩

/-- Where a block with a picture runs, its row exists, and the event that is now in it loads
    the same picture. -/
def RowKept (download : String → Image) (s : State K Image) (l : Label K) : Prop :=
  l = .runBlock → ∀ block rest, s.queue = block :: rest →
    ∀ url, block.event.photoString = some url →
      ∃ e url', s.events[block.row]? = some e ∧ e.photoString = some url' ∧
        download url' = download url

/-- A list just loaded has no pictures. -/
theorem ownPhoto_of_loaded {download : String → Image} {children : List (K × Value)}
    {loaded : List (Event K Image)} (hload : Event.loadTickets children = some loaded)
    {row : Nat} {e : Event K Image} (hrow : loaded[row]? = some e) : OwnPhoto download e := by
  obtain ⟨key, value, -, hdec⟩ := Event.row_of_loadTickets hload hrow
  exact Or.inl hdec.photo

/-- Storing a picture keeps every event with its own exactly when the row's event loads it. -/
theorem own_stored {download : String → Image} {events : List (Event K Image)}
    (hown : ∀ (row : Nat) (e : Event K Image), events[row]? = some e → OwnPhoto download e)
    {row : Nat} (url : String) (hlt : row < events.length) :
    (∀ (i : Nat) (e : Event K Image), (stored events row (download url))[i]? = some e →
        OwnPhoto download e) ↔
      ∃ e url', events[row]? = some e ∧ e.photoString = some url' ∧
        download url' = download url := by
  constructor
  · intro h
    have hrow : events[row]? = some events[row] := List.getElem?_eq_getElem hlt
    have hnew : (stored events row (download url))[row]?
        = some (events[row].withPhoto (some (download url))) := by
      rw [stored, List.getElem?_modify, hrow]
      simp
    rcases h row _ hnew with hnone | ⟨url', hurl', hphoto⟩
    · cases hnone
    · exact ⟨events[row], url', hrow, hurl', (Option.some.inj hphoto).symm⟩
  · intro h i e he
    obtain ⟨a, url', ha, hurl', hsame⟩ := h
    rw [stored, List.getElem?_modify] at he
    obtain ⟨b, hb, rfl⟩ := Option.map_eq_some_iff.mp he
    by_cases hi : row = i
    · subst hi
      obtain rfl : a = b := Option.some.inj (ha.symm.trans hb)
      rw [if_pos rfl]
      exact Or.inr ⟨url', hurl', by rw [hsame]; rfl⟩
    · rw [if_neg hi]
      exact hown i b hb

/-- **One step.**  From a state in which the pictures are attached, a step leads to
    another one exactly when it keeps to its row. -/
theorem attached_step {download : String → Image} {s s' : State K Image} {l : Label K}
    (hs : Attached download s) (h : step download s l = some s') :
    Attached download s' ↔ RowKept download s l := by
  cases l with
  | delivered children =>
    obtain ⟨halive, loaded, hload, rfl⟩ := step_delivered h
    have hafter : Attached download (s.load loaded) :=
      attached_of_own hs.inRange (fun _ _ hrow => ownPhoto_of_loaded hload hrow)
    exact ⟨fun _ hl => (nomatch hl), fun _ => hafter⟩
  | cellForRow row =>
    obtain ⟨halive, event, -, rfl⟩ := step_cellForRow h
    have hafter : Attached download (s.dispatch ⟨event, row⟩) := attached_of_own hs.inRange hs.own
    exact ⟨fun _ hl => (nomatch hl), fun _ => hafter⟩
  | runBlock =>
    obtain ⟨halive, block, rest, hqueue, hcases⟩ := step_runBlock h
    -- The oldest block is the only one the condition speaks of.
    have hkept : RowKept download s .runBlock ↔ ∀ url, block.event.photoString = some url →
        ∃ e url', s.events[block.row]? = some e ∧ e.photoString = some url' ∧
          download url' = download url := by
      constructor
      · intro hk
        exact hk rfl block rest hqueue
      · rintro hk - b r hbr
        obtain ⟨rfl, -⟩ := List.cons.inj (hqueue.symm.trans hbr)
        exact hk
    rw [hkept]
    rcases hcases with ⟨hnone, rfl⟩ | ⟨url, hurl, hlen, rfl⟩ | ⟨url, hurl, hlt, rfl⟩
    · have hafter : Attached download (s.halt rest .nilUnwrapped) :=
        attached_of_own (by simp [State.halt]) hs.own
      refine ⟨fun _ url hurl => ?_, fun _ => hafter⟩
      rw [hnone] at hurl
      cases hurl
    · constructor
      · intro hafter
        exact absurd rfl hafter.inRange
      · intro hk
        obtain ⟨e, -, hrow, -⟩ := hk url hurl
        rw [List.getElem?_eq_none hlen] at hrow
        cases hrow
    · have hiff := own_stored hs.own url hlt
      constructor
      · intro hafter url' hurl'
        obtain rfl : url = url' := Option.some.inj (hurl.symm.trans hurl')
        exact hiff.mp hafter.own
      · intro hk
        exact attached_of_own hs.inRange (hiff.mpr (hk url hurl))

/-- **Pictures stay with their events** over a whole run of the list screen exactly when
    every block that runs still finds its row, with an event of the same picture. -/
theorem attached_iff_rowKept (download : String → Image) {ls : List (Label K)}
    {s : State K Image} (hrun : Runs.exec (step download) State.initial ls = some s) :
    Runs.AlongRun (step download) (Attached download) State.initial ls ↔
      Runs.StepsMeet (step download) (RowKept download) State.initial ls := by
  have hinitial : Attached download (State.initial : State K Image) :=
    attached_of_own (by simp [State.initial]) (by simp [State.initial])
  refine Runs.alongRun_iff_stepsMeet (J := fun _ => True) (fun _ _ _ _ _ => trivial) ?_ trivial
    hinitial hrun
  intro t l t' _ ht hstep
  exact attached_step ht hstep

/-- A record of `/events` with what the decoder insists on, and these fields. -/
def eventRecord (optional : List (String × Value)) : Value :=
  .dict ([("Name", .string "Concert"), ("Description", .string "An evening of music"),
    ("StartDate", .string "10/05/2019"), ("Price", .number 100)] ++ optional)

def posterRecord (image : String) : Value :=
  eventRecord [("Image", .string image)]

/-- Two runs with a reload between the request of a cell and its block.  In the first one
    the row is gone and the block traps; in the second one another event has moved into
    the row and gets the picture. -/
theorem reload_before_block :
    (∃ s : State String String,
      Runs.exec (step id) State.initial
        [.delivered [("e1", posterRecord "e1.png"), ("e2", posterRecord "e2.png")],
          .cellForRow 1, .delivered [("e1", posterRecord "e1.png")], .runBlock] = some s ∧
      s.fault = some .indexOutOfRange ∧ ¬ Attached id s) ∧
    (∃ (s : State String String) (e : Event String String),
      Runs.exec (step id) State.initial
        [.delivered [("e2", posterRecord "e2.png")], .cellForRow 0,
          .delivered [("e1", posterRecord "e1.png"), ("e2", posterRecord "e2.png")], .runBlock]
        = some s ∧
      s.events[0]? = some e ∧ e.photoString = some "e1.png" ∧ e.photo = some "e2.png" ∧
      ¬ Attached id s) := by
  refine ⟨⟨_, rfl, rfl, ?_⟩, ⟨_, _, rfl, rfl, rfl, rfl, ?_⟩⟩
  · intro h
    exact h.inRange rfl
  · intro h
    rcases h.own 0 _ rfl with hnone | ⟨url, hurl, hphoto⟩
    · cases hnone
    · have hsame : some "e2.png" = some "e1.png" := hphoto.trans hurl.symm
      exact absurd hsame (by decide)

/-- Two cells whose blocks run before the list is loaded again. -/
theorem attached_iff_rowKept_two :
    ∃ s : State String String,
      Runs.exec (step id) State.initial
        [.delivered [("e1", posterRecord "e1.png"), ("e2", posterRecord "e2.png")],
          .cellForRow 0, .cellForRow 1, .runBlock, .runBlock] = some s ∧
      (Runs.AlongRun (step id) (Attached id) State.initial
          [.delivered [("e1", posterRecord "e1.png"), ("e2", posterRecord "e2.png")],
            .cellForRow 0, .cellForRow 1, .runBlock, .runBlock] ↔
        Runs.StepsMeet (step id) (RowKept id) State.initial
          [.delivered [("e1", posterRecord "e1.png"), ("e2", posterRecord "e2.png")],
            .cellForRow 0, .cellForRow 1, .runBlock, .runBlock]) :=
  ⟨_, rfl, attached_iff_rowKept id rfl⟩

end MeetupApp.Events
