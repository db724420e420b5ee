import MeetupApp.Controllers.QR
import MeetupApp.DataBase.Firebase

/-! # Controllers/TicketsViewController.swift

    The tickets screen: its list `events2`, the two callbacks by which it
    appears, the completion that assigns the list, the cell of a row with the
    block that loads its picture, and `prepare(for:sender:)`, which opens the
    codes of one row.

    A callback either starts a load or empties the list.  The load is for the
    user who is signed in when the callback runs: `Ticket.loadTickets` reads the
    current user again, in the same call. -/

namespace MeetupApp

variable {K Image : Type}

/-! ## Section 1: The screen -/

/-- `class TicketsViewController`, as far as its list is concerned. -/
structure TicketsViewController (K Image : Type) where
  events2 : List (Event K Image)

/-- `class TicketTableViewCell`, the contents of its outlets. -/
structure TicketTableViewCell (Image : Type) where
  eventTitle : String
  dateTitle : String
  eventImage : Option Image

/-- `URL(string:)`, `try? Data(contentsOf:)` and `UIImage(data:)`, each `nil` where it
    fails. -/
structure Pictures (Address Image : Type) where
  url : String → Option Address
  contents : Address → Option Data
  image : Data → Option Image

/-- The picture stored under this string can be downloaded. -/
def Pictures.Available {Address : Type} (pictures : Pictures Address Image)
    (photoString : String) : Prop :=
  ∃ url data, pictures.url photoString = some url ∧ pictures.contents url = some data

namespace TicketsViewController

variable {Address : Type}

/-- What a callback leads to: the screen after it, and the user whose records it asked for. -/
abbrev Outcome (K Image : Type) := TicketsViewController K Image × Option K

/-- The common body of the callbacks. -/
def reload (screen : TicketsViewController K Image) (currentUser : Option K) : Outcome K Image :=
  match currentUser with
  | some uid => (screen, some uid)
  | none => ({ screen with events2 := [] }, none)

/-- `viewDidLoad` -/
def viewDidLoad (screen : TicketsViewController K Image) (currentUser : Option K) :
    Outcome K Image :=
  screen.reload currentUser

/-- `viewDidAppear` -/
def viewDidAppear (screen : TicketsViewController K Image) (currentUser : Option K) :
    Outcome K Image :=
  screen.reload currentUser

/-- The completion that `loadDatas` passes on: the list is replaced, whoever is signed in. -/
def loadDatasCompleted (screen : TicketsViewController K Image) (events : List (Event K Image)) :
    TicketsViewController K Image :=
  { screen with events2 := events }

/-- `cellForRowAt` on a dequeued cell, up to the block that it dispatches to the main
    queue; `none` where the row does not exist. -/
def cellForRow (screen : TicketsViewController K Image) (row : Nat)
    (cell : TicketTableViewCell Image) : Option (TicketTableViewCell Image) := do
  let event ← screen.events2[row]?
  some { cell with
    eventTitle := event.name
    dateTitle := "Start: " ++ event.startDate }

/-- The block of `cellForRowAt`.  It reads the list as it is then; `none` where the row does
    not exist any more or a forced unwrap traps.  Data that is no image leaves the cell
    without one. -/
def imageBlock (pictures : Pictures Address Image) (screen : TicketsViewController K Image)
    (row : Nat) (cell : TicketTableViewCell Image) : Option (TicketTableViewCell Image) := do
  let event ← screen.events2[row]?
  let url ← pictures.url (← event.photoString)
  let data ← pictures.contents url
  some { cell with eventImage := pictures.image data }

/-- `prepare(for:sender:)`: `none` where the row does not exist or has no tickets. -/
def prepare (screen : TicketsViewController K Image) (sender : Nat) :
    Option (QRViewController Image) := do
  let event ← screen.events2[sender]?
  some (QRViewController.prepared event.name (← event.tickets))

/-- A row with tickets opens the screen of its codes. -/
theorem prepare_eq {screen : TicketsViewController K Image} {sender : Nat} {event : Event K Image}
    {tickets : List String} (hrow : screen.events2[sender]? = some event)
    (htickets : event.tickets = some tickets) :
    screen.prepare sender = some (QRViewController.prepared event.name tickets) := by
  simp [prepare, hrow, htickets]

/-- The block of a row traps exactly when the row has no picture, or one that cannot be
    downloaded. -/
theorem imageBlock_isSome {pictures : Pictures Address Image}
    {screen : TicketsViewController K Image} {row : Nat} {cell : TicketTableViewCell Image}
    {event : Event K Image} (hrow : screen.events2[row]? = some event) :
    (screen.imageBlock pictures row cell).isSome ↔
      ∃ photoString, event.photoString = some photoString ∧ pictures.Available photoString := by
  cases hphoto : event.photoString with
  | none => simp [imageBlock, hrow, hphoto]
  | some photoString =>
    cases hurl : pictures.url photoString with
    | none => simp [imageBlock, Pictures.Available, hrow, hphoto, hurl]
    | some url =>
      cases hdata : pictures.contents url <;>
        simp [imageBlock, Pictures.Available, hrow, hphoto, hurl, hdata]

end TicketsViewController

end MeetupApp
