import Mathlib.Algebra.Order.Ring.Rat
import Mathlib.Data.String.Basic
import MeetupApp.Models.Event

/-! # Controllers/EventDescriptionViewController.swift

    The detail screen of an event and its purchase.  A tap on Buy issues one
    read (`buyButtonTapped`); the closure passed to `Event.loadEventsTickets`
    (`buyCallback`) runs when the read is delivered.  It moves codes from the
    delivered list into the purchase one by one (`removalLoop`), issues two
    writes and presents an alert, without waiting for either write.

    `generateTickets` makes up codes from random numbers. -/

namespace MeetupApp

open Firebase

/-! ## Section 1: The screen -/

/-- The fields that `prepare(for:sender:)` of the list screen hands over. -/
structure EventDescriptionViewController (K Image : Type) where
  eventName : String
  eventPhoto : Image
  eventDescriptionVar : String
  eventPlace : String
  eventStartDate : String
  eventEndDate : String
  eventStarHour : String
  eventEndHour : String
  eventPrice : Rat
  eventCountry : String
  eventCity : String
  eventStreet : String
  eventId : K
  eventPhotoString : String

/-- The alerts of the screen. -/
inductive BuyAlert where
  | purchaseMade (total : Rat)
  | notEnoughTickets
  | notLogged
  deriving DecidableEq

def BuyAlert.title : BuyAlert → String
  | .purchaseMade _ => "Purchase made"
  | .notEnoughTickets => "Sorry"
  | .notLogged => "You're no loged"

/-- The text of an alert; `describe` is Swift's rendering of a `Double`. -/
def BuyAlert.message (describe : Rat → String) : BuyAlert → String
  | .purchaseMade total => "Total cost: " ++ describe total ++ ". Enjoy it!"
  | .notEnoughTickets => "We do not have enough tickets for the event"
  | .notLogged => "Login before to try to buy something"

variable {K Image : Type}

/-! ## Section 2: The tap -/

/-- What the closure passed to `Event.loadEventsTickets` captures at the tap. -/
structure BuyRequest (K Image : Type) where
  screen : EventDescriptionViewController K Image
  uid : K
  key : K
  numberTickets : Int

/-- `sliderChanged`: the button reacts unless the slider stands at 0. -/
def buyEnabled (currentValue : Int) : Bool :=
  if currentValue = 0 then false else true

/-- `buyButtonTapped` up to the asynchronous read: either the read of
    `eventsTickets/<key>` is issued with these captures, or the user is sent to
    the login screen. -/
def buyButtonTapped (currentUser : Option K) (self : EventDescriptionViewController K Image)
    (sliderValue : Int) : BuyRequest K Image ⊕ BuyAlert :=
  match currentUser with
  | some uid =>
    .inl { screen := self, uid := uid, key := self.eventId, numberTickets := sliderValue }
  | none => .inr .notLogged

/-! ## Section 3: The callback -/

/-- `validateNumberTickets` -/
def validateNumberTickets (numberTickets : Int) (tickets : List String) : Bool :=
  if (tickets.length : Int) < numberTickets then false else true

/-- `while (contador <= numberTickets - 1)`: `none` where `first!` or
    `removeFirst` traps on an empty list. -/
def removalLoop (numberTickets contador : Int) (tickestBuy : List String) :
    List String → Option (List String × List String)
  -- The list is empty: one more round would trap.
  | [] => if contador ≤ numberTickets - 1 then none else some (tickestBuy, [])
  | first :: rest =>
    if contador ≤ numberTickets - 1 then
      removalLoop numberTickets (contador + 1) (tickestBuy ++ [first]) rest
    else some (tickestBuy, first :: rest)

/-- `allTickets`, the object of the inventory update. -/
def inventoryObject (all remaining : List String) : Object :=
  [("AllTickets", .strings all), ("RemainingTickets", .strings remaining)]

/-- `userObject`, the object of the profile update. -/
def userObject (self : EventDescriptionViewController K Image) (tickestBuy : List String) :
    Object :=
  [("Name", .string self.eventName),
   ("Description", .string self.eventDescriptionVar),
   ("Image", .string self.eventPhotoString),
   ("Start", .string self.eventStartDate),
   ("Tickets", .strings tickestBuy)]

/-- How the callback ends. -/
inductive BuyOutcome (K : Type) where
  /-- The two updates are issued, inventory first, and the alert is presented. -/
  | purchaseMade (tickestBuy : List String) (inventory profile : Write K) (alert : BuyAlert)
  | notEnough (alert : BuyAlert)

/-- The closure of `buyButtonTapped`, run with the two lists of the loader. -/
def buyCallback (r : BuyRequest K Image) (eventRemainingTickets : List (List String)) :
    Option (BuyOutcome K) := do
  -- An index out of range traps; the loader always delivers two lists.
  let eventventRemainingTicketsOne ← eventRemainingTickets[0]?
  let eventventRemainingTicketsTwo ← eventRemainingTickets[1]?
  if validateNumberTickets r.numberTickets eventventRemainingTicketsOne then
    let (tickestBuy, eventventRemainingTicketsOne) ←
      removalLoop r.numberTickets 0 [] eventventRemainingTicketsOne
    some (.purchaseMade tickestBuy
      (.eventsTickets r.key
        (inventoryObject eventventRemainingTicketsTwo eventventRemainingTicketsOne))
      (.profileEvents r.uid r.key (userObject r.screen tickestBuy))
      (.purchaseMade (r.screen.eventPrice * r.numberTickets)))
  else
    some (.notEnough .notEnoughTickets)

/-- The read is delivered: the loader decodes the snapshot and runs the callback.
    `none` means that the process trapped. -/
def BuyRequest.deliver (r : BuyRequest K Image) (value : Option Value) : Option (BuyOutcome K) := do
  buyCallback r (← Event.loadEventsTickets value)

/-! ## Section 4: What the callback does -/

/-- The loop moves codes while the counter is below the quantity; the counter is
    what was moved so far. -/
theorem removalLoop_eq (numberTickets : Int) (contador : Nat) (tickestBuy remaining : List String)
    (h : numberTickets.toNat ≤ contador + remaining.length) :
    removalLoop numberTickets contador tickestBuy remaining
      = some (tickestBuy ++ remaining.take (numberTickets.toNat - contador),
              remaining.drop (numberTickets.toNat - contador)) := by
  -- The loop consumes the list, so the induction is on it, for every counter and every
  -- part of the purchase collected before.
  induction remaining generalizing contador tickestBuy with
  | nil =>
    have hdone : ¬ (contador : Int) ≤ numberTickets - 1 := by
      simp only [List.length_nil] at h
      omega
    simp [removalLoop, hdone]
  | cons first rest ih =>
    by_cases hmore : (contador : Int) ≤ numberTickets - 1
    · have hrest : numberTickets.toNat ≤ contador + 1 + rest.length := by
        simp only [List.length_cons] at h
        omega
      have hstep := ih (contador + 1) (tickestBuy ++ [first]) hrest
      have hpred : numberTickets.toNat - contador = numberTickets.toNat - (contador + 1) + 1 := by
        omega
      rw [removalLoop, if_pos hmore, hpred]
      simp only [List.take_succ_cons, List.drop_succ_cons]
      push_cast at hstep
      rw [hstep]
      simp
    · have hzero : numberTickets.toNat - contador = 0 := by omega
      rw [removalLoop, if_neg hmore, hzero]
      simp

theorem validateNumberTickets_iff (numberTickets : Int) (tickets : List String) :
    validateNumberTickets numberTickets tickets = true ↔ numberTickets.toNat ≤ tickets.length := by
  unfold validateNumberTickets
  split <;> simp <;> omega

/-- The purchase that a delivered inventory leads to: the first codes are sold,
    the rest stays on sale. -/
def BuyRequest.purchase (r : BuyRequest K Image) (remaining all : List String) : BuyOutcome K :=
  .purchaseMade (remaining.take r.numberTickets.toNat)
    (.eventsTickets r.key (inventoryObject all (remaining.drop r.numberTickets.toNat)))
    (.profileEvents r.uid r.key (userObject r.screen (remaining.take r.numberTickets.toNat)))
    (.purchaseMade (r.screen.eventPrice * r.numberTickets))

theorem buyCallback_eq (r : BuyRequest K Image) (remaining all : List String) :
    buyCallback r [remaining, all]
      = some (if r.numberTickets.toNat ≤ remaining.length then r.purchase remaining all
              else .notEnough .notEnoughTickets) := by
  unfold buyCallback
  by_cases h : r.numberTickets.toNat ≤ remaining.length
  · have hvalid := (validateNumberTickets_iff r.numberTickets remaining).mpr h
    have hloop := removalLoop_eq r.numberTickets 0 [] remaining (by omega)
    simp only [Nat.cast_zero, List.nil_append, Nat.sub_zero] at hloop
    simp [hvalid, hloop, h, BuyRequest.purchase]
  · have hvalid : validateNumberTickets r.numberTickets remaining = false := by
      rw [← Bool.not_eq_true, validateNumberTickets_iff]
      exact h
    simp [hvalid, h]

/-- **Everything a delivery can do.**  It traps when the snapshot does not hold
    two arrays of strings; otherwise the stock is compared with the quantity. -/
theorem BuyRequest.deliver_eq_some {r : BuyRequest K Image} {value : Option Value}
    {out : BuyOutcome K} :
    r.deliver value = some out ↔
      ∃ remaining all, castStrings (field value "RemainingTickets") = some remaining ∧
        castStrings (field value "AllTickets") = some all ∧
        out = if r.numberTickets.toNat ≤ remaining.length then r.purchase remaining all
              else .notEnough .notEnoughTickets := by
  unfold deliver
  simp only [Option.bind_eq_bind, Option.bind_eq_some_iff, Event.loadEventsTickets_eq_some]
  constructor
  · rintro ⟨lists, ⟨remaining, all, rfl, hrem, hall⟩, hout⟩
    rw [buyCallback_eq] at hout
    exact ⟨remaining, all, hrem, hall, (Option.some.inj hout).symm⟩
  · rintro ⟨remaining, all, hrem, hall, rfl⟩
    exact ⟨[remaining, all], ⟨remaining, all, rfl, hrem, hall⟩, buyCallback_eq r remaining all⟩

/-- With enough codes in the delivered list the purchase goes through. -/
theorem BuyRequest.deliver_enough {r : BuyRequest K Image} {value : Option Value}
    {remaining all : List String}
    (hrem : castStrings (field value "RemainingTickets") = some remaining)
    (hall : castStrings (field value "AllTickets") = some all)
    (hn : r.numberTickets.toNat ≤ remaining.length) :
    r.deliver value = some (r.purchase remaining all) :=
  deliver_eq_some.mpr ⟨remaining, all, hrem, hall, by rw [if_pos hn]⟩

/-- What a confirmed purchase tells about the delivered snapshot. -/
theorem BuyRequest.deliver_purchaseMade {r : BuyRequest K Image} {value : Option Value}
    {tickestBuy : List String} {inventory profile : Write K} {alert : BuyAlert}
    (h : r.deliver value = some (.purchaseMade tickestBuy inventory profile alert)) :
    ∃ remaining all, castStrings (field value "RemainingTickets") = some remaining ∧
      castStrings (field value "AllTickets") = some all ∧
      r.numberTickets.toNat ≤ remaining.length ∧
      BuyOutcome.purchaseMade tickestBuy inventory profile alert = r.purchase remaining all := by
  obtain ⟨remaining, all, hrem, hall, hout⟩ := deliver_eq_some.mp h
  by_cases hn : r.numberTickets.toNat ≤ remaining.length
  · rw [if_pos hn] at hout
    exact ⟨remaining, all, hrem, hall, hn, hout⟩
  · rw [if_neg hn] at hout
    cases hout

/-- A tap for more tickets than the loader delivers is told so. -/
theorem BuyRequest.deliver_notEnough {node : Option Value} {remaining all : List String}
    (hload : Event.loadEventsTickets node = some [remaining, all]) {r : BuyRequest K Image}
    (hmore : (remaining.length : Int) < r.numberTickets) :
    r.deliver node = some (.notEnough .notEnoughTickets) := by
  have hn : ¬ r.numberTickets.toNat ≤ remaining.length := by omega
  unfold deliver
  rw [hload]
  show buyCallback r [remaining, all] = _
  rw [buyCallback_eq, if_neg hn]

/-! ## Section 5: What the two writes store -/

theorem field_inventory_remaining (all remaining : List String) :
    field (nodeFrom (inventoryObject all remaining)) "RemainingTickets"
      = (Field.strings remaining).node := by
  rw [field_nodeFrom]
  cases all <;> cases remaining <;> rfl

theorem field_inventory_all (all remaining : List String) :
    field (nodeFrom (inventoryObject all remaining)) "AllTickets" = (Field.strings all).node := by
  rw [field_nodeFrom]
  cases all <;> cases remaining <;> rfl

theorem field_userObject_tickets (self : EventDescriptionViewController K Image)
    (tickestBuy : List String) :
    field (nodeFrom (userObject self tickestBuy)) "Tickets" = (Field.strings tickestBuy).node := by
  rw [field_nodeFrom]
  cases tickestBuy <;> rfl

/-! ## Section 6: Stock and tickets in the database -/

section stock
variable [LinearOrder K]

/-- The `RemainingTickets` of an event; an absent list counts as empty. -/
def stock (db : Database K) (id : K) : List String :=
  codes (field db.eventsTickets[id]? "RemainingTickets")

/-- The `Tickets` stored for an event under a profile. -/
def ticketsHeld (db : Database K) (uid id : K) : List String :=
  codes (field (db.record uid id) "Tickets")

variable (db : Database K)

@[simp] theorem stock_apply_inventory (key : K) (all remaining : List String) (id : K) :
    stock (db.apply (.eventsTickets key (inventoryObject all remaining))) id
      = if key = id then remaining else stock db id := by
  unfold stock
  rw [apply_tickets_inventory, ChildMap.getElem?_put]
  split
  · rw [field_inventory_remaining, codes_node_strings]
  · rfl

@[simp] theorem stock_apply_record (uid key : K) (object : Object) (id : K) :
    stock (db.apply (.profileEvents uid key object)) id = stock db id := rfl

@[simp] theorem ticketsHeld_apply_inventory (key : K) (object : Object) (uid id : K) :
    ticketsHeld (db.apply (.eventsTickets key object)) uid id = ticketsHeld db uid id := rfl

/-- The record is replaced, so the tickets it held before are gone from it. -/
@[simp] theorem ticketsHeld_apply_record (uid key : K)
    (self : EventDescriptionViewController K Image) (tickestBuy : List String) (u id : K) :
    ticketsHeld (db.apply (.profileEvents uid key (userObject self tickestBuy))) u id
      = if uid = u ∧ key = id then tickestBuy else ticketsHeld db u id := by
  unfold ticketsHeld
  rw [record_apply_record]
  split
  · rw [field_userObject_tickets, codes_node_strings]
  · rfl

@[simp] theorem stock_empty (id : K) : stock (Database.empty : Database K) id = [] := by
  show codes (field (∅ : ChildMap K Value)[id]? _) = []
  rw [Std.ExtTreeMap.getElem?_empty]
  rfl

@[simp] theorem ticketsHeld_empty (uid id : K) :
    ticketsHeld (Database.empty : Database K) uid id = [] := by
  show codes (field (∅ : ChildMap (K ×ₗ K) Value)[toLex (uid, id)]? _) = []
  rw [Std.ExtTreeMap.getElem?_empty]
  rfl

end stock

/-! ## Section 7: One event on sale -/

/-- The database of an organiser who put `tickets` on sale for one event. -/
def onSale [LinearOrder K] (key : K) (tickets : List String) : Database K :=
  Database.empty.apply (.eventsTickets key (inventoryObject tickets tickets))

theorem stock_onSale [LinearOrder K] (key : K) (tickets : List String) (id : K) :
    stock (onSale key tickets) id = if key = id then tickets else [] := by
  rw [onSale, stock_apply_inventory, stock_empty]

theorem ticketsHeld_onSale [LinearOrder K] (key : K) (tickets : List String) (uid id : K) :
    ticketsHeld (onSale key tickets) uid id = [] :=
  ticketsHeld_empty uid id

theorem casts_onSale [LinearOrder K] (key : K) (c : String) (cs : List String) :
    castStrings (field (onSale key (c :: cs)).eventsTickets[key]? "RemainingTickets")
      = some (c :: cs) ∧
    castStrings (field (onSale key (c :: cs)).eventsTickets[key]? "AllTickets")
      = some (c :: cs) := by
  unfold onSale
  rw [apply_tickets_inventory, ChildMap.getElem?_put_self, field_inventory_remaining,
    field_inventory_all, castStrings_node_strings]
  simp

/-- The detail screen of a concert, as the list screen sets it up. -/
def concertScreen (id : K) : EventDescriptionViewController K Unit where
  eventName := "Concert"
  eventPhoto := ()
  eventDescriptionVar := "An evening of music"
  eventPlace := "maps/concert"
  eventStartDate := "10/05/2019"
  eventEndDate := "10/05/2019"
  eventStarHour := "20:00"
  eventEndHour := "23:00"
  eventPrice := 100
  eventCountry := "Mexico"
  eventCity := "CDMX"
  eventStreet := "Reforma 1"
  eventId := id
  eventPhotoString := "images/concert.png"

/-- `uid` buys `numberTickets` tickets of the concert `e1`. -/
def concertRequest (uid : String) (numberTickets : Int) : BuyRequest String Unit where
  screen := concertScreen "e1"
  uid := uid
  key := "e1"
  numberTickets := numberTickets

/-! ## Section 8: Generating codes -/

/-- What `Int.random(in: 10000 ... 99999)` returns. -/
abbrev Draw := { value : Int // 10000 ≤ value ∧ value ≤ 99999 }

/-- The variables of `generateTickets`. -/
structure GenerateTickets where
  tickets : List String
  contador : Int

def GenerateTickets.start : GenerateTickets where
  tickets := []
  contador := 0

/-- The body of `while (contador < number)`, for the number that is drawn. -/
def GenerateTickets.body (s : GenerateTickets) (draw : Draw) : GenerateTickets :=
  let numero := toString draw.val
  if !s.tickets.contains numero then
    { tickets := s.tickets ++ [numero], contador := s.contador + 1 }
  else s

/-- One round of the loop; `none` when the loop is over. -/
def GenerateTickets.step (number : Int) (s : GenerateTickets) (draw : Draw) :
    Option GenerateTickets :=
  if s.contador < number then some (s.body draw) else none

/-- The loop on a stream of draws; `none` if it is not over after `fuel` rounds. -/
def GenerateTickets.loop (number : Int) : Nat → (Nat → Draw) → GenerateTickets →
    Option (List String)
  | 0, _, s => if s.contador < number then none else some s.tickets
  | fuel + 1, draws, s =>
    if s.contador < number then loop number fuel (fun i => draws (i + 1)) (s.body (draws 0))
    else some s.tickets

/-- `generateTickets` on a stream of draws, for at most `fuel` rounds. -/
def generateTickets (number : Int) (draws : Nat → Draw) (fuel : Nat) : Option (List String) :=
  GenerateTickets.loop number fuel draws .start

end MeetupApp
