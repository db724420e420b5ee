import Mathlib.Logic.Function.Basic
import MeetupApp.Controllers.EventDescription
import MeetupApp.Framework.FrontSale
import MeetupApp.Framework.Runs

/-! # Purchases of any number of clients, step by step

    The Buy taps of all clients against one server, as a labelled machine.
    One purchase is spread over four steps:

    * `tap`: the client captures the signed-in uid, the event id and the
      quantity and issues one read of `eventsTickets/<id>`.
    * `deliver`: the read delivers one of the values the server held since it
      was issued; the callback runs to its end and issues the inventory update
      and the profile update, or presents "We do not have enough tickets".
    * `accept` / `reject`: the server applies, or refuses, the oldest write a
      client has issued and that is still in flight.

    A delivery whose decoding traps ends the client's process: its pending
    callbacks are gone, what it has sent is still on its way. -/

namespace MeetupApp.Purchase

open Firebase

variable {K Image : Type}

/-! ## Section 1: State -/

/-- A read in flight: who issued it, what its closure captured, and the values
    that the server has held at the location since then. -/
structure PendingRead (K Image : Type) where
  client : Nat
  request : BuyRequest K Image
  held : List (Option Value)

/-- The server, everything in flight, and the log of confirmed purchases. -/
structure State (K Image : Type) [LinearOrder K] where
  /-- the database at the server -/
  db : Database K
  /-- reads that were issued and not delivered -/
  reads : List (PendingRead K Image)
  /-- writes that a client issued and the server has not seen, oldest first -/
  outbox : Nat → List (Write K)
  /-- confirmed purchases: event, uid and the codes handed out -/
  sales : List (FrontSale.Sale K K String)
  /-- clients whose process trapped -/
  crashed : List Nat

/-- The steps of the system. -/
inductive Label (K Image : Type) where
  /-- Buy is tapped on `screen` with the slider at `sliderValue`. -/
  | tap (client : Nat) (currentUser : Option K) (screen : EventDescriptionViewController K Image)
      (sliderValue : Int)
  /-- Pending read number `read` delivers the `version`-th value held since its issue. -/
  | deliver (read version : Nat)
  /-- The server applies the client's oldest pending write. -/
  | accept (client : Nat)
  /-- The server refuses the client's oldest pending write. -/
  | reject (client : Nat)

variable [LinearOrder K]

/-- Nothing in flight, nothing sold. -/
def State.initial (db : Database K) : State K Image where
  db := db
  reads := []
  outbox := fun _ => []
  sales := []
  crashed := []

/-! ## Section 2: Effects of the steps -/

/-- A new read is issued. -/
def State.issue (s : State K Image) (client : Nat) (r : BuyRequest K Image) : State K Image :=
  { s with reads := s.reads ++ [⟨client, r, [s.db.eventsTickets[r.key]?]⟩] }

/-- The process of `client` ends: its callbacks will not run any more. -/
def State.crash (s : State K Image) (client : Nat) : State K Image :=
  { s with
    reads := s.reads.filter (fun r => r.client ≠ client)
    crashed := client :: s.crashed }

/-- Read `i` is answered and its callback issued no write. -/
def State.answer (s : State K Image) (i : Nat) : State K Image :=
  { s with reads := s.reads.eraseIdx i }

/-- Read `i` is answered, `codes` are handed out and the two writes are issued. -/
def State.confirm (s : State K Image) (i client : Nat) (sale : FrontSale.Sale K K String)
    (inventory profile : Write K) : State K Image :=
  { s with
    reads := s.reads.eraseIdx i
    outbox := Function.update s.outbox client (s.outbox client ++ [inventory, profile])
    sales := s.sales ++ [sale] }

/-- The server moves to `db`; every pending read of an event may deliver the new value. -/
def State.serve (s : State K Image) (client : Nat) (db : Database K) (rest : List (Write K)) :
    State K Image :=
  { s with
    db := db
    reads := s.reads.map (fun r => { r with held := r.held ++ [db.eventsTickets[r.request.key]?] })
    outbox := Function.update s.outbox client rest }

/-- One step; `none` when it is not enabled.  The slider runs from 0 upwards, and
    the button is disabled at 0. -/
def step (s : State K Image) : Label K Image → Option (State K Image)
  | .tap client currentUser screen sliderValue =>
    -- Nothing disables the button while an earlier read is in flight.
    if client ∉ s.crashed ∧ 0 ≤ sliderValue ∧ buyEnabled sliderValue then
      match buyButtonTapped currentUser screen sliderValue with
      | .inl request => some (s.issue client request)
      | .inr _ => some s
    else none
  | .deliver i version => do
    let r ← s.reads[i]?
    let value ← r.held[version]?
    match r.request.deliver value with
    -- A forced cast failed.
    | none => some (s.crash r.client)
    | some (.notEnough _) => some (s.answer i)
    -- Both updates are issued before either is answered.
    | some (.purchaseMade tickestBuy inventory profile _) =>
      some (s.confirm i r.client ⟨r.request.key, r.request.uid, tickestBuy⟩ inventory profile)
  | .accept client =>
    match s.outbox client with
    | [] => none
    | w :: rest => some (s.serve client (s.db.apply w) rest)
  | .reject client =>
    match s.outbox client with
    | [] => none
    | _ :: rest => some (s.serve client s.db rest)

/-! ## Section 3: What a step can do -/

/-- A tap issues one read with a positive quantity, or changes nothing. -/
theorem step_tap {s s' : State K Image} {client : Nat} {currentUser : Option K}
    {screen : EventDescriptionViewController K Image} {sliderValue : Int}
    (h : step s (.tap client currentUser screen sliderValue) = some s') :
    (currentUser = none ∧ s' = s) ∨
    (∃ uid, currentUser = some uid ∧ client ∉ s.crashed ∧ 0 < sliderValue ∧
      s' = s.issue client ⟨screen, uid, screen.eventId, sliderValue⟩) := by
  simp only [step] at h
  split at h
  · next hen =>
    have hpos : 0 < sliderValue := by
      have hne : sliderValue ≠ 0 := by
        intro h0
        simp [h0, buyEnabled] at hen
      omega
    cases currentUser with
    | none => exact Or.inl ⟨rfl, (Option.some.inj h).symm⟩
    | some uid => exact Or.inr ⟨uid, rfl, hen.1, hpos, (Option.some.inj h).symm⟩
  · cases h

/-- A delivery crashes the client, is answered without a write, or confirms the
    purchase of the first codes of the delivered list. -/
theorem step_deliver {s s' : State K Image} {i version : Nat}
    (h : step s (.deliver i version) = some s') :
    ∃ r value, s.reads[i]? = some r ∧ r.held[version]? = some value ∧
      ((r.request.deliver value = none ∧ s' = s.crash r.client) ∨
       (r.request.deliver value = some (.notEnough .notEnoughTickets) ∧ s' = s.answer i) ∨
       (∃ remaining all, castStrings (field value "RemainingTickets") = some remaining ∧
          castStrings (field value "AllTickets") = some all ∧
          r.request.numberTickets.toNat ≤ remaining.length ∧
          s' = s.confirm i r.client
            ⟨r.request.key, r.request.uid, remaining.take r.request.numberTickets.toNat⟩
            (.eventsTickets r.request.key
              (inventoryObject all (remaining.drop r.request.numberTickets.toNat)))
            (.profileEvents r.request.uid r.request.key
              (userObject r.request.screen (remaining.take r.request.numberTickets.toNat))))) := by
  simp only [step, Option.bind_eq_bind, Option.bind_eq_some_iff] at h
  obtain ⟨r, hr, value, hvalue, hout⟩ := h
  refine ⟨r, value, hr, hvalue, ?_⟩
  split at hout
  · next hnone => exact Or.inl ⟨hnone, (Option.some.inj hout).symm⟩
  -- The branch without enough tickets has one alert only.
  · next alert hnot =>
    obtain ⟨remaining, all, -, -, hcase⟩ := BuyRequest.deliver_eq_some.mp hnot
    split at hcase
    · cases hcase
    · injection hcase with halert
      subst halert
      exact Or.inr (Or.inl ⟨hnot, (Option.some.inj hout).symm⟩)
  · next tickestBuy inventory profile alert hmade =>
    obtain ⟨remaining, all, hrem, hall, hn, heq⟩ := BuyRequest.deliver_purchaseMade hmade
    unfold BuyRequest.purchase at heq
    injection heq with htickets hinventory hprofile
    subst htickets hinventory hprofile
    exact Or.inr (Or.inr ⟨remaining, all, hrem, hall, hn, (Option.some.inj hout).symm⟩)

/-- The server takes a client's oldest write and applies it. -/
theorem step_accept {s s' : State K Image} {client : Nat} (h : step s (.accept client) = some s') :
    ∃ w rest, s.outbox client = w :: rest ∧ s' = s.serve client (s.db.apply w) rest := by
  simp only [step] at h
  split at h
  · cases h
  · next w rest hout => exact ⟨w, rest, hout, (Option.some.inj h).symm⟩

/-- The server takes a client's oldest write and drops it. -/
theorem step_reject {s s' : State K Image} {client : Nat} (h : step s (.reject client) = some s') :
    ∃ w rest, s.outbox client = w :: rest ∧ s' = s.serve client s.db rest := by
  simp only [step] at h
  split at h
  · cases h
  · next w rest hout => exact ⟨w, rest, hout, (Option.some.inj h).symm⟩

/-! ## Section 4: When a step is enabled -/

/-- A running client with a signed-in user can tap for a positive quantity. -/
theorem step_tap_signedIn {s : State K Image} {client : Nat} {uid : K}
    {screen : EventDescriptionViewController K Image} {n : Int} (hrunning : client ∉ s.crashed)
    (hpos : 0 < n) :
    step s (.tap client (some uid) screen n)
      = some (s.issue client ⟨screen, uid, screen.eventId, n⟩) := by
  have henabled : buyEnabled n = true := by
    have hne : n ≠ 0 := by omega
    simp [buyEnabled, hne]
  have hen : client ∉ s.crashed ∧ 0 ≤ n ∧ buyEnabled n := ⟨hrunning, by omega, henabled⟩
  simp only [step]
  rw [if_pos hen]
  rfl

/-- A delivery of two arrays with enough codes confirms the purchase. -/
theorem step_deliver_enough {s : State K Image} {i version : Nat} {r : PendingRead K Image}
    {node : Option Value} {remaining all : List String} (hr : s.reads[i]? = some r)
    (hnode : r.held[version]? = some node)
    (hrem : castStrings (field node "RemainingTickets") = some remaining)
    (hall : castStrings (field node "AllTickets") = some all)
    (hn : r.request.numberTickets.toNat ≤ remaining.length) :
    step s (.deliver i version) = some (s.confirm i r.client
      ⟨r.request.key, r.request.uid, remaining.take r.request.numberTickets.toNat⟩
      (.eventsTickets r.request.key
        (inventoryObject all (remaining.drop r.request.numberTickets.toNat)))
      (.profileEvents r.request.uid r.request.key
        (userObject r.request.screen (remaining.take r.request.numberTickets.toNat)))) := by
  simp only [step, Option.bind_eq_bind, hr, hnode, Option.bind_some]
  rw [BuyRequest.deliver_enough hrem hall hn]
  rfl

theorem step_accept_cons {s : State K Image} {client : Nat} {w : Write K} {rest : List (Write K)}
    (h : s.outbox client = w :: rest) :
    step s (.accept client) = some (s.serve client (s.db.apply w) rest) := by
  simp only [step]
  rw [h]

/-! ## Section 5: What is in flight after a step -/

section inflight
variable {s : State K Image}

/-- A pending read after `issue` is an old one or the new one. -/
theorem mem_reads_issue {client : Nat} {req : BuyRequest K Image} {r : PendingRead K Image} :
    r ∈ (s.issue client req).reads ↔
      r ∈ s.reads ∨ r = ⟨client, req, [s.db.eventsTickets[req.key]?]⟩ := by
  simp [State.issue]

theorem mem_reads_of_crash {client : Nat} {r : PendingRead K Image}
    (h : r ∈ (s.crash client).reads) : r ∈ s.reads :=
  List.mem_of_mem_filter h

theorem mem_reads_of_answer {i : Nat} {r : PendingRead K Image}
    (h : r ∈ (s.answer i).reads) : r ∈ s.reads :=
  List.mem_of_mem_eraseIdx h

theorem mem_reads_of_confirm {i client : Nat} {sale : FrontSale.Sale K K String}
    {inventory profile : Write K} {r : PendingRead K Image}
    (h : r ∈ (s.confirm i client sale inventory profile).reads) : r ∈ s.reads :=
  List.mem_of_mem_eraseIdx h

/-- A pending read after the server moved has one more value to deliver. -/
theorem mem_reads_serve {client : Nat} {db : Database K} {rest : List (Write K)}
    {r : PendingRead K Image} :
    r ∈ (s.serve client db rest).reads ↔ ∃ q ∈ s.reads,
      r = { q with held := q.held ++ [db.eventsTickets[q.request.key]?] } := by
  simp [State.serve, eq_comm]

/-- A write in flight after a confirmed purchase is an old one or one of the two. -/
theorem mem_outbox_confirm {i client c : Nat} {sale : FrontSale.Sale K K String}
    {inventory profile w : Write K}
    (h : w ∈ (s.confirm i client sale inventory profile).outbox c) :
    w ∈ s.outbox c ∨ w = inventory ∨ w = profile := by
  unfold State.confirm at h
  by_cases hc : c = client
  · subst hc
    simpa using h
  · simp only [Function.update_of_ne hc] at h
    exact Or.inl h

/-- A write in flight after the server took one was in flight before. -/
theorem mem_outbox_of_serve {client c : Nat} {db : Database K} {w v : Write K}
    {rest : List (Write K)} (hout : s.outbox client = w :: rest)
    (h : v ∈ (s.serve client db rest).outbox c) : v ∈ s.outbox c := by
  unfold State.serve at h
  by_cases hc : c = client
  · subst hc
    rw [hout]
    simp only [Function.update_self] at h
    exact List.mem_cons_of_mem _ h
  · simpa only [Function.update_of_ne hc] using h

end inflight

end MeetupApp.Purchase
