import MeetupApp.Controllers.Tickets
import MeetupApp.Framework.Runs

/-! # Whose tickets the tickets screen shows

    Users sign in and out, the tickets screen loads and appears, and the loads it
    starts are delivered at any later time, in any order.  A completion does not
    ask who is signed in when it runs, and an appearance with a user signed in
    leaves the old list on screen until its own load is delivered.

    The result: the screen shows nothing but the current user's tickets in every
    state after an appearance if and only if it never appears for a user when the
    load delivered last was somebody else's, and no completion that runs after an
    appearance delivers tickets of somebody else. -/

namespace MeetupApp.Tickets

open Firebase

variable {K Image : Type}

/-! ## Section 1: The system -/

/-- A completed load: whose records were read, and the children that were there. -/
structure Delivery (K : Type) where
  uid : K
  children : List (K × Value)

structure State (K Image : Type) where
  currentUser : Option K
  screen : TicketsViewController K Image
  /-- loads in flight: the user whose records each of them reads -/
  loads : List K
  /-- the screen has appeared since the current user last changed -/
  appeared : Bool
  /-- the load delivered last, unless a callback ran signed out since -/
  delivery : Option (Delivery K)

inductive Label (K : Type) where
  | signIn (uid : K)
  | signOut
  | viewDidLoad
  | viewDidAppear
  /-- Load number `i` is answered with these children. -/
  | deliver (i : Nat) (children : List (K × Value))

/-- The screen has no list yet and no load is in flight. -/
def State.initial (currentUser : Option K) : State K Image where
  currentUser := currentUser
  screen := ⟨[]⟩
  loads := []
  appeared := false
  delivery := none

/-- The current user becomes `user`; only a change makes an appearance outdated. -/
def State.setUser [DecidableEq K] (s : State K Image) (user : Option K) : State K Image :=
  { s with
    currentUser := user
    appeared := s.appeared && s.currentUser = user }

/-- What a callback of the screen leads to. -/
def State.called (s : State K Image) : TicketsViewController.Outcome K Image → State K Image
  | (screen, some uid) => { s with screen := screen, loads := s.loads ++ [uid] }
  | (screen, none) => { s with screen := screen, delivery := none }

/-- Load `i` completes with `events`, decoded from the children of the delivery. -/
def State.assigned (s : State K Image) (i : Nat) (d : Delivery K) (events : List (Event K Image)) :
    State K Image :=
  { s with
    screen := s.screen.loadDatasCompleted events
    loads := s.loads.eraseIdx i
    delivery := some d }

/-- One step; `none` where it is not enabled, or where the decoder traps. -/
def step [DecidableEq K] (s : State K Image) : Label K → Option (State K Image)
  | .signIn uid => some (s.setUser (some uid))
  | .signOut => some (s.setUser none)
  | .viewDidLoad => some (s.called (s.screen.viewDidLoad s.currentUser))
  | .viewDidAppear =>
    some { s.called (s.screen.viewDidAppear s.currentUser) with appeared := true }
  | .deliver i children => do
    let uid ← s.loads[i]?
    let events ← Ticket.loadTickets children
    -- The completion captured the screen only, not the user it was started for.
    some (s.assigned i ⟨uid, children⟩ events)

/-! ## Section 2: The property and the condition -/

/-- The event was decoded from a record below `users/profile/<uid>/events`. -/
def ComesFrom (s : State K Image) (uid : K) (e : Event K Image) : Prop :=
  ∃ d, s.delivery = some d ∧ d.uid = uid ∧
    ∃ c ∈ d.children, Ticket.ofProfileRecord c.1 c.2 = some e

/-- Every entry is a ticket of the current user; with nobody signed in there is none. -/
structure OwnTickets (s : State K Image) : Prop where
  entries : ∀ e ∈ s.screen.events2, ∃ uid, s.currentUser = some uid ∧ ComesFrom s uid e
  signedOut : s.currentUser = none → s.screen.events2 = []

/-- The list is the current user's in the states in which the screen has appeared. -/
def OwnOnceAppeared (s : State K Image) : Prop := s.appeared = true → OwnTickets s

/-- The load delivered last, if no callback ran signed out since, had no records or was
    the current user's. -/
def ListOfUser (s : State K Image) : Prop :=
  ∀ d, s.delivery = some d → d.children = [] ∨ s.currentUser = some d.uid

/-- The screen appears signed out, or after a delivery of the current user's; and what is
    delivered after an appearance is nothing, or the current user's. -/
def Timely (s : State K Image) : Label K → Prop
  | .viewDidAppear => s.currentUser = none ∨ ListOfUser s
  | .deliver i children => s.appeared = true →
      children = [] ∨ ∀ uid, s.loads[i]? = some uid → s.currentUser = some uid
  | _ => True

/-! ## Section 3: The list and its delivery -/

/-- The list is what the recorded delivery was decoded to. -/
def Sourced (s : State K Image) : Prop :=
  match s.delivery with
  | none => s.screen.events2 = []
  | some d => Ticket.loadTickets d.children = some s.screen.events2

/-- A callback starts a load for the user who is signed in. -/
theorem called_signedIn {s : State K Image} {uid : K} (h : s.currentUser = some uid) :
    s.called (s.screen.reload s.currentUser) = { s with loads := s.loads ++ [uid] } := by
  have hreload : s.screen.reload s.currentUser = (s.screen, some uid) := by
    rw [h]
    rfl
  rw [hreload]
  rfl

/-- A callback empties the list when nobody is signed in. -/
theorem called_signedOut {s : State K Image} (h : s.currentUser = none) :
    s.called (s.screen.reload s.currentUser) = { s with screen := ⟨[]⟩, delivery := none } := by
  have hreload : s.screen.reload s.currentUser = (⟨[]⟩, none) := by
    rw [h]
    rfl
  rw [hreload]
  rfl

theorem sourced_called {s : State K Image} (hs : Sourced s) :
    Sourced (s.called (s.screen.reload s.currentUser)) := by
  cases huser : s.currentUser with
  | none =>
    rw [← huser, called_signedOut huser]
    rfl
  | some uid =>
    rw [← huser, called_signedIn huser]
    exact hs

theorem sourced_step [DecidableEq K] {s s' : State K Image} {l : Label K} (hs : Sourced s)
    (h : step s l = some s') : Sourced s' := by
  cases l with
  | signIn uid =>
    obtain rfl := Option.some.inj h
    exact hs
  | signOut =>
    obtain rfl := Option.some.inj h
    exact hs
  | viewDidLoad =>
    obtain rfl := Option.some.inj h
    exact sourced_called hs
  | viewDidAppear =>
    obtain rfl := Option.some.inj h
    exact sourced_called hs
  | deliver i children =>
    simp only [step, Option.bind_eq_bind, Option.bind_eq_some_iff] at h
    obtain ⟨uid, -, events, hload, hs'⟩ := h
    obtain rfl := Option.some.inj hs'
    exact hload

/-- A load delivers the empty list exactly when there are no records. -/
theorem loadTickets_eq_nil {children : List (K × Value)} {events : List (Event K Image)}
    (h : Ticket.loadTickets children = some events) : events = [] ↔ children = [] := by
  have hids := congrArg List.length (Ticket.ids_of_loadTickets h)
  rw [List.length_map, List.length_map] at hids
  rw [← List.length_eq_zero_iff, hids, List.length_eq_zero_iff]

/-- The entries are the current user's tickets exactly when the list as a whole is. -/
theorem ownTickets_iff {s : State K Image} (hs : Sourced s) : OwnTickets s ↔ ListOfUser s := by
  unfold Sourced at hs
  constructor
  · intro h d hd
    rw [hd] at hs
    cases hlist : s.screen.events2 with
    | nil => exact Or.inl ((loadTickets_eq_nil hs).mp hlist)
    | cons e es =>
      -- One entry tells whose load delivered the whole list.
      obtain ⟨uid, huser, d', hd', rfl, -⟩ := h.entries e (by simp [hlist])
      obtain rfl : d = d' := Option.some.inj (hd.symm.trans hd')
      exact Or.inr huser
  · intro h
    cases hd : s.delivery with
    | none =>
      rw [hd] at hs
      refine ⟨?_, fun _ => hs⟩
      intro e he
      rw [show s.screen.events2 = [] from hs] at he
      cases he
    | some d =>
      rw [hd] at hs
      rcases h d hd with hchildren | huser
      · have hempty := (loadTickets_eq_nil hs).mpr hchildren
        refine ⟨?_, fun _ => hempty⟩
        intro e he
        rw [hempty] at he
        cases he
      · refine ⟨?_, ?_⟩
        · intro e he
          exact ⟨d.uid, huser, d, hd, rfl, Ticket.child_of_loadTickets hs he⟩
        · intro hnone
          rw [hnone] at huser
          cases huser

/-! ## Section 4: One step -/

/-- A change of the user makes the appearance outdated; a repeated sign-in changes nothing. -/
theorem listOfUser_setUser [DecidableEq K] {s : State K Image} {user : Option K}
    (hown : s.appeared = true → ListOfUser s) (happeared : (s.setUser user).appeared = true) :
    ListOfUser (s.setUser user) := by
  have hboth : s.appeared = true ∧ s.currentUser = user := by
    simpa [State.setUser] using happeared
  obtain ⟨happ, rfl⟩ := hboth
  exact hown happ

theorem listOfUser_called {s : State K Image} :
    ListOfUser (s.called (s.screen.reload s.currentUser)) ↔
      s.currentUser = none ∨ ListOfUser s := by
  cases huser : s.currentUser with
  | none =>
    rw [← huser, called_signedOut huser]
    simp [ListOfUser, huser]
  | some uid =>
    rw [← huser, called_signedIn huser]
    simp [ListOfUser, huser]

theorem listOfUser_assigned {s : State K Image} {i : Nat} {d : Delivery K}
    {events : List (Event K Image)} :
    ListOfUser (s.assigned i d events) ↔ d.children = [] ∨ s.currentUser = some d.uid := by
  constructor
  · intro h
    exact h d rfl
  · intro h d' hd'
    obtain rfl : d = d' := Option.some.inj hd'
    exact h

/-- From a state in which the list may be seen, a step leads to another one exactly
    when it is timely. -/
theorem ownOnceAppeared_step [DecidableEq K] {s s' : State K Image} {l : Label K}
    (hs : Sourced s) (hown : OwnOnceAppeared s) (h : step s l = some s') :
    OwnOnceAppeared s' ↔ Timely s l := by
  have hlist : s.appeared = true → ListOfUser s := fun happ => (ownTickets_iff hs).mp (hown happ)
  have hs' : Sourced s' := sourced_step hs h
  unfold OwnOnceAppeared
  rw [ownTickets_iff hs']
  cases l with
  | signIn uid =>
    obtain rfl := Option.some.inj h
    exact ⟨fun _ => trivial, fun _ => listOfUser_setUser hlist⟩
  | signOut =>
    obtain rfl := Option.some.inj h
    exact ⟨fun _ => trivial, fun _ => listOfUser_setUser hlist⟩
  | viewDidLoad =>
    obtain rfl := Option.some.inj h
    refine ⟨fun _ => trivial, fun _ => ?_⟩
    intro happ
    have hsame : (s.called (s.screen.reload s.currentUser)).appeared = s.appeared := by
      cases huser : s.currentUser <;> rfl
    exact listOfUser_called.mpr (Or.inr (hlist (hsame.symm.trans happ)))
  | viewDidAppear =>
    obtain rfl := Option.some.inj h
    -- The appearance itself makes the state count.
    constructor
    · intro hafter
      exact listOfUser_called.mp (hafter rfl)
    · intro htimely _
      exact listOfUser_called.mpr htimely
  | deliver i children =>
    simp only [step, Option.bind_eq_bind, Option.bind_eq_some_iff] at h
    obtain ⟨uid, huid, events, hload, hassigned⟩ := h
    obtain rfl := Option.some.inj hassigned
    have hafter : ListOfUser (s.assigned i ⟨uid, children⟩ events) ↔
        children = [] ∨ s.currentUser = some uid := listOfUser_assigned
    -- A delivery does not count as an appearance.
    show (s.appeared = true → _) ↔ (s.appeared = true → _)
    rw [hafter]
    simp [huid]

/-! ## Section 5: The result -/

theorem sourced_initial (currentUser : Option K) :
    Sourced (State.initial currentUser : State K Image) := rfl

/-- **Exactly when the screen keeps to the current user's tickets.**  Over every
    interleaving of sign-ins, sign-outs, callbacks and deliveries: in all states after
    an appearance every entry is the current user's, if and only if every step is timely. -/
theorem ownTickets_iff_timely [DecidableEq K] {currentUser : Option K} {ls : List (Label K)}
    {s : State K Image} (hrun : Runs.exec step (State.initial currentUser) ls = some s) :
    Runs.AlongRun step OwnOnceAppeared (State.initial currentUser : State K Image) ls ↔
      Runs.StepsMeet step Timely (State.initial currentUser : State K Image) ls := by
  have hfirst : OwnOnceAppeared (State.initial currentUser : State K Image) := by
    intro happeared
    cases happeared
  exact Runs.alongRun_iff_stepsMeet (fun _ _ _ hs h => sourced_step hs h)
    (fun _ _ _ hs hown h => ownOnceAppeared_step hs hown h) (sourced_initial currentUser)
    hfirst hrun

/-! ## Section 6: A load that outlives its session -/

/-- A ticket of Ana's, as her profile stores it. -/
def anaTicket : String × Value :=
  ("e1", .dict [("Name", .string "Concert"), ("Description", .string "An evening of music"),
    ("Image", .string "images/concert.png"), ("Start", .string "10/05/2019"),
    ("Tickets", .ofStrings "A1" [])])

/-- Ana opens the tickets screen and signs out; the screen appears again, and then her
    load is delivered. -/
def lateDelivery : List (Label String) :=
  [.signIn "ana", .viewDidAppear, .signOut, .viewDidAppear, .deliver 0 [anaTicket]]

theorem lateDelivery_ends :
    ∃ s, Runs.exec step (State.initial none : State String Unit) lateDelivery = some s ∧
      ¬ OwnOnceAppeared s := by
  refine ⟨_, rfl, ?_⟩
  intro hown
  -- Nobody is signed in, and the list holds Ana's ticket.
  have hempty := (hown rfl).signedOut rfl
  cases hempty

/-- The equivalence at this run: the delivery is not timely. -/
theorem lateDelivery_notTimely :
    ¬ Runs.StepsMeet step Timely (State.initial none : State String Unit) lateDelivery := by
  obtain ⟨s, hrun, hnot⟩ := lateDelivery_ends
  intro htimely
  exact hnot (((ownTickets_iff_timely hrun).mpr htimely).last hrun)

/-- **Tickets of a session that is over.**  With nobody signed in, the screen shows
    what was bought by somebody who has signed out. -/
theorem tickets_after_signOut :
    ¬ ∀ (currentUser : Option String) (ls : List (Label String)) (s : State String Unit),
      Runs.exec step (State.initial currentUser) ls = some s →
      Runs.AlongRun step OwnOnceAppeared (State.initial currentUser : State String Unit) ls := by
  intro hall
  obtain ⟨s, hrun, hnot⟩ := lateDelivery_ends
  exact hnot ((hall none lateDelivery s hrun).last hrun)

end MeetupApp.Tickets
