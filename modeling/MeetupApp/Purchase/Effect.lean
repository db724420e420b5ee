import MeetupApp.Purchase.Serial

/-! # The exact effect of one purchase

    One phone and its session.  The user may sign out and in at any moment, also
    between the tap and the delivery of its read; the inventory that is delivered
    may be any two lists.

    The result: a purchase that is not made leaves no write and no change behind,
    and a purchase that is made changes two nodes of the database, the inventory
    of its event and the record of the user who was signed in at the tap. -/

namespace MeetupApp.Purchase.Phone

open Firebase

variable {K Image : Type} [LinearOrder K]

/-! ## Section 1: The phone -/

structure State (K Image : Type) [LinearOrder K] where
  currentUser : Option K
  db : Database K
  /-- closures whose read has not been delivered, oldest first -/
  reads : List (BuyRequest K Image)
  /-- writes that the server has not applied, oldest first -/
  writes : List (Write K)
  alerts : List BuyAlert

inductive Label (K Image : Type) where
  /-- The session changes: somebody signs in, or the user signs out. -/
  | session (user : Option K)
  /-- Buy is tapped on `screen` with the slider at `sliderValue`. -/
  | tap (screen : EventDescriptionViewController K Image) (sliderValue : Int)
  /-- The loader calls the oldest closure with these two lists. -/
  | deliver (remaining all : List String)
  /-- The server accepts and applies the oldest write. -/
  | accept

def State.initial (db : Database K) (currentUser : Option K) : State K Image where
  currentUser := currentUser
  db := db
  reads := []
  writes := []
  alerts := []

/-- The same phone with another session. -/
def State.as (s : State K Image) (user : Option K) : State K Image :=
  { s with currentUser := user }

/-- One step; `none` when it is not enabled or the process traps. -/
def step (s : State K Image) : Label K Image → Option (State K Image)
  | .session user => some (s.as user)
  | .tap screen sliderValue =>
    if 0 ≤ sliderValue ∧ buyEnabled sliderValue then
      match buyButtonTapped s.currentUser screen sliderValue with
      | .inl request => some { s with reads := s.reads ++ [request] }
      | .inr alert => some { s with alerts := s.alerts ++ [alert] }
    else none
  | .deliver remaining all =>
    match s.reads with
    | [] => none
    | r :: rest =>
      -- The closure captured the uid; who is signed in now is not asked.
      match buyCallback r [remaining, all] with
      | none => none
      | some (.notEnough alert) => some { s with reads := rest, alerts := s.alerts ++ [alert] }
      | some (.purchaseMade _ inventory profile alert) =>
        some { s with
          reads := rest
          writes := s.writes ++ [inventory, profile]
          alerts := s.alerts ++ [alert] }
  | .accept =>
    match s.writes with
    | [] => none
    | w :: rest => some { s with db := s.db.apply w, writes := rest }

/-! ## Section 2: The session does not matter once Buy was tapped -/

def Label.isSession : Label K Image → Bool
  | .session _ => true
  | _ => false

def Label.isTap : Label K Image → Bool
  | .tap _ _ => true
  | _ => false

/-- The steps of a run other than changes of the session. -/
def acts (ls : List (Label K Image)) : List (Label K Image) :=
  ls.filter (fun l => !l.isSession)

/-- A delivery and an accepted write do not read the session. -/
theorem step_as (s : State K Image) (u : Option K) {l : Label K Image}
    (hsession : l.isSession = false) (htap : l.isTap = false) :
    step (s.as u) l = (step s l).map (·.as u) := by
  cases l with
  | session user => cases hsession
  | tap screen sliderValue => cases htap
  | deliver remaining all =>
    simp only [step, State.as]
    cases s.reads with
    | nil => rfl
    | cons r rest =>
      cases hout : buyCallback r [remaining, all] with
      | none => simp [hout]
      | some out => cases out <;> simp [hout]
  | accept =>
    simp only [step, State.as]
    cases s.writes <;> rfl

theorem exec_as (s : State K Image) (u : Option K) {ls : List (Label K Image)}
    (h : ∀ l ∈ ls, l.isSession = false ∧ l.isTap = false) :
    Runs.exec step (s.as u) ls = (Runs.exec step s ls).map (·.as u) :=
  Runs.exec_map (·.as u) (fun t _ hl => step_as t u hl.1 hl.2) s h

/-- Leaving the changes of the session out of a run without taps changes nothing but
    who is signed in at its end. -/
theorem exec_acts (s : State K Image) {ls : List (Label K Image)}
    (h : ∀ l ∈ ls, l.isTap = false) :
    ∃ u, Runs.exec step s ls = (Runs.exec step s (acts ls)).map (·.as u) := by
  induction ls generalizing s with
  | nil => exact ⟨s.currentUser, rfl⟩
  | cons l ls ih =>
    have hrest : ∀ k ∈ ls, k.isTap = false := fun k hk => h k (by simp [hk])
    by_cases hl : l.isSession = true
    · -- A change of the session, which the later steps do not notice.
      have hacts : acts (l :: ls) = acts ls := List.filter_cons_of_neg (by simp [hl])
      have hclean : ∀ k ∈ acts ls, k.isSession = false ∧ k.isTap = false := by
        intro k hk
        obtain ⟨hmem, hk⟩ := List.mem_filter.mp hk
        exact ⟨by simpa using hk, hrest k hmem⟩
      cases l with
      | session user =>
        obtain ⟨u, hu⟩ := ih (s.as user) hrest
        refine ⟨u, ?_⟩
        rw [hacts]
        show Runs.exec step (s.as user) ls = _
        rw [hu, exec_as s user hclean, Option.map_map]
        rfl
      | tap screen sliderValue => cases hl
      | deliver remaining all => cases hl
      | accept => cases hl
    · have hacts : acts (l :: ls) = l :: acts ls := List.filter_cons_of_pos (by simp [hl])
      rw [hacts, Runs.exec_cons, Runs.exec_cons]
      cases hm : step s l with
      | none => exact ⟨s.currentUser, rfl⟩
      | some m => exact ih m hrest

omit [LinearOrder K] in
/-- A run has no tap if what remains of it without the changes of the session has none. -/
theorem noTap_of_acts {ls : List (Label K Image)} (h : ∀ l ∈ acts ls, l.isTap = false) :
    ∀ l ∈ ls, l.isTap = false := by
  intro l hl
  cases l with
  | tap screen sliderValue => exact h _ (List.mem_filter.mpr ⟨hl, rfl⟩)
  | session user => rfl
  | deliver remaining all => rfl
  | accept => rfl

/-- The steps after a tap decide how the purchase ends, whatever happens to the session
    between them. -/
theorem ends_of_acts {s t : State K Image} {ls ks : List (Label K Image)} (hks : acts ls = ks)
    (htap : ∀ l ∈ ks, l.isTap = false) (hrun : Runs.exec step s ks = some t) :
    ∃ u, Runs.exec step s ls = some (t.as u) := by
  subst hks
  obtain ⟨u, hu⟩ := exec_acts s (noTap_of_acts htap)
  exact ⟨u, by rw [hu, hrun]; rfl⟩

/-! ## Section 3: One purchase -/

/-- No purchase was made: nothing was written and nothing is under way. -/
structure NoPurchase (db : Database K) (s : State K Image) : Prop where
  reads : s.reads = []
  writes : s.writes = []
  db : s.db = db

/-- The two nodes that a purchase of `sold` by `uid` replaces, key by key and as they are
    read back, and all that it keeps.  A list without codes has no node. -/
structure Effect (db : Database K) (uid : K) (screen : EventDescriptionViewController K Image)
    (sold remaining all : List String) (db' : Database K) : Prop where
  events : db'.events = db.events
  profileFields : db'.profileFields = db.profileFields
  inventory : db'.eventsTickets[screen.eventId]?
    = nodeFrom [("AllTickets", .strings all), ("RemainingTickets", .strings remaining)]
  allTickets : codes (field db'.eventsTickets[screen.eventId]? "AllTickets") = all
  remainingTickets :
    codes (field db'.eventsTickets[screen.eventId]? "RemainingTickets") = remaining
  inventory_other : ∀ id, id ≠ screen.eventId → db'.eventsTickets[id]? = db.eventsTickets[id]?
  record : ∃ first rest, sold = first :: rest ∧
    db'.record uid screen.eventId = some (.dict
      [("Name", .string screen.eventName),
       ("Description", .string screen.eventDescriptionVar),
       ("Image", .string screen.eventPhotoString),
       ("Start", .string screen.eventStartDate),
       ("Tickets", .ofStrings first rest)])
  record_other : ∀ u id, ¬ (u = uid ∧ id = screen.eventId) → db'.record u id = db.record u id

/-- After a tap that issued its read. -/
def State.asked (db : Database K) (uid : K) (screen : EventDescriptionViewController K Image)
    (n : Int) : State K Image where
  currentUser := some uid
  db := db
  reads := [⟨screen, uid, screen.eventId, n⟩]
  writes := []
  alerts := []

/-- After a purchase, with its writes applied or without any. -/
def State.over (db : Database K) (currentUser : Option K) (alert : BuyAlert) : State K Image where
  currentUser := currentUser
  db := db
  reads := []
  writes := []
  alerts := [alert]

theorem buyEnabled_of_pos {n : Int} (hn : 1 ≤ n) : 0 ≤ n ∧ buyEnabled n = true := by
  have hne : n ≠ 0 := by omega
  exact ⟨by omega, if_neg hne⟩

theorem step_tap_none (db : Database K) (screen : EventDescriptionViewController K Image) {n : Int}
    (hn : 1 ≤ n) :
    step (State.initial db none) (.tap screen n) = some (State.over db none .notLogged) := by
  simp only [step, if_pos (buyEnabled_of_pos hn)]
  rfl

theorem step_tap_some (db : Database K) (uid : K)
    (screen : EventDescriptionViewController K Image) {n : Int} (hn : 1 ≤ n) :
    step (State.initial db (some uid)) (.tap screen n) = some (State.asked db uid screen n) := by
  simp only [step, if_pos (buyEnabled_of_pos hn)]
  rfl

/-- Too few codes were delivered: the alert is all that is left of the purchase. -/
theorem step_deliver_few (db : Database K) (uid : K)
    (screen : EventDescriptionViewController K Image) {n : Int} {remaining : List String}
    (all : List String) (hfew : (remaining.length : Int) < n) :
    step (State.asked db uid screen n) (.deliver remaining all)
      = some (State.over db (some uid) .notEnoughTickets) := by
  have hn : ¬ n.toNat ≤ remaining.length := by omega
  have hcallback := buyCallback_eq ⟨screen, uid, screen.eventId, n⟩ remaining all
  rw [if_neg hn] at hcallback
  simp only [step, State.asked, hcallback]
  rfl

/-- The database after both writes of a purchase. -/
def bought (db : Database K) (uid : K) (screen : EventDescriptionViewController K Image)
    (sold remaining all : List String) : Database K :=
  (db.apply (.eventsTickets screen.eventId (inventoryObject all remaining))).apply
    (.profileEvents uid screen.eventId (userObject screen sold))

theorem bought_inventory (db : Database K) (uid : K)
    (screen : EventDescriptionViewController K Image) (sold remaining all : List String) :
    (bought db uid screen sold remaining all).eventsTickets[screen.eventId]?
      = nodeFrom (inventoryObject all remaining) := by
  rw [bought, apply_record_inventory, apply_tickets_inventory, ChildMap.getElem?_put_self]

theorem effect_bought (db : Database K) (uid : K)
    (screen : EventDescriptionViewController K Image) {sold : List String} (hsold : sold ≠ [])
    (remaining all : List String) :
    Effect db uid screen sold remaining all (bought db uid screen sold remaining all) where
  events := by simp [bought]
  profileFields := rfl
  inventory := bought_inventory db uid screen sold remaining all
  allTickets := by rw [bought_inventory, field_inventory_all, codes_node_strings]
  remainingTickets := by rw [bought_inventory, field_inventory_remaining, codes_node_strings]
  inventory_other id hid := by
    rw [bought, apply_record_inventory, apply_tickets_inventory,
      ChildMap.getElem?_put_of_ne _ _ (Ne.symm hid)]
  record := by
    obtain ⟨first, rest, rfl⟩ := List.exists_cons_of_ne_nil hsold
    refine ⟨first, rest, rfl, ?_⟩
    rw [bought, record_apply_record, if_pos ⟨rfl, rfl⟩]
    rfl
  record_other u id hother := by
    have hne : ¬ (uid = u ∧ screen.eventId = id) := fun h => hother ⟨h.1.symm, h.2.symm⟩
    rw [bought, record_apply_record, if_neg hne]
    rfl

/-- Enough codes were delivered: both writes are issued, and the server applies them. -/
theorem exec_deliver_enough (db : Database K) (uid : K)
    (screen : EventDescriptionViewController K Image) {n : Int} {remaining : List String}
    (all : List String) (henough : n ≤ remaining.length) :
    Runs.exec step (State.asked db uid screen n) [.deliver remaining all, .accept, .accept]
      = some (State.over
          (bought db uid screen (remaining.take n.toNat) (remaining.drop n.toNat) all)
          (some uid) (.purchaseMade (screen.eventPrice * n))) := by
  have hn : n.toNat ≤ remaining.length := by omega
  have hcallback := buyCallback_eq ⟨screen, uid, screen.eventId, n⟩ remaining all
  rw [if_pos hn] at hcallback
  have hdeliver : step (State.asked db uid screen n) (.deliver remaining all)
      = some { State.over db (some uid) (.purchaseMade (screen.eventPrice * n)) with
          writes := [
            .eventsTickets screen.eventId (inventoryObject all (remaining.drop n.toNat)),
            .profileEvents uid screen.eventId (userObject screen (remaining.take n.toNat))] } := by
    simp only [step, State.asked, hcallback]
    rfl
  rw [Runs.exec_cons, hdeliver]
  rfl

/-- Where the lists delivered are those of the server, the phone has made the purchase that
    `buy` describes. -/
theorem buy_eq_bought {db : Database K} (uid : K)
    {screen : EventDescriptionViewController K Image} {n : Int} {remaining all : List String}
    (hn : 1 ≤ n)
    (hrem : castStrings (field db.eventsTickets[screen.eventId]? "RemainingTickets")
      = some remaining)
    (hall : castStrings (field db.eventsTickets[screen.eventId]? "AllTickets") = some all)
    (henough : n ≤ remaining.length) :
    buy db ⟨screen, uid, screen.eventId, n⟩
      = some (bought db uid screen (remaining.take n.toNat) (remaining.drop n.toNat) all) := by
  have hle : n.toNat ≤ remaining.length := by omega
  exact buy_eq_some.mpr ⟨by show 0 < n; omega, remaining, all, hrem, hall, hle, rfl⟩

/-- The loop of a purchase that passed the check does not trap, and cuts the list. -/
theorem removalLoop_cuts {n : Int} {remaining : List String} (hn : 1 ≤ n)
    (henough : n ≤ remaining.length) :
    removalLoop n 0 [] remaining = some (remaining.take n.toNat, remaining.drop n.toNat) ∧
      ((remaining.take n.toNat).length : Int) = n := by
  constructor
  · have hloop := removalLoop_eq n 0 [] remaining (by omega)
    simpa using hloop
  · rw [List.length_take]
    omega

/-! ## Section 4: The result -/

/-- **The effect of one purchase.**  The phone taps Buy for `n` tickets, the read
    delivers the two lists and the server accepts what was written, with any changes of
    the session in between.  Signed out at the tap, or with too few codes delivered,
    nothing is written.  Otherwise the first `n` codes are cut off the list, and the
    two nodes of the purchase are all that changes, for the user of the tap. -/
theorem purchase_effect (db : Database K) (atTap : Option K)
    (screen : EventDescriptionViewController K Image) (n : Int) (hn : 1 ≤ n)
    (remaining all : List String) :
    (atTap = none → ∀ rest, acts rest = [] →
      ∃ s, Runs.exec step (State.initial db atTap) (.tap screen n :: rest) = some s ∧
        NoPurchase db s) ∧
    (∀ uid, atTap = some uid → (remaining.length : Int) < n →
      ∀ rest, acts rest = [.deliver remaining all] →
      ∃ s, Runs.exec step (State.initial db atTap) (.tap screen n :: rest) = some s ∧
        NoPurchase db s) ∧
    (∀ uid, atTap = some uid → n ≤ remaining.length →
      ∃ sold remaining', removalLoop n 0 [] remaining = some (sold, remaining') ∧
        sold ++ remaining' = remaining ∧ (sold.length : Int) = n ∧
        ∀ rest, acts rest = [.deliver remaining all, .accept, .accept] →
        ∃ s, Runs.exec step (State.initial db atTap) (.tap screen n :: rest) = some s ∧
          s.reads = [] ∧ s.writes = [] ∧
          Effect db uid screen sold remaining' all s.db) := by
  refine ⟨?_, ?_, ?_⟩
  · rintro rfl rest hacts
    obtain ⟨u, hend⟩ := ends_of_acts (t := State.over db none .notLogged) hacts (by simp) rfl
    have hpurchase := Runs.exec_cons_of_step (step_tap_none db screen hn) hend
    exact ⟨_, hpurchase, rfl, rfl, rfl⟩
  · rintro uid rfl hfew rest hacts
    have hrun : Runs.exec step (State.asked db uid screen n) [.deliver remaining all] = _ :=
      Runs.exec_cons_of_step (step_deliver_few db uid screen all hfew) rfl
    obtain ⟨u, hend⟩ := ends_of_acts hacts (by simp [Label.isTap]) hrun
    have hpurchase := Runs.exec_cons_of_step (step_tap_some db uid screen hn) hend
    exact ⟨_, hpurchase, rfl, rfl, rfl⟩
  · rintro uid rfl henough
    obtain ⟨hloop, hlength⟩ := removalLoop_cuts hn henough
    refine ⟨_, _, hloop, List.take_append_drop _ _, hlength, ?_⟩
    intro rest hacts
    have hrun := exec_deliver_enough db uid screen all henough
    obtain ⟨u, hend⟩ := ends_of_acts hacts (by simp [Label.isTap]) hrun
    have hpurchase := Runs.exec_cons_of_step (step_tap_some db uid screen hn) hend
    have hsold : remaining.take n.toNat ≠ [] := by
      rw [← List.length_pos_iff]
      omega
    exact ⟨_, hpurchase, rfl, rfl, effect_bought db uid screen hsold _ all⟩

/-- Two tickets out of three, bought by `u1`; `u2` signs in while the read is on its way. -/
theorem purchase_effect_two :
    (1 : Int) ≤ 2 ∧
    ∃ sold remaining', removalLoop 2 0 [] ["A1", "A2", "A3"] = some (sold, remaining') ∧
      sold ++ remaining' = ["A1", "A2", "A3"] ∧ (sold.length : Int) = 2 ∧
      ∃ s, Runs.exec step (State.initial (onSale "e1" ["A1", "A2", "A3"]) (some "u1"))
          [.tap (concertScreen "e1") 2, .session (some "u2"),
            .deliver ["A1", "A2", "A3"] ["A1", "A2", "A3"], .accept, .session none, .accept]
          = some s ∧ s.reads = [] ∧ s.writes = [] ∧
        Effect (onSale "e1" ["A1", "A2", "A3"]) "u1" (concertScreen "e1") sold remaining'
          ["A1", "A2", "A3"] s.db := by
  refine ⟨by decide, ?_⟩
  obtain ⟨-, -, hmade⟩ := purchase_effect (onSale "e1" ["A1", "A2", "A3"]) (some "u1")
    (concertScreen "e1") 2 (by decide) ["A1", "A2", "A3"] ["A1", "A2", "A3"]
  obtain ⟨sold, remaining', hloop, hcut, hlength, hends⟩ := hmade "u1" rfl (by decide)
  exact ⟨sold, remaining', hloop, hcut, hlength, hends _ rfl⟩

end MeetupApp.Purchase.Phone
