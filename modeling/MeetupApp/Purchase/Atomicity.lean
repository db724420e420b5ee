import MeetupApp.Purchase.Serial

/-! # A purchase whose writes fail

    The callback issues the inventory update and the profile update one after
    the other, with no completion block on either, and presents "Purchase made"
    at once.  The server decides about each write on its own, and the process
    may end after the first one.

    A purchase is all or nothing, and its alert tells the truth, if and only if
    nothing fails. -/

namespace MeetupApp.Purchase

open Firebase FrontSale

variable {K Image : Type} [LinearOrder K]

/-! ## Section 1: Failures -/

/-- What happens to the two writes of one purchase. -/
structure FailurePattern where
  /-- the server accepts the inventory update -/
  inventoryAccepted : Bool
  /-- the server accepts the profile update, if it sees it -/
  profileAccepted : Bool
  /-- the process ends after the first update was settled and before the second -/
  stoppedBetween : Bool

def FailurePattern.profileApplied (f : FailurePattern) : Bool :=
  f.profileAccepted && !f.stoppedBetween

/-- Nothing fails. -/
def FailurePattern.Harmless (f : FailurePattern) : Prop :=
  f.inventoryAccepted = true ∧ f.profileApplied = true

/-- How a purchase ends: the database reached, what was presented, what was applied. -/
structure PurchaseRun (K : Type) [LinearOrder K] where
  database : Database K
  alerts : List BuyAlert
  inventoryApplied : Bool
  profileApplied : Bool

/-- Apply a write if it gets through. -/
def applyIf (applied : Bool) (db : Database K) (w : Write K) : Database K :=
  if applied then db.apply w else db

@[simp] theorem applyIf_true (db : Database K) (w : Write K) : applyIf true db w = db.apply w := rfl

@[simp] theorem applyIf_false (db : Database K) (w : Write K) : applyIf false db w = db := rfl

/-- One purchase under a failure pattern.  The alert is presented by the callback,
    whatever becomes of the writes it has issued. -/
def runUnder (r : BuyRequest K Image) (db : Database K) (f : FailurePattern) :
    Option (PurchaseRun K) := do
  match ← r.deliver db.eventsTickets[r.key]? with
  | .notEnough alert => some ⟨db, [alert], false, false⟩
  | .purchaseMade _ inventory profile alert =>
    some {
      database := applyIf f.profileApplied (applyIf f.inventoryAccepted db inventory) profile
      alerts := [alert]
      inventoryApplied := f.inventoryAccepted
      profileApplied := f.profileApplied }

/-- What the buyer is promised: both writes or none, codes leave the stock exactly
    when they reach the buyer, and the alert only when both happened. -/
structure Atomic (db : Database K) (r : BuyRequest K Image) (run : PurchaseRun K) : Prop where
  allOrNothing : run.database = db ∨ buy db r = some run.database
  codes : stock run.database r.key = (stock db r.key).drop r.numberTickets.toNat ↔
    ticketsHeld run.database r.uid r.key = (stock db r.key).take r.numberTickets.toNat
  alert : ∀ total, BuyAlert.purchaseMade total ∈ run.alerts →
    run.inventoryApplied = true ∧ run.profileApplied = true

/-! ## Section 2: How a purchase with enough stock ends -/

section enough
variable {db : Database K} {r : BuyRequest K Image} {remaining all : List String}

/-- With enough stock the callback presents the alert under every failure pattern. -/
theorem runUnder_eq
    (hrem : castStrings (field db.eventsTickets[r.key]? "RemainingTickets") = some remaining)
    (hall : castStrings (field db.eventsTickets[r.key]? "AllTickets") = some all)
    (hn : r.numberTickets.toNat ≤ remaining.length) (f : FailurePattern) :
    runUnder r db f = some {
      database := applyIf f.profileApplied
        (applyIf f.inventoryAccepted db (inventoryWrite r remaining all)) (profileWrite r remaining)
      alerts := [.purchaseMade (r.screen.eventPrice * r.numberTickets)]
      inventoryApplied := f.inventoryAccepted
      profileApplied := f.profileApplied } := by
  unfold runUnder
  rw [BuyRequest.deliver_enough hrem hall hn]
  rfl

/-- When nothing fails the purchase is `buy`. -/
theorem buy_of_enough
    (hrem : castStrings (field db.eventsTickets[r.key]? "RemainingTickets") = some remaining)
    (hall : castStrings (field db.eventsTickets[r.key]? "AllTickets") = some all)
    (hpos : 0 < r.numberTickets) (hn : r.numberTickets.toNat ≤ remaining.length) :
    buy db r
      = some ((db.apply (inventoryWrite r remaining all)).apply (profileWrite r remaining)) :=
  buy_eq_some.mpr ⟨hpos, remaining, all, hrem, hall, hn, rfl⟩

/-- The stock after the two writes depends on the inventory write only. -/
theorem stock_after (inventoryApplied profileApplied : Bool) :
    stock (applyIf profileApplied (applyIf inventoryApplied db (inventoryWrite r remaining all))
        (profileWrite r remaining)) r.key
      = if inventoryApplied then remaining.drop r.numberTickets.toNat else stock db r.key := by
  cases inventoryApplied <;> cases profileApplied <;> simp [inventoryWrite, profileWrite]

/-- The buyer's tickets after the two writes depend on the profile write only. -/
theorem ticketsHeld_after (inventoryApplied profileApplied : Bool) :
    ticketsHeld (applyIf profileApplied
        (applyIf inventoryApplied db (inventoryWrite r remaining all)) (profileWrite r remaining))
        r.uid r.key
      = if profileApplied then remaining.take r.numberTickets.toNat
        else ticketsHeld db r.uid r.key := by
  cases inventoryApplied <;> cases profileApplied <;> simp [inventoryWrite, profileWrite]

end enough

/-! ## Section 3: The result -/

/-- **Exactly when a purchase is atomic.**  With enough stock, a purchase under a
    failure pattern keeps its promise if and only if both updates are accepted and
    the process does not end between them. -/
theorem atomic_iff_harmless {db : Database K} {r : BuyRequest K Image} {remaining all : List String}
    (hrem : castStrings (field db.eventsTickets[r.key]? "RemainingTickets") = some remaining)
    (hall : castStrings (field db.eventsTickets[r.key]? "AllTickets") = some all)
    (hpos : 0 < r.numberTickets) (hn : r.numberTickets.toNat ≤ remaining.length)
    (f : FailurePattern) :
    ∃ run, runUnder r db f = some run ∧ (Atomic db r run ↔ f.Harmless) := by
  refine ⟨_, runUnder_eq hrem hall hn f, ?_⟩
  have hstock : stock db r.key = remaining := codes_of_castStrings hrem
  constructor
  · -- The alert was presented, so both writes must have been applied.
    intro h
    exact h.alert _ (List.mem_singleton.mpr rfl)
  -- Both writes applied: the database is the one of `buy`.
  · rintro ⟨hinventory, hprofile⟩
    rw [hinventory, hprofile]
    refine ⟨Or.inr (buy_of_enough hrem hall hpos hn), ?_, fun _ _ => ⟨rfl, rfl⟩⟩
    rw [stock_after, ticketsHeld_after, hstock]
    simp

/-- The equivalence for one ticket of two, when nothing fails. -/
theorem atomic_oneTicket :
    ∃ run, runUnder (concertRequest "ana" 1) (onSale "e1" ["A1", "A2"]) ⟨true, true, false⟩
        = some run ∧
      Atomic (onSale "e1" ["A1", "A2"]) (concertRequest "ana" 1) run := by
  have hcasts := casts_onSale "e1" "A1" ["A2"]
  obtain ⟨run, hrun, hiff⟩ := atomic_iff_harmless hcasts.1 hcasts.2
    (show 0 < (concertRequest "ana" 1).numberTickets by decide)
    (show (concertRequest "ana" 1).numberTickets.toNat ≤ ["A1", "A2"].length by decide)
    ⟨true, true, false⟩
  exact ⟨run, hrun, hiff.mpr ⟨rfl, rfl⟩⟩

/-- **Paid, and no ticket.**  The server refuses the profile update: `A1` has left the
    stock and is not in the buyer's record. -/
theorem codes_vanish :
    ¬ ∀ (db : Database String) (r : BuyRequest String Unit) (remaining all : List String)
        (f : FailurePattern) (run : PurchaseRun String),
      castStrings (field db.eventsTickets[r.key]? "RemainingTickets") = some remaining →
      castStrings (field db.eventsTickets[r.key]? "AllTickets") = some all →
      0 < r.numberTickets → r.numberTickets.toNat ≤ remaining.length →
      runUnder r db f = some run → Atomic db r run := by
  intro hall
  have hends : (runUnder (concertRequest "ana" 1) (onSale "e1" ["A1", "A2"])
      ⟨true, false, false⟩).map
        (fun run => (stock run.database "e1", ticketsHeld run.database "ana" "e1"))
      = some (["A2"], []) := by decide
  obtain ⟨run, hrun, hlists⟩ := Option.map_eq_some_iff.mp hends
  simp only [Prod.mk.injEq] at hlists
  have hcasts := casts_onSale "e1" "A1" ["A2"]
  have hcodes := (hall _ (concertRequest "ana" 1) _ _ _ run hcasts.1 hcasts.2 (by decide)
    (by decide) hrun).codes
  -- The code left the stock, so it should be in the record.
  have hleft : stock run.database (concertRequest "ana" 1).key
      = (stock (onSale "e1" ["A1", "A2"]) (concertRequest "ana" 1).key).drop
          (concertRequest "ana" 1).numberTickets.toNat := by
    show stock run.database "e1" = (stock (onSale "e1" ["A1", "A2"]) "e1").drop 1
    rw [hlists.1, stock_onSale]
    rfl
  have hheld := hcodes.mp hleft
  rw [show ticketsHeld run.database (concertRequest "ana" 1).uid (concertRequest "ana" 1).key = []
    from hlists.2] at hheld
  exact absurd hheld (by decide)

/-- The database alone: it ends in one of the two consistent states exactly when the
    server treats the two writes alike, unless the record held the very same codes
    before. -/
theorem database_consistent_iff {db : Database K} {r : BuyRequest K Image}
    {remaining all : List String} {run : PurchaseRun K} {f : FailurePattern}
    (hrem : castStrings (field db.eventsTickets[r.key]? "RemainingTickets") = some remaining)
    (hall : castStrings (field db.eventsTickets[r.key]? "AllTickets") = some all)
    (hpos : 0 < r.numberTickets) (hn : r.numberTickets.toNat ≤ remaining.length)
    (hfresh : ticketsHeld db r.uid r.key ≠ remaining.take r.numberTickets.toNat)
    (hrun : runUnder r db f = some run) :
    (run.database = db ∨ buy db r = some run.database) ↔
      f.inventoryAccepted = f.profileApplied := by
  have hstock : stock db r.key = remaining := codes_of_castStrings hrem
  have hbuy := buy_of_enough hrem hall hpos hn
  have hshorter : remaining.drop r.numberTickets.toNat ≠ remaining := by
    intro heq
    have hlen := congrArg List.length heq
    rw [List.length_drop] at hlen
    omega
  rw [runUnder_eq hrem hall hn f] at hrun
  obtain rfl := Option.some.inj hrun
  cases hi : f.inventoryAccepted <;> cases hp : f.profileApplied
  case false.false => exact ⟨fun _ => rfl, fun _ => Or.inl rfl⟩
  case true.true => exact ⟨fun _ => rfl, fun _ => Or.inr hbuy⟩
  case true.false =>
    -- The stock is cut and the record is as it was.
    refine ⟨?_, fun h => absurd h (by decide)⟩
    intro hor
    rcases hor with hsame | hboth
    · have hcut := congrArg (stock · r.key) hsame
      simp only [applyIf_true, applyIf_false, inventoryWrite, stock_apply_inventory, if_pos,
        hstock] at hcut
      exact absurd hcut hshorter
    · have hheld := congrArg (ticketsHeld · r.uid r.key) (Option.some.inj (hbuy.symm.trans hboth))
      simp only [applyIf_true, applyIf_false, inventoryWrite, profileWrite,
        ticketsHeld_apply_record, ticketsHeld_apply_inventory, and_self, if_pos] at hheld
      exact absurd hheld.symm hfresh
  case false.true =>
    -- The record has the codes and the stock has them too.
    refine ⟨?_, fun h => absurd h (by decide)⟩
    intro hor
    rcases hor with hsame | hboth
    · have hheld := congrArg (ticketsHeld · r.uid r.key) hsame
      simp only [applyIf_true, applyIf_false, profileWrite, ticketsHeld_apply_record, and_self,
        if_pos] at hheld
      exact absurd hheld.symm hfresh
    · have hcut := congrArg (stock · r.key) (Option.some.inj (hbuy.symm.trans hboth))
      simp only [applyIf_true, applyIf_false, inventoryWrite, profileWrite, stock_apply_inventory,
        stock_apply_record, if_pos, hstock] at hcut
      exact absurd hcut hshorter

/-! ## Section 4: The failures are runs of the machine -/

/-- The server's steps under a failure pattern, after the tap and the delivery. -/
def failureLabels (client : Nat) (f : FailurePattern) : List (Label K Image) :=
  (if f.inventoryAccepted then .accept client else .reject client) ::
    if f.stoppedBetween then []
    else [if f.profileAccepted then .accept client else .reject client]

/-- One write is settled: it leaves the outbox, applied or not. -/
theorem step_settle {s : State K Image} {client : Nat} {w : Write K} {rest : List (Write K)}
    (hout : s.outbox client = w :: rest) (accepted : Bool) :
    step s (if accepted then .accept client else .reject client)
      = some (s.serve client (applyIf accepted s.db w) rest) := by
  cases accepted
  · show step s (.reject client) = _
    simp only [step]
    rw [hout]
    rfl
  · exact step_accept_cons hout

/-- A purchase under a failure pattern ends as one of the runs of the machine does. -/
theorem exec_failure {s : State K Image} (hq : Quiescent s) {r : BuyRequest K Image}
    {remaining all : List String} (hkey : r.key = r.screen.eventId)
    (hrem : castStrings (field s.db.eventsTickets[r.key]? "RemainingTickets") = some remaining)
    (hall : castStrings (field s.db.eventsTickets[r.key]? "AllTickets") = some all)
    (hpos : 0 < r.numberTickets) (hn : r.numberTickets.toNat ≤ remaining.length)
    (client : Nat) (f : FailurePattern) :
    ∃ s' run, Runs.exec step s ([.tap client (some r.uid) r.screen r.numberTickets, .deliver 0 0]
        ++ failureLabels client f) = some s' ∧
      runUnder r s.db f = some run ∧ s'.db = run.database := by
  have hbought := exec_bought hq client r remaining all hkey hpos hrem hall hn
  have hout : (bought s client r remaining all).outbox client
      = [inventoryWrite r remaining all, profileWrite r remaining] := by
    rw [bought_outbox hq, Function.update_self]
  let s₃ := (bought s client r remaining all).serve client
    (applyIf f.inventoryAccepted s.db (inventoryWrite r remaining all)) [profileWrite r remaining]
  have hfirst : step (bought s client r remaining all)
      (if f.inventoryAccepted then .accept client else .reject client) = some s₃ :=
    step_settle hout f.inventoryAccepted
  have hout₃ : s₃.outbox client = [profileWrite r remaining] := by
    simp [s₃, State.serve]
  have hsecond := step_settle hout₃ f.profileAccepted
  rw [Runs.exec_append, hbought, Option.bind_some, failureLabels, Runs.exec_cons, hfirst,
    Option.bind_some]
  cases hstop : f.stoppedBetween
  · refine ⟨s₃.serve client (applyIf f.profileAccepted s₃.db (profileWrite r remaining)) [], _, ?_,
      runUnder_eq hrem hall hn f, ?_⟩
    · rw [if_neg (by simp), Runs.exec_cons, hsecond, Option.bind_some, Runs.exec_nil]
    · simp [FailurePattern.profileApplied, hstop, State.serve, s₃]
  · refine ⟨s₃, _, ?_, runUnder_eq hrem hall hn f, ?_⟩
    · rw [if_pos rfl, Runs.exec_nil]
    · simp [FailurePattern.profileApplied, hstop, State.serve, s₃]

end MeetupApp.Purchase
