import Mathlib.Algebra.GroupWithZero.Nat
import MeetupApp.Purchase.Serial

/-! # Reading back the inventory that purchases leave

    The inventory write stores `RemainingTickets` as an array, and an empty
    array is stored as an absent node.  The loader casts the node by force, so
    it reads back every stock that purchases can leave except the empty one:
    after the last ticket is sold, the next tap ends the process instead of
    presenting "We do not have enough tickets for the event". -/

namespace MeetupApp.Purchase

open Firebase

variable {K Image : Type} [LinearOrder K]

/-! ## Section 1: What purchases write -/

/-- The number of tickets for `id` that a run of purchases sells. -/
def quantitySold (rs : List (BuyRequest K Image)) (id : K) : Nat :=
  ((rs.filter (fun r => r.key = id)).map (fun r => r.numberTickets.toNat)).sum

theorem quantitySold_cons (r : BuyRequest K Image) (rs : List (BuyRequest K Image)) (id : K) :
    quantitySold (r :: rs) id
      = (if r.key = id then r.numberTickets.toNat else 0) + quantitySold rs id := by
  unfold quantitySold
  by_cases hid : r.key = id <;> simp [hid]

/-- The inventory node of an event that was last written with these lists. -/
structure Holds (node : Option Value) (remaining all : List String) : Prop where
  remaining : field node "RemainingTickets" = (Field.strings remaining).node
  all : field node "AllTickets" = (Field.strings all).node

theorem holds_of_cast {node : Option Value} {remaining all : List String}
    (hrem : castStrings (field node "RemainingTickets") = some remaining)
    (hall : castStrings (field node "AllTickets") = some all) : Holds node remaining all :=
  ⟨eq_node_of_castStrings hrem, eq_node_of_castStrings hall⟩

/-- What the update of a purchase writes. -/
theorem holds_written (remaining all : List String) :
    Holds (nodeFrom (inventoryObject all remaining)) remaining all :=
  ⟨field_inventory_remaining all remaining, field_inventory_all all remaining⟩

/-- A purchase shortens the list of its event and leaves other events alone. -/
theorem holds_buy {db db' : Database K} {r : BuyRequest K Image} (h : buy db r = some db') {id : K}
    {remaining all : List String} (hold : Holds db.eventsTickets[id]? remaining all) :
    (if r.key = id then r.numberTickets.toNat else 0) ≤ remaining.length ∧
    Holds db'.eventsTickets[id]?
      (remaining.drop (if r.key = id then r.numberTickets.toNat else 0)) all := by
  by_cases hid : r.key = id
  · subst hid
    rw [if_pos rfl]
    obtain ⟨remaining', all', hrem', hall', hn, hnode⟩ := inventory_buy h
    -- The lists the purchase read are the ones the node holds.
    have hrem := congrArg castStrings hold.remaining
    have hall := congrArg castStrings hold.all
    rw [hrem', castStrings_node_strings] at hrem
    rw [hall', castStrings_node_strings] at hall
    split at hrem
    · cases hrem
    · split at hall
      · cases hall
      · obtain rfl := Option.some.inj hrem
        obtain rfl := Option.some.inj hall
        rw [hnode]
        exact ⟨hn, holds_written _ _⟩
  · rw [if_neg hid, inventory_buy_other h hid, List.drop_zero]
    exact ⟨Nat.zero_le _, hold⟩

/-- The lists that a run leaves: as many codes less as the run has sold. -/
theorem holds_of_run {db₀ db : Database K} {rs : List (BuyRequest K Image)}
    (hrun : Runs.exec buy db₀ rs = some db) {id : K} {remaining all : List String}
    (hold : Holds db₀.eventsTickets[id]? remaining all) :
    quantitySold rs id ≤ remaining.length ∧
      Holds db.eventsTickets[id]? (remaining.drop (quantitySold rs id)) all := by
  induction rs generalizing db₀ remaining with
  | nil =>
    obtain rfl : db₀ = db := Option.some.inj hrun
    exact ⟨Nat.zero_le _, hold⟩
  | cons r rs ih =>
    obtain ⟨db₁, hbuy, hrest⟩ := Runs.exec_cons_eq_some.mp hrun
    obtain ⟨hle, hold₁⟩ := holds_buy hbuy hold
    obtain ⟨hle', hold'⟩ := ih hrest hold₁
    rw [List.length_drop] at hle'
    rw [List.drop_drop] at hold'
    rw [quantitySold_cons]
    exact ⟨by omega, hold'⟩

/-! ## Section 2: What the loader reads back -/

/-- The loader reads back two non-empty lists as they were written. -/
theorem load_of_holds {node : Option Value} {remaining all : List String}
    (hold : Holds node remaining all) (hrem : remaining ≠ []) (hall : all ≠ []) :
    Event.loadEventsTickets node = some [remaining, all] := by
  rw [Event.loadEventsTickets_eq_some]
  refine ⟨remaining, all, rfl, ?_, ?_⟩
  · rw [hold.remaining, castStrings_node_strings, if_neg hrem]
  · rw [hold.all, castStrings_node_strings, if_neg hall]

/-- The loader traps on a sold-out event. -/
theorem load_soldOut {node : Option Value} {all : List String} (hold : Holds node [] all) :
    Event.loadEventsTickets node = none := by
  rw [Option.eq_none_iff_forall_not_mem]
  intro lists hlists
  obtain ⟨remaining, all', -, hrem, -⟩ := Event.loadEventsTickets_eq_some.mp hlists
  rw [hold.remaining, castStrings_node_strings, if_pos rfl] at hrem
  cases hrem

/-! ## Section 3: The result -/

/-- **Exactly when the inventory is read back.**  After any serial run, the loader
    delivers the two lists last written, and every tap for more than the stock is
    answered with "We do not have enough tickets", if and only if the event is not
    sold out. -/
theorem reload_iff_not_soldOut {db₀ db : Database K} {rs : List (BuyRequest K Image)} {id : K}
    {remaining all : List String}
    (hrem : castStrings (field db₀.eventsTickets[id]? "RemainingTickets") = some remaining)
    (hall : castStrings (field db₀.eventsTickets[id]? "AllTickets") = some all)
    (hrun : Runs.exec buy db₀ rs = some db) :
    (Holds db.eventsTickets[id]? (remaining.drop (quantitySold rs id)) all ∧
      Event.loadEventsTickets db.eventsTickets[id]?
        = some [remaining.drop (quantitySold rs id), all] ∧
      ∀ r : BuyRequest K Image,
        ((remaining.drop (quantitySold rs id)).length : Int) < r.numberTickets →
        r.deliver db.eventsTickets[id]? = some (.notEnough .notEnoughTickets)) ↔
    quantitySold rs id < remaining.length := by
  obtain ⟨hle, hold⟩ := holds_of_run hrun (holds_of_cast hrem hall)
  constructor
  · intro h
    by_contra hsold
    -- Sold out: the node is gone, and the forced cast of the loader fails.
    have hempty : remaining.drop (quantitySold rs id) = [] := List.drop_eq_nil_of_le (by omega)
    have hload := h.2.1
    rw [load_soldOut (hempty ▸ hold)] at hload
    cases hload
  · intro hleft
    have hne : remaining.drop (quantitySold rs id) ≠ [] := by
      rw [← List.length_pos_iff, List.length_drop]
      omega
    -- `AllTickets` was read as an array, and the store has no empty arrays.
    have hallne : all ≠ [] := by
      intro hnil
      have hcast := congrArg castStrings (eq_node_of_castStrings hall)
      rw [hall, castStrings_node_strings, if_pos hnil] at hcast
      cases hcast
    have hload := load_of_holds hold hne hallne
    exact ⟨hold, hload, fun r hmore => BuyRequest.deliver_notEnough hload hmore⟩

/-! ## Section 4: The last ticket -/

/-- The equivalence at a run that leaves one ticket. -/
theorem reload_one_left :
    ∃ db, Runs.exec buy (onSale "e1" ["A1", "A2"]) [concertRequest "ana" 1] = some db ∧
      Event.loadEventsTickets db.eventsTickets["e1"]? = some [["A2"], ["A1", "A2"]] := by
  have hruns : (Runs.exec buy (onSale "e1" ["A1", "A2"]) [concertRequest "ana" 1]).isSome := by
    decide
  obtain ⟨db, hrun⟩ := Option.isSome_iff_exists.mp hruns
  exact ⟨db, hrun, ((reload_iff_not_soldOut (casts_onSale "e1" "A1" ["A2"]).1
    (casts_onSale "e1" "A1" ["A2"]).2 hrun).mpr
    (by decide)).2.1⟩

/-- **The sold-out trap.**  After both tickets are sold, loading the inventory traps,
    and so does the next tap. -/
theorem soldOut_traps :
    ¬ ∀ (db₀ db : Database String) (rs : List (BuyRequest String Unit)) (id : String)
        (remaining all : List String),
      castStrings (field db₀.eventsTickets[id]? "RemainingTickets") = some remaining →
      castStrings (field db₀.eventsTickets[id]? "AllTickets") = some all →
      Runs.exec buy db₀ rs = some db →
      (Event.loadEventsTickets db.eventsTickets[id]?).isSome ∧
        (concertRequest "ana" 1).deliver db.eventsTickets[id]? ≠ none := by
  intro hall
  have hruns : (Runs.exec buy (onSale "e1" ["A1", "A2"]) [concertRequest "ana" 2]).map
      (fun db => (Event.loadEventsTickets db.eventsTickets["e1"]?).isSome) = some false := by
    decide
  obtain ⟨db, hrun, hload⟩ := Option.map_eq_some_iff.mp hruns
  have hcasts := casts_onSale "e1" "A1" ["A2"]
  have h := hall _ db _ "e1" _ _ hcasts.1 hcasts.2 hrun
  rw [hload] at h
  exact absurd h.1 (by decide)

end MeetupApp.Purchase
