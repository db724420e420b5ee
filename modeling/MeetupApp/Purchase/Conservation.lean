import MeetupApp.Purchase.Serial

/-! # Conservation of tickets over serial purchases

    Every ticket that was put on sale should be on sale or in the record of the
    one who bought it.  The profile write replaces the record of the event as a
    whole, so a second purchase of an event by one user overwrites the codes of
    the first: they are neither on sale nor in any record afterwards.

    The result is the exact extent of the defect: tickets are conserved along a
    serial run if and only if no user buys an event twice in it. -/

namespace MeetupApp.Purchase

open Firebase

open scoped List

variable {K Image : Type} [LinearOrder K]

/-! ## Section 1: The tickets of an event -/

/-- The `Tickets` of a record, if it is one of event `id`. -/
def ticketsIn (id : K) (record : (K ×ₗ K) × Value) : List String :=
  if (ofLex record.1).2 = id then codes (field (some record.2) "Tickets") else []

/-- The tickets for `id` that all users hold, in record order. -/
def ticketsOf (db : Database K) (id : K) : List String :=
  db.profileEvents.toList.flatMap (ticketsIn id)

/-- **Conservation** for one event: what was put on sale is what is on sale together
    with what users hold. -/
def Conserved (db : Database K) (id : K) : Prop :=
  (allTickets db id).Perm (stock db id ++ ticketsOf db id)

/-- The state in which an organiser starts: distinct codes, all of them on sale,
    and no user holds a ticket. -/
structure FreshSale (db : Database K) : Prop where
  complete : ∀ id, stock db id = allTickets db id
  nodup : ∀ id, (allTickets db id).Nodup
  unsold : ∀ uid id, ticketsHeld db uid id = []

/-- Conserved codes are distinct: none is in two places. -/
theorem Conserved.nodup {db : Database K} {id : K} (h : Conserved db id)
    (hall : (allTickets db id).Nodup) : (stock db id ++ ticketsOf db id).Nodup :=
  h.nodup_iff.mp hall

theorem ticketsOf_eq_nil {db : Database K} {id : K} (h : ∀ uid, ticketsHeld db uid id = []) :
    ticketsOf db id = [] := by
  unfold ticketsOf
  rw [List.flatMap_eq_nil_iff]
  intro record hrecord
  unfold ticketsIn
  split
  · next hid =>
    have hval : db.record (ofLex record.1).1 id = some record.2 := by
      rw [← hid]
      exact (ChildMap.mem_toList _).mp hrecord
    have hheld := h (ofLex record.1).1
    rw [ticketsHeld, hval] at hheld
    exact hheld
  · rfl

theorem conserved_freshSale {db : Database K} (h : FreshSale db) (id : K) : Conserved db id := by
  unfold Conserved
  rw [ticketsOf_eq_nil (fun uid => h.unsold uid id), List.append_nil, h.complete id]

/-! ## Section 2: One purchase, seen from the records -/

/-- Writing one record replaces the tickets it held and keeps all others. -/
theorem ticketsOf_write (db : Database K) (uid key : K)
    (self : EventDescriptionViewController K Image) (tickestBuy : List String) (id : K) :
    ∃ others,
      (ticketsOf db id).Perm ((if key = id then ticketsHeld db uid id else []) ++ others) ∧
      (ticketsOf (db.apply (.profileEvents uid key (userObject self tickestBuy))) id).Perm
        ((if key = id then tickestBuy else []) ++ others) := by
  -- A record is never empty, because its strings are stored.
  obtain ⟨v, hv⟩ : ∃ v, nodeFrom (userObject self tickestBuy) = some v := by
    cases tickestBuy <;> exact ⟨_, rfl⟩
  have hcodes : codes (field (some v) "Tickets") = tickestBuy := by
    rw [← hv, field_userObject_tickets, codes_node_strings]
  have hnew : ticketsIn id (toLex (uid, key), v) = if key = id then tickestBuy else [] := by
    unfold ticketsIn
    rw [hcodes]
    rfl
  unfold ticketsOf
  rw [apply_record_records, hv]
  cases hold : db.profileEvents[toLex (uid, key)]? with
  | none =>
    refine ⟨db.profileEvents.toList.flatMap (ticketsIn id), ?_, ?_⟩
    · -- There was no record, so it held nothing.
      have hheld : ticketsHeld db uid key = [] := by
        rw [ticketsHeld, Database.record, hold]
        rfl
      by_cases hid : key = id
      · subst hid
        rw [if_pos rfl, hheld, List.nil_append]
      · rw [if_neg hid, List.nil_append]
    · have hperm := (ChildMap.toList_put_fresh db.profileEvents v hold).flatMap_right (ticketsIn id)
      rwa [List.flatMap_cons, hnew] at hperm
  | some old =>
    obtain ⟨rest, hbefore, hafter⟩ := ChildMap.toList_put_present db.profileEvents v hold
    refine ⟨rest.flatMap (ticketsIn id), ?_, ?_⟩
    · have hperm := hbefore.flatMap_right (ticketsIn id)
      have holdTickets : ticketsIn id (toLex (uid, key), old)
          = if key = id then ticketsHeld db uid id else [] := by
        by_cases hid : key = id
        · subst hid
          rw [if_pos rfl, ticketsHeld, Database.record, hold]
          exact if_pos rfl
        · rw [if_neg hid]
          exact if_neg hid
      rwa [List.flatMap_cons, holdTickets] at hperm
    · have hperm := hafter.flatMap_right (ticketsIn id)
      rwa [List.flatMap_cons, hnew] at hperm

/-- **What a purchase does to the codes of an event**: those in stock and in other
    records stay, those the buyer's record held before are gone. -/
theorem codes_of_buy {db db' : Database K} {r : BuyRequest K Image} (h : buy db r = some db')
    (id : K) : ∃ others,
      (stock db id ++ ticketsOf db id).Perm
        ((if r.key = id then ticketsHeld db r.uid id else []) ++ (stock db id ++ others)) ∧
      (stock db' id ++ ticketsOf db' id).Perm (stock db id ++ others) := by
  have hstock := stock_buy h id
  obtain ⟨-, remaining, all, hrem, -, -, rfl⟩ := buy_eq_some.mp h
  obtain ⟨others, hbefore, hafter⟩ := ticketsOf_write (db.apply (inventoryWrite r remaining all))
    r.uid r.key r.screen (remaining.take r.numberTickets.toNat) id
  refine ⟨others, ?_, ?_⟩
  · calc stock db id ++ ticketsOf db id
        ~ stock db id ++ ((if r.key = id then ticketsHeld db r.uid id else []) ++ others) :=
          hbefore.append_left _
      _ ~ (if r.key = id then ticketsHeld db r.uid id else []) ++ (stock db id ++ others) := by
          rw [← List.append_assoc, ← List.append_assoc]
          exact List.perm_append_comm.append_right _
  · rw [hstock]
    by_cases hid : r.key = id
    · -- The codes sold move from the stock to the record.
      subst hid
      have hrem' : stock db r.key = remaining := codes_of_castStrings hrem
      rw [if_pos rfl] at hafter ⊢
      rw [hrem']
      calc remaining.drop r.numberTickets.toNat ++ ticketsOf _ r.key
          ~ remaining.drop r.numberTickets.toNat
              ++ (remaining.take r.numberTickets.toNat ++ others) := hafter.append_left _
        _ ~ (remaining.take r.numberTickets.toNat ++ remaining.drop r.numberTickets.toNat)
              ++ others := by
            rw [← List.append_assoc]
            exact List.perm_append_comm.append_right _
        _ = remaining ++ others := by rw [List.take_append_drop]
    · rw [if_neg hid] at hafter ⊢
      exact hafter.append_left _

/-! ## Section 3: Lost codes stay lost -/

/-- No code is in two places, and none is new: the background of every serial run. -/
def NoExtra (db : Database K) : Prop :=
  ∀ id, stock db id ++ ticketsOf db id <+~ allTickets db id

theorem noExtra_buy {db db' : Database K} {r : BuyRequest K Image} (hj : NoExtra db)
    (h : buy db r = some db') : NoExtra db' := by
  intro id
  obtain ⟨others, hbefore, hafter⟩ := codes_of_buy h id
  rw [allTickets_buy h]
  have hsub : stock db id ++ others <+~ stock db id ++ ticketsOf db id :=
    (List.sublist_append_right _ _).subperm.trans hbefore.symm.subperm
  exact hafter.subperm.trans (hsub.trans (hj id))

/-- The first purchase of an event by a user conserves its tickets. -/
theorem conserved_buy {db db' : Database K} {r : BuyRequest K Image}
    (hfirst : ticketsHeld db r.uid r.key = []) (hc : ∀ id, Conserved db id)
    (h : buy db r = some db') (id : K) : Conserved db' id := by
  obtain ⟨others, hbefore, hafter⟩ := codes_of_buy h id
  have hnone : (if r.key = id then ticketsHeld db r.uid id else []) = [] := by
    by_cases hid : r.key = id
    · subst hid
      rw [if_pos rfl, hfirst]
    · rw [if_neg hid]
  rw [hnone, List.nil_append] at hbefore
  unfold Conserved
  rw [allTickets_buy h]
  exact (hc id).trans (hbefore.trans hafter.symm)

/-- A further purchase of an event by a user who holds tickets for it loses these. -/
theorem not_conserved_of_again {db db' : Database K} {r : BuyRequest K Image}
    (hagain : ticketsHeld db r.uid r.key ≠ []) (hc : ∀ id, Conserved db id)
    (h : buy db r = some db') : ¬ Conserved db' r.key := by
  obtain ⟨others, hbefore, hafter⟩ := codes_of_buy h r.key
  rw [if_pos rfl] at hbefore
  intro hafterAll
  unfold Conserved at hafterAll
  rw [allTickets_buy h] at hafterAll
  -- `others` are the tickets in all records but the buyer's.  Counted, the codes of the
  -- old record are missing.
  have hlen₁ := ((hc r.key).trans hbefore).length_eq
  have hlen₂ := (hafterAll.trans hafter).length_eq
  have hpos : 0 < (ticketsHeld db r.uid r.key).length := List.length_pos_iff.mpr hagain
  simp only [List.length_append] at hlen₁ hlen₂
  omega

/-- A purchase cannot bring lost codes back. -/
theorem not_conserved_buy {db db' : Database K} {r : BuyRequest K Image} (hj : NoExtra db)
    (h : buy db r = some db') {id : K} (hlost : ¬ Conserved db id) : ¬ Conserved db' id := by
  obtain ⟨others, hbefore, hafter⟩ := codes_of_buy h id
  intro hafterAll
  unfold Conserved at hafterAll
  rw [allTickets_buy h] at hafterAll
  -- Nothing is ever added, so a list that is long enough has lost nothing.
  have hle : (allTickets db id).length ≤ (stock db id ++ ticketsOf db id).length := by
    have h₁ := (hafterAll.trans hafter).length_eq
    have h₂ := hbefore.length_eq
    simp only [List.length_append] at h₁ h₂ ⊢
    omega
  exact hlost ((hj id).perm_of_length_le hle).symm

/-! ## Section 4: The result -/

/-- Every purchase of a run finds no tickets in the buyer's record exactly when no
    user buys an event twice. -/
theorem stepsMeet_first_iff {db₀ db : Database K} {rs : List (BuyRequest K Image)}
    (hrun : Runs.exec buy db₀ rs = some db) :
    Runs.StepsMeet buy (fun db r => ticketsHeld db r.uid r.key = []) db₀ rs ↔
      (∀ r ∈ rs, ticketsHeld db₀ r.uid r.key = []) ∧
        (rs.map (fun r => (r.uid, r.key))).Nodup := by
  induction rs generalizing db₀ with
  | nil => simp [Runs.StepsMeet]
  | cons r rs ih =>
    obtain ⟨db₁, hbuy, hrest⟩ := Runs.exec_cons_eq_some.mp hrun
    have hheld := ticketsHeld_buy hbuy
    have hne := ticketsHeld_buy_ne_nil hbuy
    -- What the later buyers find, in terms of what they would have found before.
    have hlater : (∀ q ∈ rs, ticketsHeld db₁ q.uid q.key = []) ↔
        (r.uid, r.key) ∉ rs.map (fun q => (q.uid, q.key)) ∧
          ∀ q ∈ rs, ticketsHeld db₀ q.uid q.key = [] := by
      constructor
      · intro hall
        have hdiff : ∀ q ∈ rs, ¬ (r.uid = q.uid ∧ r.key = q.key) := by
          intro q hq hsame
          have hq' := hall q hq
          rw [← hsame.1, ← hsame.2] at hq'
          exact hne hq'
        refine ⟨?_, ?_⟩
        · intro hmem
          obtain ⟨q, hq, hpair⟩ := List.mem_map.mp hmem
          simp only [Prod.mk.injEq] at hpair
          exact hdiff q hq ⟨hpair.1.symm, hpair.2.symm⟩
        · intro q hq
          have hq' := hall q hq
          rwa [hheld, if_neg (hdiff q hq)] at hq'
      · intro hall q hq
        have hdiff : ¬ (r.uid = q.uid ∧ r.key = q.key) := by
          intro hsame
          exact hall.1 (List.mem_map.mpr ⟨q, hq, by rw [hsame.1, hsame.2]⟩)
        rw [hheld, if_neg hdiff]
        exact hall.2 q hq
    have hsteps : Runs.StepsMeet buy (fun db r => ticketsHeld db r.uid r.key = []) db₀ (r :: rs) ↔
        ticketsHeld db₀ r.uid r.key = [] ∧
          Runs.StepsMeet buy (fun db r => ticketsHeld db r.uid r.key = []) db₁ rs := by
      simp [Runs.StepsMeet, hbuy]
    rw [hsteps, ih hrest, hlater, List.map_cons, List.nodup_cons]
    simp only [List.forall_mem_cons]
    tauto

/-- **Exactly when tickets are conserved.**  In every state that a serial run reaches,
    `AllTickets` is the stock together with the tickets in all records, if and only
    if no user buys an event twice in the run. -/
theorem conserved_iff_boughtOnce {db₀ db : Database K} {rs : List (BuyRequest K Image)}
    (hfresh : FreshSale db₀) (hrun : Runs.exec buy db₀ rs = some db) :
    Runs.AlongRun buy (fun db => ∀ id, Conserved db id) db₀ rs ↔
      (rs.map (fun r => (r.uid, r.key))).Nodup := by
  have hno : NoExtra db₀ := fun id => (conserved_freshSale hfresh id).symm.subperm
  have hlast : ∀ (db : Database K) (r : BuyRequest K Image) (db' : Database K), NoExtra db →
      ¬ (∀ id, Conserved db id) → buy db r = some db' → ¬ ∀ id, Conserved db' id := by
    intro db r db' hj hlost h hall
    exact hlost (fun id => by
      by_contra hid
      exact not_conserved_buy hj h hid (hall id))
  rw [Runs.alongRun_iff_end (fun _ _ _ hj h => noExtra_buy hj h) hlast hno hrun,
    Runs.end_iff_stepsMeet (fun _ _ _ hj h => noExtra_buy hj h)
      (fun _ _ _ _ hc hfirst h => conserved_buy hfirst hc h) (fun _ _ hc => hc)
      (fun _ r _ _ hc hagain h hall => not_conserved_of_again hagain hc h (hall r.key))
      hlast hno (conserved_freshSale hfresh) hrun,
    stepsMeet_first_iff hrun]
  exact and_iff_right (fun r _ => hfresh.unsold r.uid r.key)

/-! ## Section 5: One user, two purchases -/

theorem freshSale_onSale (key : K) {tickets : List String} (h : tickets.Nodup) :
    FreshSale (onSale key tickets) := by
  have hall : ∀ id, allTickets (onSale key tickets) id = if key = id then tickets else [] := by
    intro id
    unfold allTickets onSale
    rw [apply_tickets_inventory, ChildMap.getElem?_put]
    split
    · rw [field_inventory_all, codes_node_strings]
    · show codes (field (∅ : ChildMap K Value)[id]? _) = []
      rw [Std.ExtTreeMap.getElem?_empty]
      rfl
  refine ⟨fun id => ?_, fun id => ?_, ticketsHeld_onSale key tickets⟩
  · rw [hall, stock_onSale]
  · rw [hall]
    split
    · exact h
    · exact List.nodup_nil

/-- The equivalence at a run of two users. -/
theorem conserved_two_users :
    ∃ db, Runs.exec buy (onSale "e1" ["A1", "A2"]) [concertRequest "ana" 1, concertRequest "luis" 1]
        = some db ∧
      Runs.AlongRun buy (fun db => ∀ id, Conserved db id) (onSale "e1" ["A1", "A2"])
        [concertRequest "ana" 1, concertRequest "luis" 1] := by
  have hruns : (Runs.exec buy (onSale "e1" ["A1", "A2"])
      [concertRequest "ana" 1, concertRequest "luis" 1]).isSome := by decide
  obtain ⟨db, hrun⟩ := Option.isSome_iff_exists.mp hruns
  exact ⟨db, hrun, (conserved_iff_boughtOnce (freshSale_onSale "e1" (by decide)) hrun).mpr
    (by decide)⟩

/-- **A lost ticket.**  The same user buys one ticket twice: `A1` is in no list. -/
theorem ticket_lost :
    ¬ ∀ (db₀ db : Database String) (rs : List (BuyRequest String Unit)), FreshSale db₀ →
      Runs.exec buy db₀ rs = some db →
      Runs.AlongRun buy (fun db => ∀ id, Conserved db id) db₀ rs := by
  intro hall
  have hruns : (Runs.exec buy (onSale "e1" ["A1", "A2"])
      [concertRequest "ana" 1, concertRequest "ana" 1]).map
        (fun db => (allTickets db "e1", stock db "e1", ticketsOf db "e1"))
      = some (["A1", "A2"], [], ["A2"]) := by decide
  obtain ⟨db, hrun, hlists⟩ := Option.map_eq_some_iff.mp hruns
  simp only [Prod.mk.injEq] at hlists
  have hconserved := (hall _ db _ (freshSale_onSale "e1" (by decide)) hrun).last hrun "e1"
  unfold Conserved at hconserved
  rw [hlists.1, hlists.2.1, hlists.2.2] at hconserved
  exact absurd hconserved.length_eq (by decide)

end MeetupApp.Purchase
