import MeetupApp.Purchase.Serial

/-! # Purchases of different events

    Both writes of a purchase are updates under the key of its event, so they
    keep the siblings, also those written after the purchase's own read.
    Purchases of pairwise different events therefore commute: every
    interleaving of their steps ends in the database that any serial order of
    them produces. -/

namespace MeetupApp.Purchase

open Firebase

variable {K Image : Type} [LinearOrder K]

/-! ## Section 1: What a family of purchases leads to -/

/-- The inventory write of a purchase that reads `db`. -/
def inventoryOf (db : Database K) (r : BuyRequest K Image) : Write K :=
  inventoryWrite r (stock db r.key) (allTickets db r.key)

/-- The profile write of a purchase that reads `db`. -/
def profileOf (db : Database K) (r : BuyRequest K Image) : Write K :=
  profileWrite r (stock db r.key)

/-- The inventory node that a purchase reading `db` writes. -/
def inventoryAfter (db : Database K) (r : BuyRequest K Image) : Option Value :=
  nodeFrom (inventoryObject (allTickets db r.key) ((stock db r.key).drop r.numberTickets.toNat))

/-- The record that a purchase reading `db` writes. -/
def recordAfter (db : Database K) (r : BuyRequest K Image) : Option Value :=
  nodeFrom (userObject r.screen ((stock db r.key).take r.numberTickets.toNat))

/-- **The outcome of a family of purchases**: the two nodes of each, and nothing else. -/
structure Outcome (db : Database K) (ps : List (BuyRequest K Image)) (d : Database K) : Prop where
  events : d.events = db.events
  fields : d.profileFields = db.profileFields
  inventory : ∀ r ∈ ps, d.eventsTickets[r.key]? = inventoryAfter db r
  record : ∀ r ∈ ps, d.record r.uid r.key = recordAfter db r
  inventory_other : ∀ id, (∀ r ∈ ps, r.key ≠ id) → d.eventsTickets[id]? = db.eventsTickets[id]?
  record_other : ∀ uid id, (∀ r ∈ ps, ¬ (r.uid = uid ∧ r.key = id)) →
    d.record uid id = db.record uid id

/-- The outcome is one database. -/
theorem Outcome.unique {db d d' : Database K} {ps : List (BuyRequest K Image)}
    (h : Outcome db ps d) (h' : Outcome db ps d') : d = d' := by
  refine Database.ext_getElem? (h.events.trans h'.events.symm) ?_ ?_ ?_
  · intro id
    by_cases hid : ∃ r ∈ ps, r.key = id
    · obtain ⟨r, hr, rfl⟩ := hid
      rw [h.inventory r hr, h'.inventory r hr]
    · have hother : ∀ r ∈ ps, r.key ≠ id := fun r hr hk => hid ⟨r, hr, hk⟩
      rw [h.inventory_other id hother, h'.inventory_other id hother]
  · intro k
    rw [h.fields, h'.fields]
  · intro k
    show d.record (ofLex k).1 (ofLex k).2 = d'.record (ofLex k).1 (ofLex k).2
    by_cases hk : ∃ r ∈ ps, r.uid = (ofLex k).1 ∧ r.key = (ofLex k).2
    · obtain ⟨r, hr, huid, hkey⟩ := hk
      rw [← huid, ← hkey, h.record r hr, h'.record r hr]
    · have hother : ∀ r ∈ ps, ¬ (r.uid = (ofLex k).1 ∧ r.key = (ofLex k).2) :=
        fun r hr hsame => hk ⟨r, hr, hsame⟩
      rw [h.record_other _ _ hother, h'.record_other _ _ hother]

/-- The outcome does not depend on the order of the family. -/
theorem Outcome.perm {db d : Database K} {ps qs : List (BuyRequest K Image)}
    (h : Outcome db ps d) (hperm : qs.Perm ps) : Outcome db qs d where
  events := h.events
  fields := h.fields
  inventory r hr := h.inventory r (hperm.mem_iff.mp hr)
  record r hr := h.record r (hperm.mem_iff.mp hr)
  inventory_other id hid := h.inventory_other id (fun r hr => hid r (hperm.mem_iff.mpr hr))
  record_other uid id hid := h.record_other uid id (fun r hr => hid r (hperm.mem_iff.mpr hr))

/-! ## Section 2: Serial execution -/

/-- A purchase that can be made reads two arrays with enough codes. -/
theorem casts_of_buyable {db : Database K} {r : BuyRequest K Image} (h : (buy db r).isSome) :
    0 < r.numberTickets ∧
    castStrings (field db.eventsTickets[r.key]? "RemainingTickets") = some (stock db r.key) ∧
    castStrings (field db.eventsTickets[r.key]? "AllTickets") = some (allTickets db r.key) ∧
    r.numberTickets.toNat ≤ (stock db r.key).length := by
  obtain ⟨db', hbuy⟩ := Option.isSome_iff_exists.mp h
  obtain ⟨hpos, remaining, all, hrem, hall, hn, -⟩ := buy_eq_some.mp hbuy
  have hstock : stock db r.key = remaining := codes_of_castStrings hrem
  have hallTickets : allTickets db r.key = all := codes_of_castStrings hall
  rw [hstock, hallTickets]
  exact ⟨hpos, hrem, hall, hn⟩

theorem buy_of_buyable {db : Database K} {r : BuyRequest K Image} (h : (buy db r).isSome) :
    buy db r = some ((db.apply (inventoryOf db r)).apply (profileOf db r)) := by
  obtain ⟨hpos, hrem, hall, hn⟩ := casts_of_buyable h
  exact buy_eq_some.mpr ⟨hpos, _, _, hrem, hall, hn, rfl⟩

/-- Whether a purchase can be made depends on the inventory of its event only. -/
theorem buyable_congr {db db' : Database K} {r : BuyRequest K Image}
    (h : db'.eventsTickets[r.key]? = db.eventsTickets[r.key]?) (hbuy : (buy db r).isSome) :
    (buy db' r).isSome := by
  obtain ⟨hpos, hrem, hall, hn⟩ := casts_of_buyable hbuy
  rw [← h] at hrem hall
  exact Option.isSome_iff_exists.mpr ⟨_, buy_eq_some.mpr ⟨hpos, _, _, hrem, hall, hn, rfl⟩⟩

/-- The nodes that a purchase writes depend on the inventory of its event only. -/
theorem after_congr {db db' : Database K} {r : BuyRequest K Image}
    (h : db'.eventsTickets[r.key]? = db.eventsTickets[r.key]?) :
    inventoryAfter db' r = inventoryAfter db r ∧ recordAfter db' r = recordAfter db r := by
  unfold inventoryAfter recordAfter stock allTickets
  rw [h]
  exact ⟨rfl, rfl⟩

section serial
variable {r : BuyRequest K Image} {ps : List (BuyRequest K Image)}

omit [LinearOrder K] in
theorem ne_key_of_distinct (h : ((r :: ps).map (·.key)).Nodup) : ∀ q ∈ ps, r.key ≠ q.key := by
  rw [List.map_cons, List.nodup_cons] at h
  intro q hq hsame
  exact h.1 (List.mem_map.mpr ⟨q, hq, hsame.symm⟩)

/-- A serial run of purchases of different events, each possible on `db`, succeeds. -/
theorem exec_buyable {db : Database K} (hdistinct : (ps.map (·.key)).Nodup)
    (hbuy : ∀ r ∈ ps, (buy db r).isSome) : ∃ d, Runs.exec buy db ps = some d := by
  induction ps generalizing db with
  | nil => exact ⟨db, rfl⟩
  | cons r ps ih =>
    have hkeys := ne_key_of_distinct hdistinct
    obtain ⟨d₁, hd₁⟩ := Option.isSome_iff_exists.mp (hbuy r (by simp))
    obtain ⟨d, hd⟩ := ih (List.nodup_cons.mp hdistinct).2 (fun q hq =>
      buyable_congr (inventory_buy_other hd₁ (hkeys q hq)) (hbuy q (by simp [hq])))
    exact ⟨d, Runs.exec_cons_eq_some.mpr ⟨d₁, hd₁, hd⟩⟩

/-- In a serial run of purchases of different events each of them was possible on `db`. -/
theorem buyable_of_exec {db d : Database K} (hdistinct : (ps.map (·.key)).Nodup)
    (hrun : Runs.exec buy db ps = some d) : ∀ r ∈ ps, (buy db r).isSome := by
  induction ps generalizing db with
  | nil => simp
  | cons r ps ih =>
    have hkeys := ne_key_of_distinct hdistinct
    obtain ⟨d₁, hd₁, hd⟩ := Runs.exec_cons_eq_some.mp hrun
    intro q hq
    rcases List.mem_cons.mp hq with rfl | hq
    · rw [hd₁]
      rfl
    · exact buyable_congr (inventory_buy_other hd₁ (hkeys q hq)).symm
        (ih (List.nodup_cons.mp hdistinct).2 hd q hq)

/-- A serial run of purchases of different events leads to the outcome. -/
theorem outcome_of_exec {db d : Database K} (hdistinct : (ps.map (·.key)).Nodup)
    (hrun : Runs.exec buy db ps = some d) : Outcome db ps d := by
  induction ps generalizing db with
  | nil =>
    obtain rfl : db = d := Option.some.inj hrun
    exact ⟨rfl, rfl, by simp, by simp, fun _ _ => rfl, fun _ _ _ => rfl⟩
  | cons r ps ih =>
    have hkeys := ne_key_of_distinct hdistinct
    obtain ⟨d₁, hd₁, hd⟩ := Runs.exec_cons_eq_some.mp hrun
    -- The other purchases find the inventories of their events as they were in `db`.
    have hother : ∀ id, r.key ≠ id → d₁.eventsTickets[id]? = db.eventsTickets[id]? :=
      fun id hid => inventory_buy_other hd₁ hid
    have hout := ih (List.nodup_cons.mp hdistinct).2 hd
    have hd₁eq : d₁ = (db.apply (inventoryOf db r)).apply (profileOf db r) :=
      Option.some.inj (hd₁.symm.trans (buy_of_buyable (by rw [hd₁]; rfl)))
    refine ⟨?_, ?_, ?_, ?_, ?_, ?_⟩
    · rw [hout.events, events_buy hd₁]
    · rw [hout.fields, hd₁eq]
      rfl
    · intro q hq
      rcases List.mem_cons.mp hq with rfl | hq
      · -- The later purchases leave the node of the first alone.
        rw [hout.inventory_other q.key (fun p hp => (hkeys p hp).symm), hd₁eq]
        show (db.eventsTickets.put q.key _)[q.key]? = _
        rw [ChildMap.getElem?_put_self]
        rfl
      · rw [hout.inventory q hq, (after_congr (hother q.key (hkeys q hq))).1]
    · intro q hq
      rcases List.mem_cons.mp hq with rfl | hq
      · rw [hout.record_other _ _ (fun p hp hsame => hkeys p hp hsame.2.symm), record_buy hd₁,
          if_pos ⟨rfl, rfl⟩]
        rfl
      · rw [hout.record q hq, (after_congr (hother q.key (hkeys q hq))).2]
    · intro id hid
      rw [hout.inventory_other id (fun q hq => hid q (by simp [hq])), hother id (hid r (by simp))]
    · intro uid id hid
      rw [hout.record_other uid id (fun q hq => hid q (by simp [hq])), record_buy hd₁,
        if_neg (hid r (by simp))]

end serial

/-! ## Section 3: Interleaved execution -/

/-- The purchase that a tap of a signed-in user starts. -/
def tapped : Label K Image → Option (BuyRequest K Image)
  | .tap _ (some uid) screen sliderValue => some ⟨screen, uid, screen.eventId, sliderValue⟩
  | _ => none

/-- The purchases started in a run, in the order of their taps. -/
def taps (ls : List (Label K Image)) : List (BuyRequest K Image) :=
  ls.filterMap tapped

omit [LinearOrder K] in
theorem taps_snoc (tr : List (Label K Image)) (l : Label K Image) :
    taps (tr ++ [l]) = taps tr ++ (tapped l).toList := by
  unfold taps
  rw [List.filterMap_append]
  cases h : tapped l <;> simp [h]

/-- The runs this module is about: purchases of pairwise different events, each of them
    possible on `db`, and no write refused. -/
structure Family (db : Database K) (ls : List (Label K Image)) : Prop where
  distinct : ((taps ls).map (·.key)).Nodup
  buyable : ∀ r ∈ taps ls, (buy db r).isSome
  accepted : ∀ client, .reject client ∉ ls

theorem Family.init {db : Database K} {tr : List (Label K Image)} {l : Label K Image}
    (h : Family db (tr ++ [l])) : Family db tr where
  distinct := by
    have hd := h.distinct
    rw [taps_snoc, List.map_append] at hd
    exact hd.sublist (List.sublist_append_left _ _)
  buyable r hr := h.buyable r (by rw [taps_snoc]; exact List.mem_append_left _ hr)
  accepted client hmem := h.accepted client (List.mem_append_left _ hmem)

/-- The purchase still waits for its read. -/
def Waiting (s : State K Image) (r : BuyRequest K Image) : Prop :=
  ∃ q ∈ s.reads, q.request = r

/-- The write is on its way to the server. -/
def InFlight (s : State K Image) (w : Write K) : Prop :=
  ∃ client, w ∈ s.outbox client

/-- **Progress of a family `ps` of purchases of different events.**  Each of them waits
    for its read, or each of its writes is in flight or applied; nothing else has
    changed, and whatever waits will still read the inventory it would have read
    at first. -/
structure Progress (db : Database K) (ps : List (BuyRequest K Image)) (s : State K Image) :
    Prop where
  events : s.db.events = db.events
  fields : s.db.profileFields = db.profileFields
  requests : ∀ q ∈ s.reads, q.request ∈ ps
  distinct : (s.reads.map (·.request.key)).Nodup
  snapshots : ∀ q ∈ s.reads, ∀ node ∈ q.held, node = db.eventsTickets[q.request.key]?
  untouched : ∀ q ∈ s.reads, s.db.eventsTickets[q.request.key]? = db.eventsTickets[q.request.key]?
    ∧ ¬ InFlight s (inventoryOf db q.request)
  writes : ∀ w, InFlight s w → ∃ r ∈ ps, w = inventoryOf db r ∨ w = profileOf db r
  inventory : ∀ r ∈ ps, Waiting s r ∨ InFlight s (inventoryOf db r) ∨
    s.db.eventsTickets[r.key]? = inventoryAfter db r
  record : ∀ r ∈ ps, Waiting s r ∨ InFlight s (profileOf db r) ∨
    s.db.record r.uid r.key = recordAfter db r
  inventory_other : ∀ id, (∀ r ∈ ps, r.key ≠ id) →
    s.db.eventsTickets[id]? = db.eventsTickets[id]?
  record_other : ∀ uid id, (∀ r ∈ ps, ¬ (r.uid = uid ∧ r.key = id)) →
    s.db.record uid id = db.record uid id

/-- When nothing waits and nothing is in flight, the outcome is reached. -/
theorem Progress.outcome {db : Database K} {ps : List (BuyRequest K Image)} {s : State K Image}
    (h : Progress db ps s) (hreads : s.reads = []) (hout : ∀ client, s.outbox client = []) :
    Outcome db ps s.db := by
  have hwait : ∀ r, ¬ Waiting s r := by
    intro r hr
    obtain ⟨q, hq, -⟩ := hr
    rw [hreads] at hq
    cases hq
  have hflight : ∀ w, ¬ InFlight s w := by
    intro w hw
    obtain ⟨client, hw⟩ := hw
    rw [hout client] at hw
    cases hw
  refine ⟨h.events, h.fields, ?_, ?_, h.inventory_other, h.record_other⟩
  · intro r hr
    rcases h.inventory r hr with hw | hf | hdone
    · exact absurd hw (hwait r)
    · exact absurd hf (hflight _)
    · exact hdone
  · intro r hr
    rcases h.record r hr with hw | hf | hdone
    · exact absurd hw (hwait r)
    · exact absurd hf (hflight _)
    · exact hdone

theorem progress_initial (db : Database K) :
    Progress db [] (State.initial db : State K Image) := by
  have hflight : ∀ w, ¬ InFlight (State.initial db : State K Image) w := by
    intro w hw
    obtain ⟨client, hw⟩ := hw
    cases hw
  have hno : ∀ q : PendingRead K Image, q ∉ (State.initial db : State K Image).reads := by
    intro q hq
    cases hq
  exact ⟨rfl, rfl, fun q hq => absurd hq (hno q), List.nodup_nil,
    fun q hq => absurd hq (hno q), fun q hq => absurd hq (hno q), fun w hw => absurd hw (hflight w),
    by simp, by simp, fun _ _ => rfl, fun _ _ _ => rfl⟩

/-! ### The tap -/

/-- A tap for a new event adds a purchase that waits. -/
theorem progress_issue {db : Database K} {ps : List (BuyRequest K Image)} {s : State K Image}
    (h : Progress db ps s) {client : Nat} {r : BuyRequest K Image}
    (hnew : ∀ p ∈ ps, p.key ≠ r.key) : Progress db (ps ++ [r]) (s.issue client r) := by
  have hkeep : ∀ p, Waiting s p → Waiting (s.issue client r) p := by
    intro p hp
    obtain ⟨q, hq, hqp⟩ := hp
    exact ⟨q, mem_reads_issue.mpr (Or.inl hq), hqp⟩
  have hwaits : Waiting (s.issue client r) r := ⟨_, mem_reads_issue.mpr (Or.inr rfl), rfl⟩
  have hsame : s.db.eventsTickets[r.key]? = db.eventsTickets[r.key]? :=
    h.inventory_other r.key hnew
  -- All writes in flight belong to other events.
  have hflight : ¬ InFlight s (inventoryOf db r) := by
    intro hf
    obtain ⟨p, hp, heq⟩ := h.writes _ hf
    rcases heq with heq | heq
    · injection heq with hkey
      exact hnew p hp hkey.symm
    · cases heq
  refine ⟨h.events, h.fields, ?_, ?_, ?_, ?_, ?_, ?_, ?_, ?_, ?_⟩
  · intro q hq
    rcases mem_reads_issue.mp hq with hold | rfl
    · exact List.mem_append_left _ (h.requests q hold)
    · simp
  · show ((s.reads ++ [_]).map _).Nodup
    rw [List.map_append, List.nodup_append]
    refine ⟨h.distinct, by simp, ?_⟩
    intro k hk k' hk' heq
    obtain ⟨q, hq, rfl⟩ := List.mem_map.mp hk
    simp only [List.map_cons, List.map_nil, List.mem_singleton] at hk'
    exact hnew q.request (h.requests q hq) (heq.trans hk')
  · intro q hq node hnode
    rcases mem_reads_issue.mp hq with hold | rfl
    · exact h.snapshots q hold node hnode
    · rw [List.mem_singleton] at hnode
      exact hnode.trans hsame
  · intro q hq
    rcases mem_reads_issue.mp hq with hold | rfl
    · exact h.untouched q hold
    · exact ⟨hsame, hflight⟩
  · intro w hw
    obtain ⟨p, hp, heq⟩ := h.writes w hw
    exact ⟨p, List.mem_append_left _ hp, heq⟩
  · intro p hp
    rcases List.mem_append.mp hp with hold | hp
    · exact (h.inventory p hold).imp (hkeep p) id
    · rw [List.mem_singleton] at hp
      subst hp
      exact Or.inl hwaits
  · intro p hp
    rcases List.mem_append.mp hp with hold | hp
    · exact (h.record p hold).imp (hkeep p) id
    · rw [List.mem_singleton] at hp
      subst hp
      exact Or.inl hwaits
  · exact fun id hid => h.inventory_other id (fun p hp => hid p (by simp [hp]))
  · exact fun uid id hid => h.record_other uid id (fun p hp => hid p (by simp [hp]))

/-! ### The delivery -/

section delivery
variable {s : State K Image} {i client : Nat} {q : PendingRead K Image}
  {sale : FrontSale.Sale K K String} {inventory profile : Write K}

/-- The other purchases still wait. -/
theorem waiting_confirm (hq : s.reads[i]? = some q) {p : BuyRequest K Image} (hp : Waiting s p)
    (hne : p ≠ q.request) : Waiting (s.confirm i client sale inventory profile) p := by
  obtain ⟨a, ha, rfl⟩ := hp
  obtain ⟨j, hj⟩ := List.mem_iff_getElem?.mp ha
  refine ⟨a, List.mem_eraseIdx_iff_getElem?.mpr ⟨j, ?_, hj⟩, rfl⟩
  intro hji
  subst hji
  obtain rfl : a = q := Option.some.inj (hj.symm.trans hq)
  exact hne rfl

/-- With one read for each event, the reads that remain are for other events. -/
theorem reads_confirm (hdistinct : (s.reads.map (·.request.key)).Nodup)
    (hq : s.reads[i]? = some q) {a : PendingRead K Image}
    (ha : a ∈ (s.confirm i client sale inventory profile).reads) :
    a ∈ s.reads ∧ a.request.key ≠ q.request.key := by
  obtain ⟨j, hji, hj⟩ := List.mem_eraseIdx_iff_getElem?.mp ha
  refine ⟨List.mem_of_getElem? hj, ?_⟩
  intro hkey
  have hjlen : j < s.reads.length := (List.getElem?_eq_some_iff.mp hj).1
  have hget : (s.reads.map (·.request.key))[j]? = (s.reads.map (·.request.key))[i]? := by
    rw [List.getElem?_map, List.getElem?_map, hj, hq]
    simp [hkey]
  exact hji ((List.getElem?_inj (by simpa using hjlen) hdistinct).mp hget)

/-- The two writes of the purchase join those in flight. -/
theorem inFlight_confirm {w : Write K} :
    InFlight (s.confirm i client sale inventory profile) w ↔
      InFlight s w ∨ w = inventory ∨ w = profile := by
  constructor
  · intro hw
    obtain ⟨c, hc⟩ := hw
    exact (mem_outbox_confirm hc).imp (fun hold => ⟨c, hold⟩) id
  · intro hw
    rcases hw with ⟨c, hc⟩ | hnew
    · refine ⟨c, ?_⟩
      show w ∈ Function.update s.outbox client _ c
      by_cases hcc : c = client
      · subst hcc
        rw [Function.update_self]
        exact List.mem_append_left _ hc
      · rw [Function.update_of_ne hcc]
        exact hc
    · refine ⟨client, ?_⟩
      show w ∈ Function.update s.outbox client _ client
      rw [Function.update_self]
      exact List.mem_append_right _ (by simpa using hnew)

/-- A purchase that waits, has its write `w` in flight or has it applied, still does, and
    the one that was delivered has `w` in flight now. -/
theorem stage_confirm (hq : s.reads[i]? = some q) {p : BuyRequest K Image} {w : Write K}
    {Applied : Prop} (hstage : Waiting s p ∨ InFlight s w ∨ Applied)
    (hissued : p = q.request → w = inventory ∨ w = profile) :
    Waiting (s.confirm i client sale inventory profile) p ∨
      InFlight (s.confirm i client sale inventory profile) w ∨ Applied := by
  by_cases hpq : p = q.request
  · exact Or.inr (Or.inl (inFlight_confirm.mpr (Or.inr (hissued hpq))))
  · rcases hstage with hw | hf | hdone
    · exact Or.inl (waiting_confirm hq hw hpq)
    · exact Or.inr (Or.inl (inFlight_confirm.mpr (Or.inl hf)))
    · exact Or.inr (Or.inr hdone)

end delivery

/-- A delivery turns a waiting purchase into its two writes. -/
theorem progress_confirm {db : Database K} {ps : List (BuyRequest K Image)} {s : State K Image}
    (h : Progress db ps s) {i : Nat} {q : PendingRead K Image} (hq : s.reads[i]? = some q)
    (sale : FrontSale.Sale K K String) :
    Progress db ps (s.confirm i q.client sale (inventoryOf db q.request)
      (profileOf db q.request)) := by
  have hmem : q ∈ s.reads := List.mem_of_getElem? hq
  refine ⟨h.events, h.fields, ?_, ?_, ?_, ?_, ?_, ?_, ?_, h.inventory_other, h.record_other⟩
  · exact fun a ha => h.requests a (reads_confirm h.distinct hq ha).1
  · show ((s.reads.eraseIdx i).map _).Nodup
    exact h.distinct.sublist ((List.eraseIdx_sublist _ _).map _)
  · exact fun a ha => h.snapshots a (reads_confirm h.distinct hq ha).1
  · intro a ha
    obtain ⟨hold, hkey⟩ := reads_confirm h.distinct hq ha
    refine ⟨(h.untouched a hold).1, ?_⟩
    intro hf
    rcases inFlight_confirm.mp hf with hf | heq | heq
    · exact (h.untouched a hold).2 hf
    · injection heq with heq
      exact hkey heq
    · cases heq
  · intro w hw
    rcases inFlight_confirm.mp hw with hf | rfl | rfl
    · exact h.writes w hf
    · exact ⟨q.request, h.requests q hmem, Or.inl rfl⟩
    · exact ⟨q.request, h.requests q hmem, Or.inr rfl⟩
  · intro p hp
    exact stage_confirm hq (h.inventory p hp) (fun hpq => Or.inl (by rw [hpq]))
  · intro p hp
    exact stage_confirm hq (h.record p hp) (fun hpq => Or.inr (by rw [hpq]))

/-! ### The server -/

/-- What is left in flight when the server has taken a write. -/
theorem inFlight_serve {s : State K Image} {client : Nat} {db : Database K} {w v : Write K}
    {rest : List (Write K)} (hout : s.outbox client = w :: rest) (hv : InFlight s v) :
    v = w ∨ InFlight (s.serve client db rest) v := by
  obtain ⟨c, hc⟩ := hv
  by_cases hcc : c = client
  · subst hcc
    rw [hout] at hc
    rcases List.mem_cons.mp hc with rfl | hrest
    · exact Or.inl rfl
    · exact Or.inr ⟨c, by simpa [State.serve] using hrest⟩
  · refine Or.inr ⟨c, ?_⟩
    show v ∈ Function.update s.outbox client rest c
    rw [Function.update_of_ne hcc]
    exact hc

theorem inFlight_of_serve {s : State K Image} {client : Nat} {db : Database K} {w v : Write K}
    {rest : List (Write K)} (hout : s.outbox client = w :: rest)
    (hv : InFlight (s.serve client db rest) v) : InFlight s v := by
  obtain ⟨c, hc⟩ := hv
  exact ⟨c, mem_outbox_of_serve hout hc⟩

/-- The same for the server's move: the purchase whose write was taken has it applied. -/
theorem stage_serve {s : State K Image} {client : Nat} {d : Database K} {w v : Write K}
    {rest : List (Write K)} (hout : s.outbox client = w :: rest) {p : BuyRequest K Image}
    {Applied Applied' : Prop} (hstage : Waiting s p ∨ InFlight s v ∨ Applied)
    (happlied : v = w ∨ Applied → Applied') :
    Waiting (s.serve client d rest) p ∨ InFlight (s.serve client d rest) v ∨ Applied' := by
  rcases hstage with hw | hf | hdone
  · obtain ⟨q, hq, hqp⟩ := hw
    exact Or.inl ⟨_, mem_reads_serve.mpr ⟨q, hq, rfl⟩, hqp⟩
  · rcases inFlight_serve hout hf with heq | hf
    · exact Or.inr (Or.inr (happlied (Or.inl heq)))
    · exact Or.inr (Or.inl hf)
  · exact Or.inr (Or.inr (happlied (Or.inr hdone)))

/-- Taking `w` and moving to `d` makes progress, if `d` has the nodes that `w` should
    leave, keeps those already written, and changes no others. -/
theorem progress_serve {db d : Database K} {ps : List (BuyRequest K Image)} {s : State K Image}
    (h : Progress db ps s) {client : Nat} {w : Write K} {rest : List (Write K)}
    (hout : s.outbox client = w :: rest) (hevents : d.events = s.db.events)
    (hfields : d.profileFields = s.db.profileFields)
    (hreads : ∀ q ∈ s.reads, d.eventsTickets[q.request.key]? = db.eventsTickets[q.request.key]?)
    (hinventory : ∀ r ∈ ps, inventoryOf db r = w ∨
      s.db.eventsTickets[r.key]? = inventoryAfter db r →
      d.eventsTickets[r.key]? = inventoryAfter db r)
    (hrecord : ∀ r ∈ ps, profileOf db r = w ∨ s.db.record r.uid r.key = recordAfter db r →
      d.record r.uid r.key = recordAfter db r)
    (hinventoryOther : ∀ id, (∀ r ∈ ps, r.key ≠ id) →
      d.eventsTickets[id]? = s.db.eventsTickets[id]?)
    (hrecordOther : ∀ uid id, (∀ r ∈ ps, ¬ (r.uid = uid ∧ r.key = id)) →
      d.record uid id = s.db.record uid id) :
    Progress db ps (s.serve client d rest) := by
  refine ⟨hevents.trans h.events, hfields.trans h.fields, ?_, ?_, ?_, ?_, ?_, ?_, ?_, ?_, ?_⟩
  · intro q hq
    obtain ⟨a, ha, rfl⟩ := mem_reads_serve.mp hq
    exact h.requests a ha
  · show ((s.reads.map _).map _).Nodup
    rw [List.map_map]
    exact h.distinct
  · intro q hq node hnode
    obtain ⟨a, ha, rfl⟩ := mem_reads_serve.mp hq
    rcases List.mem_append.mp hnode with hold | hnew
    · exact h.snapshots a ha node hold
    · rw [List.mem_singleton] at hnew
      exact hnew.trans (hreads a ha)
  · intro q hq
    obtain ⟨a, ha, rfl⟩ := mem_reads_serve.mp hq
    exact ⟨hreads a ha, fun hf => (h.untouched a ha).2 (inFlight_of_serve hout hf)⟩
  · exact fun v hv => h.writes v (inFlight_of_serve hout hv)
  · exact fun r hr => stage_serve hout (h.inventory r hr) (hinventory r hr)
  · exact fun r hr => stage_serve hout (h.record r hr) (hrecord r hr)
  · exact fun id hid => (hinventoryOther id hid).trans (h.inventory_other id hid)
  · exact fun uid id hid => (hrecordOther uid id hid).trans (h.record_other uid id hid)

theorem inventory_apply_inventoryOf (d db : Database K) (r : BuyRequest K Image) (id : K) :
    (d.apply (inventoryOf db r)).eventsTickets[id]?
      = if r.key = id then inventoryAfter db r else d.eventsTickets[id]? :=
  ChildMap.getElem?_put _ _ _ _

theorem record_apply_profileOf (d db : Database K) (r : BuyRequest K Image) (uid id : K) :
    (d.apply (profileOf db r)).record uid id
      = if r.uid = uid ∧ r.key = id then recordAfter db r else d.record uid id :=
  record_apply_record _ _ _ _ _ _

/-- The server applies one of the writes in flight. -/
theorem progress_accept {db : Database K} {ps : List (BuyRequest K Image)} {s : State K Image}
    (hdistinct : (ps.map (·.key)).Nodup) (h : Progress db ps s) {client : Nat} {w : Write K}
    {rest : List (Write K)} (hout : s.outbox client = w :: rest) :
    Progress db ps (s.serve client (s.db.apply w) rest) := by
  have hw : InFlight s w := ⟨client, by rw [hout]; simp⟩
  obtain ⟨p, hp, hwp⟩ := h.writes w hw
  -- An event has one purchase in the family.
  have hkeyInj : ∀ r ∈ ps, p.key = r.key → p = r :=
    fun r hr hkey => List.inj_on_of_nodup_map hdistinct hp hr hkey
  rcases hwp with rfl | rfl
  · -- The inventory node of `p` is written; no other purchase is for its event.
    refine progress_serve h hout rfl rfl ?_ ?_ ?_ ?_ (fun _ _ _ => rfl)
    · intro q hq
      rw [inventory_apply_inventoryOf, if_neg, (h.untouched q hq).1]
      intro hkey
      obtain rfl := hkeyInj q.request (h.requests q hq) hkey
      exact (h.untouched q hq).2 hw
    · intro r hr hor
      rw [inventory_apply_inventoryOf]
      by_cases hkey : p.key = r.key
      · obtain rfl := hkeyInj r hr hkey
        rw [if_pos rfl]
      · rw [if_neg hkey]
        rcases hor with heq | hdone
        · injection heq with heq
          exact absurd heq.symm hkey
        · exact hdone
    · intro r hr hor
      rcases hor with heq | hdone
      · cases heq
      · exact hdone
    · intro id hid
      rw [inventory_apply_inventoryOf, if_neg (hid p hp)]
  · -- The record of `p` is written; no other purchase is for its event.
    refine progress_serve h hout rfl rfl (fun q hq => (h.untouched q hq).1) ?_ ?_
      (fun _ _ => rfl) ?_
    · intro r hr hor
      rcases hor with heq | hdone
      · cases heq
      · exact hdone
    · intro r hr hor
      rw [record_apply_profileOf]
      by_cases hkey : p.key = r.key
      · obtain rfl := hkeyInj r hr hkey
        rw [if_pos ⟨rfl, rfl⟩]
      · rw [if_neg (fun hand => hkey hand.2)]
        rcases hor with heq | hdone
        · injection heq with huid heq
          exact absurd heq.symm hkey
        · exact hdone
    · intro uid id hid
      rw [record_apply_profileOf, if_neg (hid p hp)]

/-- One step makes progress. -/
theorem progress_step {db : Database K} {tr : List (Label K Image)} {s s' : State K Image}
    {l : Label K Image} (hfamily : Family db (tr ++ [l])) (h : Progress db (taps tr) s)
    (hstep : step s l = some s') : Progress db (taps (tr ++ [l])) s' := by
  obtain ⟨hdistinct, hbuy, haccepted⟩ := hfamily
  rw [taps_snoc] at hdistinct hbuy ⊢
  cases l with
  | tap client currentUser screen sliderValue =>
    rcases step_tap hstep with ⟨rfl, rfl⟩ | ⟨uid, rfl, -, -, rfl⟩
    · show Progress db (taps tr ++ []) s'
      rw [List.append_nil]
      exact h
    · refine progress_issue h ?_
      -- A second purchase of the event would occur twice among the keys.
      intro p hp hkey
      rw [List.map_append, List.nodup_append] at hdistinct
      exact hdistinct.2.2 p.key (List.mem_map_of_mem hp) _ (List.mem_singleton.mpr rfl) hkey
  | deliver i version =>
    rw [show (tapped (.deliver i version : Label K Image)).toList = [] from rfl,
      List.append_nil] at hbuy ⊢
    rcases step_deliver hstep with ⟨q, node, hq, hnode, hcase⟩
    have hmem : q ∈ s.reads := List.mem_of_getElem? hq
    have hsame : node = db.eventsTickets[q.request.key]? :=
      h.snapshots q hmem node (List.mem_of_getElem? hnode)
    obtain ⟨-, hrem, hall, hn⟩ := casts_of_buyable (hbuy q.request (h.requests q hmem))
    rw [← hsame] at hrem hall
    have hdeliver := BuyRequest.deliver_enough hrem hall hn
    -- With enough stock the delivery neither traps nor is refused.
    rcases hcase with ⟨hnone, -⟩ | ⟨hnot, -⟩ | ⟨remaining, all, hrem', hall', -, rfl⟩
    · rw [hdeliver] at hnone
      cases hnone
    · rw [hdeliver] at hnot
      cases hnot
    · obtain rfl : stock db q.request.key = remaining := Option.some.inj (hrem.symm.trans hrem')
      obtain rfl : allTickets db q.request.key = all := Option.some.inj (hall.symm.trans hall')
      exact progress_confirm h hq _
  | accept client =>
    rw [show (tapped (.accept client : Label K Image)).toList = [] from rfl,
      List.append_nil] at hdistinct ⊢
    rcases step_accept hstep with ⟨w, rest, hout, rfl⟩
    exact progress_accept hdistinct h hout
  | reject client => exact absurd (by simp) (haccepted client)

/-! ## Section 4: The result -/

/-- **Purchases of different events do not interfere.**  However the steps of a family
    of purchases for pairwise different events interleave, once nothing is in flight
    the database is the one that the purchases lead to one after another, in any
    order. -/
theorem independent_purchases {db : Database K} {ls : List (Label K Image)} {s : State K Image}
    (hrun : Runs.exec step (State.initial db) ls = some s) (hfamily : Family db ls)
    (hreads : s.reads = []) (hout : ∀ client, s.outbox client = [])
    {ps : List (BuyRequest K Image)} (hperm : ps.Perm (taps ls)) :
    Runs.exec buy db ps = some s.db := by
  have hprogress : Progress db (taps ls) s := by
    -- What is assumed of the run holds of each of its prefixes.
    have hstep : ∀ tr (t : State K Image) l t', (Family db tr → Progress db (taps tr) t) →
        step t l = some t' → Family db (tr ++ [l]) → Progress db (taps (tr ++ [l])) t' :=
      fun tr t l t' hinv hstep hf => progress_step hf (hinv hf.init) hstep
    exact Runs.exec_preserves_trace (fun tr t => Family db tr → Progress db (taps tr) t) hstep
      (fun _ => progress_initial db) hrun hfamily
  have houtcome := (hprogress.outcome hreads hout).perm hperm
  have hkeys : (ps.map (·.key)).Nodup := (hperm.map _).nodup_iff.mpr hfamily.distinct
  obtain ⟨d, hd⟩ := exec_buyable hkeys (fun r hr => hfamily.buyable r (hperm.mem_iff.mp hr))
  rw [hd, (outcome_of_exec hkeys hd).unique houtcome]

/-! ## Section 5: One user, two events at once -/

/-- Two events on sale. -/
def twoEvents : Database String :=
  (onSale "e1" ["A1", "A2"]).apply (.eventsTickets "e2" (inventoryObject ["B1"] ["B1"]))

/-- Ana taps for both events before either read is delivered; the deliveries come in
    the other order. -/
def crossedTaps : List (Label String Unit) :=
  [.tap 0 (some "ana") (concertScreen "e1") 1, .tap 0 (some "ana") (concertScreen "e2") 1,
   .deliver 1 0, .deliver 0 0, .accept 0, .accept 0, .accept 0, .accept 0]

theorem crossedTaps_family : Family twoEvents crossedTaps where
  distinct := by decide
  buyable := by decide
  accepted client := by simp [crossedTaps]

theorem crossedTaps_quiet (client : Nat) :
    (Runs.exec step (State.initial twoEvents) crossedTaps).map
      (fun s => (s.reads.length, s.outbox client)) = some (0, []) := by
  cases client with
  | zero => rfl
  | succ n => rfl

/-- The crossed run ends in the database of either serial order. -/
theorem crossedTaps_serial :
    ∃ s : State String Unit, Runs.exec step (State.initial twoEvents) crossedTaps = some s ∧
      Runs.exec buy twoEvents (taps crossedTaps) = some s.db ∧
      Runs.exec buy twoEvents (taps crossedTaps).reverse = some s.db := by
  obtain ⟨s, hrun, hquiet⟩ := Option.map_eq_some_iff.mp (crossedTaps_quiet 0)
  have hreads : s.reads = [] := List.length_eq_zero_iff.mp (congrArg Prod.fst hquiet)
  have hout : ∀ client, s.outbox client = [] := by
    intro client
    have h := crossedTaps_quiet client
    rw [hrun] at h
    exact congrArg Prod.snd (Option.some.inj h)
  exact ⟨s, hrun,
    independent_purchases hrun crossedTaps_family hreads hout (List.Perm.refl _),
    independent_purchases hrun crossedTaps_family hreads hout (List.reverse_perm _)⟩

end MeetupApp.Purchase
