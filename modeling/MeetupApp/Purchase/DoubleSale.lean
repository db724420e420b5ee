import MeetupApp.Purchase.Integrity

/-! # Double sales, and exactly when they happen

    The callback sells the first codes of whatever list its read delivers.
    Nothing ties that list to the purchases confirmed in the meantime: there is
    no transaction and no version check, so two purchases whose windows overlap
    sell the same codes.

    The result of this module is the exact extent of the defect.  The ledger of
    a run is free of double sales if and only if every purchase was confirmed on
    the list that the purchases confirmed before it had left (`UpToDate`). -/

namespace MeetupApp.Purchase

open Firebase FrontSale

variable {K Image : Type} [LinearOrder K]

/-! ## Section 1: The property and the condition -/

/-- No code is handed out by two purchases of an event, and no event hands out more
    codes than it had on sale. -/
structure NoDoubleSale (db₀ : Database K) (s : State K Image) : Prop where
  disjoint : s.sales.Pairwise (fun a b => a.item = b.item → a.codes.Disjoint b.codes)
  total : ∀ id, (sold s.sales id).length ≤ (stock db₀ id).length

/-- The codes of `id` that the purchases confirmed so far have left. -/
def left (db₀ : Database K) (s : State K Image) (id : K) : List String :=
  (stock db₀ id).drop (sold s.sales id).length

/-- A delivery that confirms a purchase delivers what earlier purchases have left. -/
def UpToDate (db₀ : Database K) (s : State K Image) : Label K Image → Prop
  | .deliver i version => ∀ r node remaining, s.reads[i]? = some r → r.held[version]? = some node →
      castStrings (field node "RemainingTickets") = some remaining →
      (castStrings (field node "AllTickets")).isSome →
      r.request.numberTickets.toNat ≤ remaining.length →
      remaining = left db₀ s r.request.key
  | _ => True

/-! ## Section 2: The invariants -/

/-- Every list of `id` that may be delivered is at least as long as what is left. -/
def Lags (db₀ : Database K) (s : State K Image) (id : K) (node : Option Value) : Prop :=
  (left db₀ s id).length ≤ (codes (field node "RemainingTickets")).length

/-- The lists that a write in flight brings to the server lag as well. -/
def WriteLags (db₀ : Database K) (s : State K Image) : Write K → Prop
  | .eventsTickets key object => Lags db₀ s key (nodeFrom object)
  | _ => True

/-- What all runs satisfy: integrity, and purchases of at least one ticket. -/
structure Background (db₀ : Database K) (s : State K Image) : Prop where
  integrity : Integrity db₀ s
  positive : ∀ r ∈ s.reads, 0 < r.request.numberTickets

/-- **The books.**  The codes sold are the front of the stock, and no list anywhere
    is ahead of them. -/
structure Books (db₀ : Database K) (s : State K Image) : Prop where
  front : ∀ id, sold s.sales id <+: stock db₀ id
  server : ∀ id, Lags db₀ s id s.db.eventsTickets[id]?
  snapshots : ∀ r ∈ s.reads, ∀ node ∈ r.held, Lags db₀ s r.request.key node
  writes : ∀ client, ∀ w ∈ s.outbox client, WriteLags db₀ s w

/-- The codes sold, followed by the codes left, are the opening stock. -/
theorem Books.sold_append_left {db₀ : Database K} {s : State K Image} (h : Books db₀ s) (id : K) :
    sold s.sales id ++ left db₀ s id = stock db₀ id := by
  obtain ⟨rest, hrest⟩ := h.front id
  unfold left
  rw [← hrest, List.drop_left]

theorem background_initial {db₀ : Database K} (h : NothingSold db₀) :
    Background db₀ (State.initial db₀ : State K Image) where
  integrity := integrity_initial h
  positive r hr := by cases hr

theorem books_initial (db₀ : Database K) : Books db₀ (State.initial db₀ : State K Image) where
  front id := List.nil_prefix
  server id := by
    show ((stock db₀ id).drop _).length ≤ (stock db₀ id).length
    rw [List.length_drop]
    omega
  snapshots r hr := by cases hr
  writes client w hw := by cases hw

theorem background_step {db₀ : Database K} {s s' : State K Image} {l : Label K Image}
    (hb : Background db₀ s) (h : step s l = some s') : Background db₀ s' := by
  -- Only a tap adds a read, and the button is enabled for positive quantities only.
  refine ⟨integrity_step hb.integrity h, ?_⟩
  intro r hr
  cases l with
  | tap client currentUser screen sliderValue =>
    rcases step_tap h with ⟨-, rfl⟩ | ⟨uid, -, -, hpos, rfl⟩
    · exact hb.positive r hr
    · rcases mem_reads_issue.mp hr with hold | rfl
      · exact hb.positive r hold
      · exact hpos
  | deliver i version =>
    rcases step_deliver h with ⟨q, node, -, -, hcase⟩
    rcases hcase with ⟨-, rfl⟩ | ⟨-, rfl⟩ | ⟨remaining, all, -, -, -, rfl⟩
    · exact hb.positive r (mem_reads_of_crash hr)
    · exact hb.positive r (mem_reads_of_answer hr)
    · exact hb.positive r (mem_reads_of_confirm hr)
  | accept client =>
    rcases step_accept h with ⟨w, rest, -, rfl⟩
    obtain ⟨q, hq, rfl⟩ := mem_reads_serve.mp hr
    exact hb.positive q hq
  | reject client =>
    rcases step_reject h with ⟨w, rest, -, rfl⟩
    obtain ⟨q, hq, rfl⟩ := mem_reads_serve.mp hr
    exact hb.positive q hq

/-! ## Section 3: A step that is up to date keeps the books -/

section confirm
variable {db₀ : Database K} {s : State K Image} {i client : Nat}
  {sale : FrontSale.Sale K K String} {inventory profile : Write K}

@[simp] theorem confirm_sales :
    (s.confirm i client sale inventory profile).sales = s.sales ++ [sale] := rfl

/-- A further sale only shortens what is left, so what lagged still lags. -/
theorem lags_confirm {id : K} {node : Option Value} (h : Lags db₀ s id node) :
    Lags db₀ (s.confirm i client sale inventory profile) id node := by
  unfold Lags left at h ⊢
  simp only [confirm_sales, sold_append, List.length_append, List.length_drop] at h ⊢
  omega

theorem writeLags_confirm {w : Write K} (h : WriteLags db₀ s w) :
    WriteLags db₀ (s.confirm i client sale inventory profile) w := by
  cases w with
  | eventsTickets key object => exact lags_confirm h
  | profileEvents uid key object => trivial
  | profile uid object => trivial

end confirm

/-- Confirming a purchase on what earlier purchases have left keeps the books. -/
theorem books_confirm {db₀ : Database K} {s : State K Image} (hb : Books db₀ s) {i client : Nat}
    {r : BuyRequest K Image} {remaining all : List String} (hleft : remaining = left db₀ s r.key)
    (hn : r.numberTickets.toNat ≤ remaining.length) :
    Books db₀ (s.confirm i client ⟨r.key, r.uid, remaining.take r.numberTickets.toNat⟩
      (.eventsTickets r.key (inventoryObject all (remaining.drop r.numberTickets.toNat)))
      (.profileEvents r.uid r.key
        (userObject r.screen (remaining.take r.numberTickets.toNat)))) where
  front id := by
    rw [confirm_sales, sold_append, sold_singleton]
    by_cases hid : r.key = id
    · subst hid
      rw [if_pos rfl, hleft, ← hb.sold_append_left r.key]
      exact (List.prefix_append_right_inj _).mpr (List.take_prefix _ _)
    · rw [if_neg hid, List.append_nil]
      exact hb.front id
  server id := lags_confirm (hb.server id)
  snapshots q hq node hnode :=
    lags_confirm (hb.snapshots q (mem_reads_of_confirm hq) node hnode)
  writes c w hw := by
    rcases mem_outbox_confirm hw with hold | rfl | rfl
    · exact writeLags_confirm (hb.writes c w hold)
    · -- The new inventory list is exactly what is left after this purchase.
      show Lags db₀ _ r.key (nodeFrom (inventoryObject _ _))
      unfold Lags left
      rw [field_inventory_remaining, codes_node_strings, confirm_sales, sold_append,
        sold_singleton, if_pos rfl, hleft]
      simp only [left, List.length_append, List.length_drop, List.length_take]
      have hlen : r.numberTickets.toNat
          ≤ (stock db₀ r.key).length - (sold s.sales r.key).length := by
        rw [hleft] at hn
        simpa [left] using hn
      omega
    · trivial

/-- The server's move keeps the books, whether it applies the write or not. -/
theorem books_serve {db₀ : Database K} {s : State K Image} (hb : Books db₀ s) {client : Nat}
    {db : Database K} {w : Write K} {rest : List (Write K)} (hout : s.outbox client = w :: rest)
    (hdb : ∀ id, Lags db₀ s id db.eventsTickets[id]?) : Books db₀ (s.serve client db rest) where
  front := hb.front
  server := hdb
  snapshots r hr node hnode := by
    obtain ⟨q, hq, rfl⟩ := mem_reads_serve.mp hr
    rcases List.mem_append.mp hnode with hold | hnew
    · exact hb.snapshots q hq node hold
    · rw [List.mem_singleton] at hnew
      subst hnew
      exact hdb q.request.key
  writes c v hv := hb.writes c v (mem_outbox_of_serve hout hv)

theorem lags_apply {db₀ : Database K} {s : State K Image} {w : Write K} (hw : WriteLags db₀ s w)
    (h : ∀ id, Lags db₀ s id s.db.eventsTickets[id]?) (id : K) :
    Lags db₀ s id (s.db.apply w).eventsTickets[id]? := by
  cases w with
  | eventsTickets key object =>
    rw [apply_tickets_inventory, ChildMap.getElem?_put]
    by_cases hk : key = id
    · subst hk
      rw [if_pos rfl]
      exact hw
    · rw [if_neg hk]
      exact h id
  | profileEvents uid key object => exact h id
  | profile uid object => exact h id

/-- A step that is up to date keeps the books. -/
theorem books_step {db₀ : Database K} {s s' : State K Image} {l : Label K Image}
    (hb : Books db₀ s) (hup : UpToDate db₀ s l) (h : step s l = some s') : Books db₀ s' := by
  cases l with
  | tap client currentUser screen sliderValue =>
    rcases step_tap h with ⟨-, rfl⟩ | ⟨uid, -, -, -, rfl⟩
    · exact hb
    · refine ⟨hb.front, hb.server, ?_, hb.writes⟩
      intro r hr node hnode
      rcases mem_reads_issue.mp hr with hold | rfl
      · exact hb.snapshots r hold node hnode
      · rw [List.mem_singleton] at hnode
        subst hnode
        exact hb.server _
  | deliver i version =>
    rcases step_deliver h with ⟨r, node, hr, hnode, hcase⟩
    rcases hcase with ⟨-, rfl⟩ | ⟨-, rfl⟩ | ⟨remaining, all, hrem, hall, hn, rfl⟩
    · exact ⟨hb.front, hb.server, fun q hq => hb.snapshots q (mem_reads_of_crash hq), hb.writes⟩
    · exact ⟨hb.front, hb.server, fun q hq => hb.snapshots q (mem_reads_of_answer hq), hb.writes⟩
    · exact books_confirm hb (hup r node remaining hr hnode hrem (by rw [hall]; rfl) hn) hn
  | accept client =>
    rcases step_accept h with ⟨w, rest, hout, rfl⟩
    have hw : WriteLags db₀ s w := hb.writes client w (by rw [hout]; simp)
    exact books_serve hb hout (lags_apply hw hb.server)
  | reject client =>
    rcases step_reject h with ⟨w, rest, hout, rfl⟩
    exact books_serve hb hout hb.server

/-! ## Section 4: A step that is not up to date sells a code twice -/

theorem noDoubleSale_of_books {db₀ : Database K} (hnodup : ∀ id, (stock db₀ id).Nodup)
    {s : State K Image} (hb : Books db₀ s) : NoDoubleSale db₀ s where
  disjoint := disjoint_of_sold_prefix hnodup hb.front
  total id := (hb.front id).length_le

/-- A list that lags and is not what is left still holds codes that were sold. -/
theorem longer_of_lags {db₀ : Database K} {s : State K Image} {id : K} {node : Option Value}
    {remaining : List String} (hdesc : Descends db₀ id node) (hlags : Lags db₀ s id node)
    (hrem : castStrings (field node "RemainingTickets") = some remaining)
    (hne : remaining ≠ left db₀ s id) : (left db₀ s id).length < remaining.length := by
  have hcodes := codes_of_castStrings hrem
  have hsuffix : remaining <:+ stock db₀ id := by
    have := hdesc.remaining
    rwa [hcodes] at this
  unfold Lags at hlags
  rw [hcodes] at hlags
  rcases Nat.lt_or_eq_of_le hlags with hlt | heq
  · exact hlt
  · -- Two suffixes of one list that are equally long are equal.
    have hleft : left db₀ s id <:+ stock db₀ id := List.drop_suffix _ _
    have := List.suffix_of_suffix_length_le hsuffix hleft (by omega)
    exact absurd (this.eq_of_length heq.symm) hne

/-- Confirming a purchase on an outdated list sells some code a second time. -/
theorem doubleSale_of_outdated {db₀ : Database K} {s s' : State K Image} {l : Label K Image}
    (hbg : Background db₀ s) (hb : Books db₀ s) (hout : ¬ UpToDate db₀ s l)
    (h : step s l = some s') : ¬ NoDoubleSale db₀ s' := by
  cases l with
  | deliver i version =>
    simp only [UpToDate, not_forall] at hout
    rcases hout with ⟨r, node, remaining, hr, hnode, hrem, hall, hn, hne⟩
    -- The delivered list lags and is not what is left, so it still has sold codes in front.
    have hmem : r ∈ s.reads := List.mem_of_getElem? hr
    have hheld : node ∈ r.held := List.mem_of_getElem? hnode
    have hdesc := hbg.integrity.snapshots r hmem node hheld
    have hlonger := longer_of_lags hdesc (hb.snapshots r hmem node hheld) hrem hne
    rcases step_deliver h with ⟨r', node', hr', hnode', hcase⟩
    obtain rfl : r = r' := Option.some.inj (hr.symm.trans hr')
    obtain rfl : node = node' := Option.some.inj (hnode.symm.trans hnode')
    obtain ⟨all, hall⟩ := Option.isSome_iff_exists.mp hall
    have hdeliver := BuyRequest.deliver_enough hrem hall hn
    rcases hcase with ⟨hnone, -⟩ | ⟨hnot, -⟩ | ⟨remaining', all', hrem', -, -, rfl⟩
    · rw [hdeliver] at hnone
      cases hnone
    · rw [hdeliver] at hnot
      cases hnot
    · obtain rfl : remaining = remaining' := Option.some.inj (hrem.symm.trans hrem')
      have hsuffix : remaining <:+ stock db₀ r.request.key := by
        have := hdesc.remaining
        rwa [codes_of_castStrings hrem] at this
      have hpos : 0 < r.request.numberTickets.toNat := by
        have := hbg.positive r hmem
        omega
      -- A code that this purchase takes was handed out by an older sale `old`.
      obtain ⟨old, hold, hitem, c, hc, hcold⟩ :=
        overlap_of_outdated (hb.sold_append_left r.request.key) hsuffix hlonger hpos
      intro hno
      have hpair := hno.disjoint
      rw [confirm_sales, List.pairwise_append] at hpair
      exact hpair.2.2 old hold _ (List.mem_singleton.mpr rfl) hitem hcold hc
  | tap client currentUser screen sliderValue => exact absurd trivial hout
  | accept client => exact absurd trivial hout
  | reject client => exact absurd trivial hout

/-- The ledger only grows. -/
theorem sales_prefix_step {s s' : State K Image} {l : Label K Image} (h : step s l = some s') :
    s.sales <+: s'.sales := by
  cases l with
  | tap client currentUser screen sliderValue =>
    rcases step_tap h with ⟨-, rfl⟩ | ⟨uid, -, -, -, rfl⟩ <;> exact List.prefix_refl _
  | deliver i version =>
    rcases step_deliver h with ⟨r, node, -, -, hcase⟩
    rcases hcase with ⟨-, rfl⟩ | ⟨-, rfl⟩ | ⟨remaining, all, -, -, -, rfl⟩
    · exact List.prefix_refl _
    · exact List.prefix_refl _
    · exact List.prefix_append _ _
  | accept client =>
    rcases step_accept h with ⟨w, rest, -, rfl⟩
    exact List.prefix_refl _
  | reject client =>
    rcases step_reject h with ⟨w, rest, -, rfl⟩
    exact List.prefix_refl _

/-- A ledger without double sales had none before. -/
theorem noDoubleSale_mono {db₀ : Database K} {s s' : State K Image}
    (h : NoDoubleSale db₀ s') (hpre : s.sales <+: s'.sales) : NoDoubleSale db₀ s where
  disjoint := h.disjoint.sublist hpre.sublist
  total id := by
    obtain ⟨more, hmore⟩ := hpre
    have := h.total id
    rw [← hmore, sold_append, List.length_append] at this
    omega

/-! ## Section 5: The result -/

/-- **Exactly when no code is sold twice.**  Whatever the interleaving, the purchases
    confirmed so far hand out pairwise different codes, and no more than were on
    sale, if and only if each of them was confirmed on the list that the ones
    confirmed before it had left. -/
theorem noDoubleSale_iff_upToDate {db₀ : Database K} (hsold : NothingSold db₀)
    (hnodup : ∀ id, (stock db₀ id).Nodup) {ls : List (Label K Image)} {s : State K Image}
    (hrun : Runs.exec step (State.initial db₀) ls = some s) :
    NoDoubleSale db₀ s ↔ Runs.StepsMeet step (UpToDate db₀) (State.initial db₀) ls :=
  Runs.end_iff_stepsMeet (fun _ _ _ hj h => background_step hj h)
    (fun _ _ _ _ hb hup h => books_step hb hup h)
    (fun _ _ hb => noDoubleSale_of_books hnodup hb)
    (fun _ _ _ hj hb hout h => doubleSale_of_outdated hj hb hout h)
    (fun _ _ _ _ hdouble h hno => hdouble (noDoubleSale_mono hno (sales_prefix_step h)))
    (background_initial hsold) (books_initial db₀) hrun

/-! ## Section 6: Up-to-date runs are runs of an office -/

/-- The office that a state stands for: what is left, and what was sold. -/
def office (db₀ : Database K) (s : State K Image) : Office K K String :=
  ⟨left db₀ s, s.sales⟩

/-- A purchase confirmed on what is left is a sale of the office. -/
theorem office_confirm {db₀ : Database K} {s : State K Image} {i client : Nat}
    {r : BuyRequest K Image} {inventory profile : Write K}
    (hn : r.numberTickets.toNat ≤ (left db₀ s r.key).length) :
    (office db₀ s).sell r.uid r.key r.numberTickets.toNat
      = some (office db₀ (s.confirm i client
          ⟨r.key, r.uid, (left db₀ s r.key).take r.numberTickets.toNat⟩ inventory profile)) := by
  have hleft : Function.update (left db₀ s) r.key ((left db₀ s r.key).drop r.numberTickets.toNat)
      = left db₀ (s.confirm i client
          ⟨r.key, r.uid, (left db₀ s r.key).take r.numberTickets.toNat⟩ inventory profile) := by
    funext id
    unfold left
    rw [confirm_sales, sold_append, sold_singleton]
    by_cases hid : r.key = id
    · subst hid
      have hlen : (((stock db₀ r.key).drop (sold s.sales r.key).length).take
          r.numberTickets.toNat).length = r.numberTickets.toNat := by
        rw [List.length_take]
        exact min_eq_left hn
      rw [Function.update_self, if_pos rfl, List.length_append, hlen, List.drop_drop]
    · rw [Function.update_of_ne (Ne.symm hid), if_neg hid, List.append_nil]
  unfold Office.sell office
  rw [if_pos hn, hleft]
  rfl

/-- **Refinement, one step.**  An up-to-date step is a sale of the office, or the office
    does not notice it. -/
theorem office_step {db₀ : Database K} {s s' : State K Image} {l : Label K Image}
    (hup : UpToDate db₀ s l) (h : step s l = some s') :
    office db₀ s' = office db₀ s ∨ (office db₀ s).Step (office db₀ s') := by
  cases l with
  | tap client currentUser screen sliderValue =>
    rcases step_tap h with ⟨-, rfl⟩ | ⟨uid, -, -, -, rfl⟩ <;> exact Or.inl rfl
  | deliver i version =>
    rcases step_deliver h with ⟨r, node, hr, hnode, hcase⟩
    rcases hcase with ⟨-, rfl⟩ | ⟨-, rfl⟩ | ⟨remaining, all, hrem, hall, hn, rfl⟩
    · exact Or.inl rfl
    · exact Or.inl rfl
    · have hleft := hup r node remaining hr hnode hrem (by rw [hall]; rfl) hn
      subst hleft
      exact Or.inr ⟨r.request.uid, r.request.key, r.request.numberTickets.toNat, office_confirm hn⟩
  | accept client =>
    rcases step_accept h with ⟨w, rest, -, rfl⟩
    exact Or.inl rfl
  | reject client =>
    rcases step_reject h with ⟨w, rest, -, rfl⟩
    exact Or.inl rfl

/-- **Refinement.**  A run whose steps are all up to date makes the sales of an office that
    opens with the initial stock, so its books balance. -/
theorem office_of_run {db₀ : Database K} {ls : List (Label K Image)} {s : State K Image}
    (hup : Runs.StepsMeet step (UpToDate db₀) (State.initial db₀) ls)
    (hrun : Runs.exec step (State.initial db₀) ls = some s) :
    Relation.ReflTransGen Office.Step (Office.opening (stock db₀)) (office db₀ s) ∧
      (office db₀ s).Balanced (stock db₀) := by
  have hsales : Relation.ReflTransGen Office.Step (Office.opening (stock db₀)) (office db₀ s) := by
    refine (Runs.alongRun_of_stepsMeet (fun t => Relation.ReflTransGen Office.Step
      (Office.opening (stock db₀)) (office db₀ t)) ?_ Relation.ReflTransGen.refl hup).last hrun
    intro s l s' hs hl h
    rcases office_step hl h with hsame | hsale
    · rw [hsame]
      exact hs
    · exact hs.tail hsale
  exact ⟨hsales, Office.balanced_of_sales hsales⟩

/-! ## Section 7: Two users at the same time -/

/-- Two users tap Buy for one ticket each; both reads are delivered before the
    server has applied the first of the four writes. -/
def twoBuyers : List (Label String Unit) :=
  [.tap 0 (some "ana") (concertScreen "e1") 1, .tap 1 (some "luis") (concertScreen "e1") 1,
   .deliver 0 0, .deliver 0 0, .accept 0, .accept 0, .accept 1, .accept 1]

theorem nodup_stock_concert (id : String) : (stock (onSale "e1" ["A1", "A2"]) id).Nodup := by
  rw [stock_onSale]
  split <;> decide

/-- Both purchases are confirmed, and both hand out the code `A1`. -/
theorem twoBuyers_sales :
    (Runs.exec step (State.initial (onSale "e1" ["A1", "A2"])) twoBuyers).map
      (fun s => s.sales.map (fun a => (a.item, a.buyer, a.codes)))
      = some [("e1", "ana", ["A1"]), ("e1", "luis", ["A1"])] := by
  decide

theorem twoBuyers_doubleSale :
    ∃ s : State String Unit,
      Runs.exec step (State.initial (onSale "e1" ["A1", "A2"])) twoBuyers = some s ∧
      ¬ NoDoubleSale (onSale "e1" ["A1", "A2"]) s := by
  obtain ⟨s, hs, hsales⟩ := Option.map_eq_some_iff.mp twoBuyers_sales
  refine ⟨s, hs, ?_⟩
  intro hno
  have hmap : (s.sales.map (fun a => (a.item, a.buyer, a.codes))).Pairwise
      (fun a b => a.1 = b.1 → a.2.2.Disjoint b.2.2) := List.pairwise_map.mpr hno.disjoint
  rw [hsales] at hmap
  simp at hmap

/-- The equivalence at this run: one of its deliveries was outdated. -/
theorem twoBuyers_outdated :
    ¬ Runs.StepsMeet step (UpToDate (onSale "e1" ["A1", "A2"]))
      (State.initial (onSale "e1" ["A1", "A2"])) twoBuyers := by
  obtain ⟨s, hrun, hdouble⟩ := twoBuyers_doubleSale
  intro hup
  exact hdouble ((noDoubleSale_iff_upToDate (ticketsHeld_onSale "e1" ["A1", "A2"])
    nodup_stock_concert hrun).mpr hup)

/-- **A double sale.**  Distinct codes, nothing sold before, every write accepted: the
    purchases of a run need not hand out different codes. -/
theorem double_sale :
    ¬ ∀ (db₀ : Database String) (ls : List (Label String Unit)) (s : State String Unit),
      NothingSold db₀ → (∀ id, (stock db₀ id).Nodup) → (∀ client, Label.reject client ∉ ls) →
      Runs.exec step (State.initial db₀) ls = some s → NoDoubleSale db₀ s := by
  intro h
  obtain ⟨s, hrun, hdouble⟩ := twoBuyers_doubleSale
  exact hdouble (h _ twoBuyers s (ticketsHeld_onSale "e1" ["A1", "A2"]) nodup_stock_concert
    (by simp [twoBuyers]) hrun)

end MeetupApp.Purchase
