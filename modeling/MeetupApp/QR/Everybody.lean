import MeetupApp.Controllers.SignUp
import MeetupApp.QR.Presentation

/-! # The tickets of everybody

    Any number of clients buy and sign up, in any interleaving: reads are delivered
    late, processes end, writes are refused, a sign-up erases the records of its
    profile.  Whatever happened, each record of each profile was written by a
    purchase, with codes that were on sale in the beginning.

    The result: at every moment the tickets screen of every user loads, each of its
    rows is displayed, and each opens with an image for each code, if the codes on
    sale were such that there are images for them, and the pictures of the events
    that were bought can be downloaded. -/

namespace MeetupApp.QR

open Firebase Purchase QRViewController

variable {K Image Address : Type} [LinearOrder K]

namespace Everybody

/-! ## Section 1: The system -/

/-- The steps of the purchases, and the end of a sign-up. -/
inductive Label (K Image : Type) where
  | purchase (l : Purchase.Label K Image)
  /-- `saveProfile` is called in the process of `client`. -/
  | saveProfile (client : Nat) (currentUser : Option K) (userName userEmail : String)

/-- A write joins those of its client. -/
def send (s : State K Image) (client : Nat) (w : Write K) : State K Image :=
  { s with outbox := Function.update s.outbox client (s.outbox client ++ [w]) }

theorem mem_outbox_send {s : State K Image} {client c : Nat} {w v : Write K}
    (h : v ∈ (send s client w).outbox c) : v ∈ s.outbox c ∨ v = w := by
  change v ∈ Function.update s.outbox client (s.outbox client ++ [w]) c at h
  by_cases hc : c = client
  · subst hc
    rw [Function.update_self] at h
    rcases List.mem_append.mp h with h | h
    · exact .inl h
    · exact .inr (List.mem_singleton.mp h)
  · rw [Function.update_of_ne hc] at h
    exact .inl h

/-- One step; `none` when it is not enabled. -/
def step (s : State K Image) : Label K Image → Option (State K Image)
  | .purchase l => Purchase.step s l
  | .saveProfile client currentUser userName userEmail =>
    if client ∉ s.crashed then
      match saveProfile currentUser userName userEmail with
      | some w => some (send s client w)
      | none => some s
    else none

/-- A call of `saveProfile` sends a profile, or changes nothing. -/
theorem step_saveProfile {s s' : State K Image} {client : Nat} {currentUser : Option K}
    {userName userEmail : String}
    (h : step s (.saveProfile client currentUser userName userEmail) = some s') :
    s' = s ∨ ∃ uid, s' = send s client (.profile uid (profileObject userName userEmail)) := by
  rw [step] at h
  split at h
  · cases currentUser with
    | none => exact .inl (Option.some.inj h).symm
    | some uid => exact .inr ⟨uid, (Option.some.inj h).symm⟩
  · cases h

/-! ## Section 2: The invariant -/

variable (P : K → String → Prop) (Q : String → Prop)

/-- The value of a record that a purchase wrote, with codes that satisfy `P` and a picture
    that satisfies `Q`. -/
def StoredWith (K Image : Type) (P Q : String → Prop) (value : Value) : Prop :=
  ∃ (screen : EventDescriptionViewController K Image) (codes : List String),
    codes ≠ [] ∧ (∀ code ∈ codes, P code) ∧ Q screen.eventPhotoString ∧
      nodeFrom (userObject screen codes) = some value

/-- The codes that an inventory still has. -/
def CodesOf (P : String → Prop) (node : Option Value) : Prop :=
  ∀ code ∈ codes (field node "RemainingTickets"), P code

/-- What a write puts into the database. -/
def Carries (Image : Type) : Write K → Prop
  | .eventsTickets key object => CodesOf (P key) (nodeFrom object)
  | .profileEvents _ key object =>
    ∀ value, nodeFrom object = some value → StoredWith K Image (P key) Q value
  | .profile _ _ => True

/-- The picture of an event that is bought. -/
def Pictured : Label K Image → Prop
  | .purchase (.tap _ _ screen _) => Q screen.eventPhotoString
  | _ => True

/-- The database and everything in flight. -/
structure Good (s : State K Image) : Prop where
  inventories : ∀ id : K, CodesOf (P id) s.db.eventsTickets[id]?
  records : ∀ uid id value, s.db.record uid id = some value → StoredWith K Image (P id) Q value
  positive : ∀ r ∈ s.reads, 0 < r.request.numberTickets
  pictures : ∀ r ∈ s.reads, Q r.request.screen.eventPhotoString
  held : ∀ r ∈ s.reads, ∀ node ∈ r.held, CodesOf (P r.request.key) node
  writes : ∀ c, ∀ w ∈ s.outbox c, Carries P Q Image w

variable {P Q}

section steps
variable {s : State K Image} (h : Good P Q s)
include h

/-- A database with a write applied. -/
theorem good_apply {w : Write K} (hw : Carries P Q Image w) :
    (∀ id : K, CodesOf (P id) (s.db.apply w).eventsTickets[id]?)
    ∧ ∀ uid id value, (s.db.apply w).record uid id = some value →
      StoredWith K Image (P id) Q value := by
  cases w with
  | eventsTickets key object =>
    refine ⟨fun id => ?_, h.records⟩
    rw [apply_tickets_inventory, ChildMap.getElem?_put]
    split
    · next hk =>
      subst hk
      exact hw
    · exact h.inventories id
  | profileEvents uid key object =>
    refine ⟨h.inventories, fun u id value hvalue => ?_⟩
    rw [record_apply_record] at hvalue
    split at hvalue
    · next hk =>
      obtain ⟨-, rfl⟩ := hk
      exact hw value hvalue
    · exact h.records u id value hvalue
  | profile uid object =>
    refine ⟨h.inventories, fun u id value hvalue => ?_⟩
    rw [record_apply_profile] at hvalue
    split at hvalue
    · cases hvalue
    · exact h.records u id value hvalue

/-- The server takes a write, applied or not. -/
theorem good_serve {client : Nat} {w : Write K} {rest : List (Write K)} {db : Database K}
    (hout : s.outbox client = w :: rest)
    (hinventories : ∀ id : K, CodesOf (P id) db.eventsTickets[id]?)
    (hrecords : ∀ uid id value, db.record uid id = some value → StoredWith K Image (P id) Q value) :
    Good P Q (s.serve client db rest) where
  inventories := hinventories
  records := hrecords
  positive := by
    intro r hr
    obtain ⟨q, hq, rfl⟩ := mem_reads_serve.mp hr
    exact h.positive q hq
  pictures := by
    intro r hr
    obtain ⟨q, hq, rfl⟩ := mem_reads_serve.mp hr
    exact h.pictures q hq
  held := by
    intro r hr node hnode
    obtain ⟨q, hq, rfl⟩ := mem_reads_serve.mp hr
    rcases List.mem_append.mp hnode with hnode | hnode
    · exact h.held q hq node hnode
    · rw [List.mem_singleton.mp hnode]
      exact hinventories _
  writes := fun c v hv => h.writes c v (mem_outbox_of_serve hout hv)

/-- Fewer reads. -/
theorem good_of_subset {s' : State K Image} (hdb : s'.db = s.db)
    (hreads : ∀ r ∈ s'.reads, r ∈ s.reads) (hwrites : ∀ c, ∀ w ∈ s'.outbox c, Carries P Q Image w) :
    Good P Q s' where
  inventories := by
    rw [hdb]
    exact h.inventories
  records := by
    rw [hdb]
    exact h.records
  positive := fun r hr => h.positive r (hreads r hr)
  pictures := fun r hr => h.pictures r (hreads r hr)
  held := fun r hr => h.held r (hreads r hr)
  writes := hwrites

/-- The two writes of a purchase from an inventory that was read. -/
theorem carries_purchase {r : PendingRead K Image} {node : Option Value}
    {remaining : List String} (all : List String) (hr : r ∈ s.reads) (hnode : node ∈ r.held)
    (hrem : castStrings (field node "RemainingTickets") = some remaining)
    (hn : r.request.numberTickets.toNat ≤ remaining.length) :
    Carries P Q Image (.eventsTickets r.request.key
        (inventoryObject all (remaining.drop r.request.numberTickets.toNat)))
      ∧ Carries P Q Image (.profileEvents r.request.uid r.request.key
        (userObject r.request.screen (remaining.take r.request.numberTickets.toNat))) := by
  have hcodes : ∀ code ∈ remaining, P r.request.key code := by
    have hheld := h.held r hr node hnode
    rwa [CodesOf, codes_of_castStrings hrem] at hheld
  constructor
  · intro code hcode
    rw [field_inventory_remaining, codes_node_strings] at hcode
    exact hcodes code (List.mem_of_mem_drop hcode)
  · intro value hvalue
    refine ⟨r.request.screen, _, ?_, fun code hcode => ?_, h.pictures r hr, hvalue⟩
    · have hpos := h.positive r hr
      intro hnil
      have hlen := congrArg List.length hnil
      rw [List.length_take, List.length_nil] at hlen
      omega
    · exact hcodes code (List.mem_of_mem_take hcode)

theorem good_step {s' : State K Image} {l : Label K Image} (hl : Pictured Q l)
    (hstep : step s l = some s') : Good P Q s' := by
  cases l with
  | saveProfile client currentUser userName userEmail =>
    rcases step_saveProfile hstep with rfl | ⟨uid, rfl⟩
    · exact h
    · refine good_of_subset h rfl (fun _ hr => hr) (fun c w hw => ?_)
      rcases mem_outbox_send hw with hw | rfl
      · exact h.writes c w hw
      · trivial
  | purchase l =>
    rw [step] at hstep
    cases l with
    | tap client currentUser screen sliderValue =>
      rcases step_tap hstep with ⟨-, rfl⟩ | ⟨uid, -, -, hpos, rfl⟩
      · exact h
      · refine ⟨h.inventories, h.records, ?_, ?_, ?_, h.writes⟩
        · intro r hr
          rcases mem_reads_issue.mp hr with hr | rfl
          · exact h.positive r hr
          · exact hpos
        · intro r hr
          rcases mem_reads_issue.mp hr with hr | rfl
          · exact h.pictures r hr
          · exact hl
        · intro r hr node hnode
          rcases mem_reads_issue.mp hr with hr | rfl
          · exact h.held r hr node hnode
          · rw [List.mem_singleton.mp hnode]
            exact h.inventories _
    | deliver i version =>
      obtain ⟨r, value, hr, hvalue, hcase⟩ := step_deliver hstep
      rcases hcase with ⟨-, rfl⟩ | ⟨-, rfl⟩ | ⟨remaining, all, hrem, -, hn, rfl⟩
      · exact good_of_subset h rfl (fun _ hr => mem_reads_of_crash hr) h.writes
      · exact good_of_subset h rfl (fun _ hr => mem_reads_of_answer hr) h.writes
      · refine good_of_subset h rfl (fun _ hr => mem_reads_of_confirm hr) (fun c w hw => ?_)
        obtain ⟨hinventory, hprofile⟩ := carries_purchase h all
          (List.mem_of_getElem? hr) (List.mem_of_getElem? hvalue) hrem hn
        rcases mem_outbox_confirm hw with hw | rfl | rfl
        · exact h.writes c w hw
        · exact hinventory
        · exact hprofile
    | accept client =>
      obtain ⟨w, rest, hout, rfl⟩ := step_accept hstep
      have hcarries := h.writes client w (by simp [hout])
      obtain ⟨hinventories, hrecords⟩ := good_apply h hcarries
      exact good_serve h hout hinventories hrecords
    | reject client =>
      obtain ⟨w, rest, hout, rfl⟩ := step_reject hstep
      exact good_serve h hout h.inventories h.records

end steps

/-! ## Section 3: Every row is displayed and opens -/

/-- The codes that were on sale in the beginning. -/
def OnSale (db₀ : Database K) (id : K) (code : String) : Prop :=
  code ∈ stock db₀ id

theorem good_initial {db₀ : Database K} (hnone : ∀ uid, db₀.recordsOf uid = []) :
    Good (OnSale db₀) Q (State.initial db₀ : State K Image) where
  inventories := fun _ _ hcode => hcode
  records := by
    intro uid id value hvalue
    have hmem := db₀.mem_recordsOf.mpr hvalue
    rw [hnone uid] at hmem
    cases hmem
  positive := fun r hr => by cases hr
  pictures := fun r hr => by cases hr
  held := fun r hr => by cases hr
  writes := fun c w hw => by cases hw

/-- Any cell can display the row: with its name and its date, and then its picture. -/
def RowShown (pictures : Pictures Address Image) (screen : TicketsViewController K Image)
    (row : Nat) (e : Event K Image) : Prop :=
  ∀ cell, ∃ titled shown, screen.cellForRow row cell = some titled ∧
    titled.eventTitle = e.name ∧ titled.dateTitle = "Start: " ++ e.startDate ∧
    screen.imageBlock pictures row titled = some shown

/-- The row opens the QR screen, with an image for each of its codes.  When the screen
    appears it shows the image of one of them. -/
def RowOpens (generator : QRGenerator Image) (screen : TicketsViewController K Image) (row : Nat)
    (P : String → Prop) : Prop :=
  ∃ vc loaded appeared, screen.prepare row = some vc ∧ vc.viewDidLoad generator = some loaded ∧
    loaded.viewWillAppear generator = some appeared ∧ (∀ code ∈ vc.codesQr, P code) ∧
    List.Forall₂ (Encodes generator) vc.codesQr appeared.codesQRImages ∧
    ∃ code ∈ vc.codesQr, ∃ image, appeared.imgQR = some image ∧ Encodes generator code image

omit [LinearOrder K] in
theorem rowShown {pictures : Pictures Address Image} {events : List (Event K Image)} {row : Nat}
    {e : Event K Image} {photoString : String} (hrow : events[row]? = some e)
    (hphoto : e.photoString = some photoString) (havailable : pictures.Available photoString) :
    RowShown pictures ⟨events⟩ row e := by
  intro cell
  let titled : TicketTableViewCell Image :=
    { cell with eventTitle := e.name, dateTitle := "Start: " ++ e.startDate }
  have htitled : TicketsViewController.cellForRow ⟨events⟩ row cell = some titled := by
    simp [TicketsViewController.cellForRow, hrow, titled]
  have hblock : (TicketsViewController.imageBlock pictures ⟨events⟩ row titled).isSome :=
    (TicketsViewController.imageBlock_isSome hrow).mpr ⟨photoString, hphoto, havailable⟩
  obtain ⟨shown, hshown⟩ := Option.isSome_iff_exists.mp hblock
  exact ⟨titled, shown, htitled, rfl, rfl, hshown⟩

omit [LinearOrder K] in
theorem rowOpens {generator : QRGenerator Image} {Fits : Data → Prop}
    (hgen : generator.Documented Fits) {events : List (Event K Image)} {row : Nat}
    {e : Event K Image} {codes : List String} {P : String → Prop} (hrow : events[row]? = some e)
    (htickets : e.tickets = some codes) (hne : codes ≠ []) (hcodes : ∀ code ∈ codes, P code)
    (hfits : ∀ code ∈ codes, Encodable Fits code) : RowOpens generator ⟨events⟩ row P := by
  obtain ⟨code, rest, rfl⟩ := List.exists_cons_of_ne_nil hne
  obtain ⟨images, himages⟩ :=
    Option.isSome_iff_exists.mp ((fromStringToImage_isSome hgen).mpr hfits)
  have hencodes : List.Forall₂ (Encodes generator) (code :: rest) images :=
    (fromStringToImage_eq_some.mp himages).imp (fun _ _ h => encodes_of_generateQRCode hgen h)
  obtain ⟨image, images', himage, -, rfl⟩ := List.forall₂_cons_left_iff.mp hencodes
  refine ⟨_, _, _, TicketsViewController.prepare_eq hrow htickets,
    load_eq_some.mpr ⟨_, himages, List.cons_ne_nil _ _, rfl⟩,
    load_eq_some.mpr ⟨_, himages, List.cons_ne_nil _ _, rfl⟩, hcodes, hencodes,
    code, List.mem_cons_self, image, rfl, himage⟩

/-- **Everybody's tickets.**  Nobody has tickets in the beginning, there is an image for
    each code on sale, and the pictures of the events that are bought can be downloaded.
    Then after any run, the tickets screen of each user loads, and each of its rows is
    displayed and opens with codes that were on sale for its event. -/
theorem all_tickets_open {generator : QRGenerator Image} {Fits : Data → Prop}
    (hgen : generator.Documented Fits) (pictures : Pictures Address Image) {db₀ : Database K}
    (hnone : ∀ uid, db₀.recordsOf uid = [])
    (hstock : ∀ id, ∀ code ∈ stock db₀ id, Encodable Fits code) {ls : List (Label K Image)}
    (hpictures : ∀ l ∈ ls, Pictured pictures.Available l)
    {s : State K Image} (hrun : Runs.exec step (State.initial db₀) ls = some s) (uid : K) :
    ∃ events : List (Event K Image), Ticket.loadTickets (s.db.recordsOf uid) = some events ∧
      ∀ row e, events[row]? = some e → RowShown pictures ⟨events⟩ row e ∧
        RowOpens generator ⟨events⟩ row (OnSale db₀ e.id) := by
  have hgood : Good (OnSale db₀) pictures.Available s :=
    Runs.exec_preserves_of_labels (Pictured pictures.Available)
      (Good (OnSale db₀) pictures.Available) (fun _ _ _ hl hi h => good_step hi hl h) hpictures
      (good_initial hnone) hrun
  -- The records are those of purchases, so they load.
  have hstored : StoredByPurchases Image s.db uid := by
    intro id value hvalue
    obtain ⟨screen, codes, hne, -, -, hnode⟩ := hgood.records uid id value hvalue
    exact ⟨screen, codes, hne, hnode⟩
  obtain ⟨events, hload⟩ := loadTickets_of_stored hstored
  refine ⟨events, hload, ?_⟩
  intro row e hrow
  -- The row was decoded from one of them.
  obtain ⟨⟨key, value⟩, hmem, hdec⟩ := Ticket.child_of_loadTickets hload (List.mem_of_getElem? hrow)
  obtain rfl : e.id = key := Ticket.id_of_ofProfileRecord hdec
  obtain ⟨screen, codes, hne, hcodes, havailable, hnode⟩ :=
    hgood.records uid e.id value (s.db.mem_recordsOf.mp hmem)
  obtain ⟨e', hdec', hticket⟩ := ofProfileRecord_userObject e.id screen hne hnode
  obtain rfl : e = e' := Option.some.inj (hdec.symm.trans hdec')
  exact ⟨rowShown hrow hticket.photoString havailable,
    rowOpens hgen hrow hticket.tickets hne hcodes
      (fun code hcode => hstock e.id code (hcodes code hcode))⟩

/-- Two users buy the same ticket from the same inventory, and a third one signs up. -/
def soldTwice : List (Label String Data) :=
  [.purchase (.tap 0 (some "u1") (singleRequest "u1").screen 1),
    .purchase (.tap 1 (some "u2") (singleRequest "u2").screen 1),
    .purchase (.deliver 0 0), .purchase (.deliver 0 0), .saveProfile 2 (some "u3") "Eva" "eva@mail",
    .purchase (.accept 0), .purchase (.accept 1), .purchase (.accept 2), .purchase (.accept 0),
    .purchase (.accept 1)]

/-- Every string is an address, and the bytes found there are its characters. -/
def textPictures : Pictures String Data where
  url := some
  contents := asciiData
  image := some

/-- The second buyer's row is displayed and opens too. -/
theorem all_tickets_open_soldTwice :
    ∃ s, Runs.exec step (State.initial (onSale "e1" ["A1", "A2"])) soldTwice = some s ∧
      (s.db.recordsOf "u2").length = 1 ∧
      ∃ events : List (Event String Data), Ticket.loadTickets (s.db.recordsOf "u2") = some events ∧
        ∀ row e, events[row]? = some e → RowShown textPictures ⟨events⟩ row e ∧
          RowOpens (messageGenerator 2331) ⟨events⟩ row
            (OnSale (onSale "e1" ["A1", "A2"]) e.id) := by
  have hrun : (Runs.exec step (State.initial (onSale "e1" ["A1", "A2"])) soldTwice).map
      (fun s => (s.db.recordsOf "u2").length) = some 1 := by decide
  obtain ⟨s, hs, hone⟩ := Option.map_eq_some_iff.mp hrun
  have havailable : textPictures.Available "images/concert.png" := ⟨_, _, rfl, rfl⟩
  refine ⟨s, hs, hone, all_tickets_open (messageGenerator_documented 2331) textPictures
    (fun _ => rfl) ?_ ?_ hs "u2"⟩
  · intro id code hcode
    rw [stock_onSale] at hcode
    split at hcode
    · have hboth : ∀ c ∈ ["A1", "A2"], isASCII c = true ∧ (asciiBytes c).length ≤ 2331 := by decide
      exact ⟨(hboth code hcode).1, (hboth code hcode).2⟩
    · cases hcode
  · intro l hl
    simp only [soldTwice, List.mem_cons, List.not_mem_nil, or_false] at hl
    rcases hl with rfl | rfl | rfl | rfl | rfl | rfl | rfl | rfl | rfl | rfl <;>
      first | exact havailable | trivial

end Everybody

end MeetupApp.QR
