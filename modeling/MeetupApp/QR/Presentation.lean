import MeetupApp.Controllers.Tickets
import MeetupApp.Purchase.Fidelity

/-! # Presenting what was bought

    From the stock to the QR screen: the codes a purchase takes are stored
    unchanged, `Ticket.loadTickets` reads them back, the tickets screen hands them
    to the QR screen, and `viewDidLoad` makes one image for each.

    The purchase takes any string for a code, the QR screen traps on one that is
    not ASCII or too long for a QR symbol.  The result says that nothing else can
    go wrong. -/

namespace MeetupApp.QR

open Firebase Purchase QRViewController

variable {K Image : Type} [LinearOrder K]

/-! ## Section 1: The records of a buyer -/

/-- Every record of the profile was stored by a purchase. -/
def StoredByPurchases (Image : Type) (db : Database K) (uid : K) : Prop :=
  ∀ id value, db.record uid id = some value →
    ∃ (screen : EventDescriptionViewController K Image) (codes : List String),
      codes ≠ [] ∧ nodeFrom (userObject screen codes) = some value

theorem storedByPurchases_of_none {db : Database K} {uid : K} (h : db.recordsOf uid = []) :
    StoredByPurchases Image db uid := by
  intro id value hvalue
  have hmem := db.mem_recordsOf.mpr hvalue
  rw [h] at hmem
  cases hmem

/-- The tickets of a purchase are never an empty list. -/
theorem take_ne_nil_of_buy {db db' : Database K} {r : BuyRequest K Image}
    (h : buy db r = some db') : (stock db r.key).take r.numberTickets.toNat ≠ [] :=
  taken_ne_nil (Option.isSome_iff_exists.mpr ⟨db', h⟩)

theorem storedByPurchases_buy {db db' : Database K} {uid : K} {r : BuyRequest K Image}
    (hstored : StoredByPurchases Image db uid) (h : buy db r = some db') :
    StoredByPurchases Image db' uid := by
  intro id value hvalue
  rw [record_buy h] at hvalue
  split at hvalue
  · exact ⟨r.screen, _, take_ne_nil_of_buy h, hvalue⟩
  · exact hstored id value hvalue

theorem storedByPurchases_of_run {db₀ db : Database K} {uid : K} {rs : List (BuyRequest K Image)}
    (hnone : db₀.recordsOf uid = []) (hrun : Runs.exec buy db₀ rs = some db) :
    StoredByPurchases Image db uid :=
  Runs.exec_preserves (StoredByPurchases Image · uid)
    (fun _ _ _ hstored h => storedByPurchases_buy hstored h) (storedByPurchases_of_none hnone) hrun

/-- The tickets screen loads records that were stored by purchases. -/
theorem loadTickets_of_stored {db : Database K} {uid : K}
    (hstored : StoredByPurchases Image db uid) :
    ∃ events : List (Event K Image), Ticket.loadTickets (db.recordsOf uid) = some events := by
  refine mapM_isSome ?_
  intro c hc
  obtain ⟨screen, codes, hne, hnode⟩ := hstored c.1 c.2 (db.mem_recordsOf.mp hc)
  obtain ⟨e, he, -⟩ := ofProfileRecord_userObject c.1 screen hne hnode
  exact ⟨e, he⟩

/-- **From the purchase to the QR screen.**  The record of a purchase has a row, and
    the row opens with the codes that were taken from the stock. -/
theorem opens_of_buy {db db' : Database K} {r : BuyRequest K Image}
    (hstored : StoredByPurchases Image db r.uid) (h : buy db r = some db') :
    ∃ (events : List (Event K Image)) (row : Nat) (e : Event K Image),
      Ticket.loadTickets (db'.recordsOf r.uid) = some events ∧ events[row]? = some e ∧
      e.id = r.key ∧
      TicketsViewController.prepare ⟨events⟩ row
        = some (prepared e.name ((stock db r.key).take r.numberTickets.toNat)) := by
  obtain ⟨events, hload⟩ := loadTickets_of_stored (storedByPurchases_buy hstored h)
  -- The record of the purchase is among those that are loaded.
  have hrecord := record_buy h r.uid r.key
  rw [if_pos ⟨rfl, rfl⟩] at hrecord
  obtain ⟨value, hvalue⟩ := recordAfter_isSome db r
  have hmem : (r.key, value) ∈ db'.recordsOf r.uid :=
    db'.mem_recordsOf.mpr (hrecord.trans hvalue)
  obtain ⟨e, he, hdec⟩ := Ticket.mem_of_loadTickets hload hmem
  obtain ⟨e', hdec', hticket⟩ :=
    ofProfileRecord_userObject r.key r.screen (take_ne_nil_of_buy h) hvalue
  obtain rfl : e = e' := Option.some.inj (hdec.symm.trans hdec')
  obtain ⟨row, hrow⟩ := List.getElem?_of_mem he
  exact ⟨events, row, e, hload, hrow, Ticket.id_of_ofProfileRecord hdec,
    TicketsViewController.prepare_eq hrow hticket.tickets⟩

/-! ## Section 2: Presentation -/

/-- The image that the filter makes of the code's data. -/
def Encodes (generator : QRGenerator Image) (code : String) (image : Image) : Prop :=
  ∃ data, asciiData code = some data ∧ generator (some data) = some image

/-- The record of `key` opens from the tickets screen with one image for each of `codes`. -/
def Presented (generator : QRGenerator Image) (db : Database K) (uid key : K)
    (codes : List String) : Prop :=
  ∃ (events : List (Event K Image)) (row : Nat) (e : Event K Image)
    (vc shown : QRViewController Image),
    Ticket.loadTickets (db.recordsOf uid) = some events ∧ events[row]? = some e ∧ e.id = key ∧
    TicketsViewController.prepare ⟨events⟩ row = some vc ∧
    vc.viewDidLoad generator = some shown ∧
    fromStringToImage generator codes = some shown.codesQRImages ∧
    List.Forall₂ (Encodes generator) codes shown.codesQRImages ∧
    ∀ i j : Nat, codes[i]? ≠ codes[j]? → shown.codesQRImages[i]? ≠ shown.codesQRImages[j]?

section presentation
variable {generator : QRGenerator Image} {Fits : Data → Prop}
  (hgen : generator.Documented Fits)
include hgen

theorem encodes_of_generateQRCode {code : String} {image : Image}
    (h : CodigoQR.generateQRCode generator code = some image) : Encodes generator code image := by
  have hsome : (generator (asciiData code)).isSome := Option.isSome_iff_exists.mpr ⟨image, h⟩
  obtain ⟨data, hdata, -⟩ := (hgen.isSome_iff _).mp hsome
  exact ⟨data, hdata, by rw [← hdata]; exact h⟩

/-- Different codes give different images. -/
theorem images_ne {codes : List String} {images : List Image}
    (h : fromStringToImage generator codes = some images) {i j : Nat}
    (hne : codes[i]? ≠ codes[j]?) : images[i]? ≠ images[j]? := by
  -- The images at `i` and `j` are those of the codes at `i` and `j`, or both are missing.
  have hmap : ∀ k : Nat, codes[k]?.map (CodigoQR.generateQRCode generator)
      = images[k]?.map some := by
    intro k
    rw [← List.getElem?_map, ← List.getElem?_map, map_generateQRCode h]
  intro heq
  have hi := hmap i
  have hj := hmap j
  rw [heq, ← hj] at hi
  cases hci : codes[i]? with
  | none =>
    cases hcj : codes[j]? with
    | none => exact hne (hci.trans hcj.symm)
    | some b => simp [hci, hcj] at hi
  | some a =>
    cases hcj : codes[j]? with
    | none => simp [hci, hcj] at hi
    | some b =>
      simp only [hci, hcj, Option.map_some, Option.some.injEq] at hi
      rw [hcj, Option.map_some] at hj
      obtain ⟨image, -, himage⟩ := Option.map_eq_some_iff.mp hj.symm
      have hsame := CodigoQR.generateQRCode_injective hgen (hi.trans himage.symm) himage.symm
      exact hne (by rw [hci, hcj, hsame])

/-- Codes that are presented have a QR image each. -/
theorem encodable_of_presented {db : Database K} {uid key : K} {codes : List String}
    (h : Presented generator db uid key codes) : ∀ code ∈ codes, Encodable Fits code := by
  obtain ⟨-, -, -, -, shown, -, -, -, -, -, himages, -⟩ := h
  exact (fromStringToImage_isSome hgen).mp (Option.isSome_iff_exists.mpr ⟨_, himages⟩)

/-- **Presentation.**  A user without records buys, and so does everybody else; then the
    record of the user's next purchase opens from the tickets screen, with one image for
    each code and different images for different codes, exactly when every code of the
    purchase is ASCII and fits into a QR symbol. -/
theorem presented_iff_encodable {db₀ db db' : Database K} {rs : List (BuyRequest K Image)}
    {r : BuyRequest K Image} (hnone : db₀.recordsOf r.uid = [])
    (hrun : Runs.exec buy db₀ rs = some db) (hbuy : buy db r = some db') :
    Presented generator db' r.uid r.key ((stock db r.key).take r.numberTickets.toNat) ↔
      ∀ code ∈ (stock db r.key).take r.numberTickets.toNat, Encodable Fits code := by
  refine ⟨encodable_of_presented hgen, ?_⟩
  intro hcodes
  obtain ⟨events, row, e, hload, hrow, hid, hprepare⟩ :=
    opens_of_buy (storedByPurchases_of_run hnone hrun) hbuy
  obtain ⟨images, himages⟩ :=
    Option.isSome_iff_exists.mp ((fromStringToImage_isSome hgen).mpr hcodes)
  have hne : images ≠ [] := by
    intro hnil
    have hmap := map_generateQRCode himages
    rw [hnil, List.map_nil, List.map_eq_nil_iff] at hmap
    exact take_ne_nil_of_buy hbuy hmap
  obtain ⟨shown, hshown, rfl⟩ : ∃ shown,
      (prepared e.name ((stock db r.key).take r.numberTickets.toNat)).viewDidLoad generator
        = some shown ∧ shown.codesQRImages = images :=
    ⟨_, load_eq_some.mpr ⟨images, himages, hne, rfl⟩, rfl⟩
  refine ⟨events, row, e, _, shown, hload, hrow, hid, hprepare, hshown, himages, ?_, ?_⟩
  · exact (fromStringToImage_eq_some.mp himages).imp
      (fun _ _ h => encodes_of_generateQRCode hgen h)
  · intro i j hij
    exact images_ne hgen himages hij

end presentation

/-- `uid` buys one ticket of the concert `e1`. -/
def singleRequest (uid : String) : BuyRequest String Data where
  screen := { concertScreen "e1" with eventPhoto := [] }
  uid := uid
  key := "e1"
  numberTickets := 1

/-- A code with an accent is sold and stored, and the QR screen of its record traps. -/
theorem accented_code_traps :
    ∃ (db' : Database String) (events : List (Event String Data)) (vc : QRViewController Data),
      buy (onSale "e1" ["Á1"]) (singleRequest "u1") = some db' ∧
      Ticket.loadTickets (db'.recordsOf "u1") = some events ∧
      TicketsViewController.prepare ⟨events⟩ 0 = some vc ∧
      vc.codesQr = ["Á1"] ∧ vc.viewDidLoad (messageGenerator 2331) = none ∧
      ¬ Presented (messageGenerator 2331) db' "u1" "e1" ["Á1"] := by
  refine ⟨_, _, _, rfl, rfl, rfl, rfl, rfl, ?_⟩
  intro h
  have hcode := encodable_of_presented (messageGenerator_documented 2331) h "Á1" (by simp)
  exact absurd hcode.ascii (by decide)

/-- `u2` buys one ticket of two, then `u1` buys the other one and opens it. -/
theorem second_code_presented :
    ∃ db db', (onSale "e1" ["A1", "A2"]).recordsOf "u1" = [] ∧
      Runs.exec buy (onSale "e1" ["A1", "A2"]) [singleRequest "u2"] = some db ∧
      buy db (singleRequest "u1") = some db' ∧
      Presented (messageGenerator 2331) db' "u1" "e1" ["A2"] := by
  refine ⟨_, _, rfl, rfl, rfl, ?_⟩
  have hnone : (onSale "e1" ["A1", "A2"]).recordsOf (singleRequest "u1").uid = [] := rfl
  have hrun : Runs.exec buy (onSale "e1" ["A1", "A2"]) [singleRequest "u2"] = some _ := rfl
  refine (presented_iff_encodable (messageGenerator_documented 2331) hnone hrun rfl).mpr ?_
  intro code hcode
  obtain rfl : code = "A2" := List.mem_singleton.mp hcode
  exact ⟨by decide, by decide⟩

end MeetupApp.QR
