import Mathlib.Data.Option.Basic

/-! # Models/CodigoQR.swift

    The image of one ticket code.  The conversion to ASCII data is Foundation's
    and is modelled; the filter is Core Image's and is a parameter.  What Core
    Image documents about it (`Documented`) is a hypothesis of the results that
    need it. -/

namespace MeetupApp

/-! ## Section 1: data(using: .ascii) -/

abbrev Data := List UInt8

/-- Every character is ASCII. -/
def isASCII (string : String) : Bool :=
  string.toList.all (fun c => c.toNat < 128)

/-- One byte for each character. -/
def asciiBytes (string : String) : Data :=
  string.toList.map (fun c => UInt8.ofNat c.toNat)

/-- `string.data(using: String.Encoding.ascii)`: `nil` if a character is not ASCII. -/
def asciiData (string : String) : Option Data :=
  if isASCII string then some (asciiBytes string) else none

theorem asciiData_eq_some {string : String} {data : Data} :
    asciiData string = some data ↔ isASCII string = true ∧ asciiBytes string = data := by
  unfold asciiData
  split
  · next h => exact ⟨fun hs => ⟨h, Option.some.inj hs⟩, fun hs => congrArg some hs.2⟩
  · next h => exact ⟨fun hs => (nomatch hs), fun hs => absurd hs.1 h⟩

/-- An ASCII character is its byte. -/
theorem ofNat_toNat_of_ascii {c : Char} (h : c.toNat < 128) :
    Char.ofNat (UInt8.ofNat c.toNat).toNat = c := by
  have hbyte : (UInt8.ofNat c.toNat).toNat = c.toNat := by
    rw [UInt8.toNat_ofNat']
    omega
  rw [hbyte, Char.ofNat_toNat]

/-- The data of a string determines it. -/
theorem asciiData_injective {a b : String} {data : Data} (ha : asciiData a = some data)
    (hb : asciiData b = some data) : a = b := by
  -- Both strings can be read off the data.
  have hread : ∀ s, asciiData s = some data →
      s.toList = data.map (fun byte => Char.ofNat byte.toNat) := by
    intro s hs
    obtain ⟨hascii, rfl⟩ := asciiData_eq_some.mp hs
    have hchar : ∀ c ∈ s.toList, c.toNat < 128 := by
      intro c hc
      simpa using List.all_eq_true.mp hascii c hc
    have hid : s.toList.map (fun c => Char.ofNat (UInt8.ofNat c.toNat).toNat) = s.toList.map id :=
      List.map_congr_left (fun c hc => ofNat_toNat_of_ascii (hchar c hc))
    rw [asciiBytes, List.map_map]
    exact (hid.trans (List.map_id _)).symm
  exact String.toList_inj.mp ((hread a ha).trans (hread b hb).symm)

/-! ## Section 2: The filter -/

/-- `CIQRCodeGenerator`: from its message to the output image, scaled by ten, as a
    `UIImage`; `none` where `outputImage` is `nil`. -/
abbrev QRGenerator (Image : Type) := Option Data → Option Image

/-- What is documented of the filter: an image for every message that `Fits` into a QR
    symbol, and different images for different messages. -/
structure QRGenerator.Documented {Image : Type} (generator : QRGenerator Image)
    (Fits : Data → Prop) : Prop where
  isSome_iff : ∀ message,
    (generator message).isSome ↔ ∃ data, message = some data ∧ Fits data
  injective : ∀ message message' image, generator message = some image →
    generator message' = some image → message = message'

variable {Image : Type}

/-- `CodigoQR.generateQRCode` -/
def CodigoQR.generateQRCode (generator : QRGenerator Image) (string : String) : Option Image :=
  let data := asciiData string
  generator data

/-- The codes that have a QR image. -/
structure Encodable (Fits : Data → Prop) (code : String) : Prop where
  ascii : isASCII code = true
  fits : Fits (asciiBytes code)

section documented
variable {generator : QRGenerator Image} {Fits : Data → Prop}
  (hgen : generator.Documented Fits)
include hgen

theorem CodigoQR.generateQRCode_isSome {code : String} :
    (CodigoQR.generateQRCode generator code).isSome ↔ Encodable Fits code := by
  unfold generateQRCode
  rw [hgen.isSome_iff]
  constructor
  · intro h
    rcases h with ⟨data, hdata, hfits⟩
    obtain ⟨hascii, rfl⟩ := asciiData_eq_some.mp hdata
    exact ⟨hascii, hfits⟩
  · intro h
    exact ⟨asciiBytes code, asciiData_eq_some.mpr ⟨h.ascii, rfl⟩, h.fits⟩

/-- One image is the image of one code. -/
theorem CodigoQR.generateQRCode_injective {a b : String} {image : Image}
    (ha : CodigoQR.generateQRCode generator a = some image)
    (hb : CodigoQR.generateQRCode generator b = some image) : a = b := by
  have hmessage := hgen.injective _ _ image ha hb
  -- The filter produced an image, so the message was data.
  have hsome : (generator (asciiData a)).isSome := Option.isSome_iff_exists.mpr ⟨image, ha⟩
  obtain ⟨data, hdata, -⟩ := (hgen.isSome_iff (asciiData a)).mp hsome
  exact asciiData_injective hdata (hmessage.symm.trans hdata)

end documented

/-- A filter that keeps the message as the image, for messages of at most `capacity` bytes. -/
def messageGenerator (capacity : Nat) : QRGenerator Data :=
  fun message => message.filter (fun data => data.length ≤ capacity)

theorem messageGenerator_documented (capacity : Nat) :
    (messageGenerator capacity).Documented (fun data => data.length ≤ capacity) where
  isSome_iff message := by
    cases message with
    | none => simp [messageGenerator]
    | some data => simp [messageGenerator, Option.filter]
  injective message message' image h h' := by
    unfold messageGenerator at h h'
    rw [Option.filter_eq_some_iff] at h h'
    exact h.1.trans h'.1.symm

end MeetupApp
