import MeetupApp.Firebase.Value
import MeetupApp.Framework.Carousel
import MeetupApp.Models.CodigoQR

/-! # Controllers/QRViewController.swift

    The screen that shows the QR codes of one ticket record, one at a time.
    Three handlers rewrite the image and the counter, and two of them the index.

    A handler returns `none` where a forced unwrap or a subscript traps. -/

namespace MeetupApp

open Carousel

/-! ## Section 1: The screen -/

/-- `class QRViewController` with the contents of its three outlets. -/
structure QRViewController (Image : Type) where
  lblTitle : String
  imgQR : Option Image
  lblContador : String
  name : String
  codesQr : List String
  codesQRImages : List Image
  index : Int

namespace QRViewController

variable {Image : Type}

/-- A new screen after `prepare(for:sender:)`, before its view is loaded. -/
def prepared (name : String) (codesQr : List String) : QRViewController Image where
  lblTitle := "Label"
  imgQR := none
  lblContador := "Label"
  name := name
  codesQr := codesQr
  codesQRImages := []
  index := 0

/-- `fromStringToImage` -/
def fromStringToImage (generator : QRGenerator Image) (codes : List String) :
    Option (List Image) :=
  codes.mapM (CodigoQR.generateQRCode generator)

/-- `imgQR.image = codesQRImages[0]` and the counter " 1 / n" -/
def showFirst (self : QRViewController Image) : Option (QRViewController Image) := do
  some { self with
    imgQR := some (← at? self.codesQRImages 0)
    lblContador := " 1 / " ++ toString self.codesQRImages.length }

/-- `imgQR.image = codesQRImages[index]` and the counter of `index` -/
def showIndex (self : QRViewController Image) : Option (QRViewController Image) := do
  some { self with
    imgQR := some (← at? self.codesQRImages self.index)
    lblContador :=
      " " ++ toString (self.index + 1) ++ " / " ++ toString self.codesQRImages.length }

/-- The common body of `viewDidLoad` and `viewWillAppear`. -/
def load (generator : QRGenerator Image) (self : QRViewController Image) :
    Option (QRViewController Image) := do
  -- `index` is not assigned.
  showFirst { self with
    lblTitle := self.name
    codesQRImages := ← fromStringToImage generator self.codesQr }

/-- `viewDidLoad` -/
def viewDidLoad (generator : QRGenerator Image) (self : QRViewController Image) :
    Option (QRViewController Image) :=
  self.load generator

/-- `viewWillAppear` -/
def viewWillAppear (generator : QRGenerator Image) (self : QRViewController Image) :
    Option (QRViewController Image) :=
  self.load generator

/-- `swipeLeft` -/
def swipeLeft (self : QRViewController Image) : Option (QRViewController Image) :=
  if self.codesQRImages.length = 1 then
    self.showFirst
  else if (self.codesQRImages.length : Int) - 1 = self.index then
    showIndex { self with index := 0 }
  else
    showIndex { self with index := self.index + 1 }

/-- `swipeRigth` -/
def swipeRigth (self : QRViewController Image) : Option (QRViewController Image) :=
  if self.codesQRImages.length = 1 then
    self.showFirst
  else if self.index = 0 then
    showIndex { self with index := (self.codesQRImages.length : Int) - 1 }
  else
    showIndex { self with index := self.index - 1 }

/-! ## Section 2: Loading -/

/-- One image for each code, in the order of the codes. -/
theorem fromStringToImage_eq_some {generator : QRGenerator Image} {codes : List String}
    {images : List Image} :
    fromStringToImage generator codes = some images ↔
      List.Forall₂ (fun code image => CodigoQR.generateQRCode generator code = some image)
        codes images :=
  Firebase.mapM_eq_some_iff

theorem map_generateQRCode {generator : QRGenerator Image} {codes : List String}
    {images : List Image} (h : fromStringToImage generator codes = some images) :
    codes.map (CodigoQR.generateQRCode generator) = images.map some := by
  have himages := fromStringToImage_eq_some.mp h
  clear h
  induction himages with
  | nil => rfl
  | cons himage _ ih => rw [List.map_cons, List.map_cons, himage, ih]

/-- The images can be made exactly when every code has one. -/
theorem fromStringToImage_isSome {generator : QRGenerator Image} {Fits : Data → Prop}
    (hgen : generator.Documented Fits) {codes : List String} :
    (fromStringToImage generator codes).isSome ↔ ∀ code ∈ codes, Encodable Fits code := by
  constructor
  · intro h code hcode
    obtain ⟨images, himages⟩ := Option.isSome_iff_exists.mp h
    have hmap := map_generateQRCode himages
    have hmem : CodigoQR.generateQRCode generator code ∈ images.map some := by
      rw [← hmap]
      exact List.mem_map_of_mem hcode
    obtain ⟨image, -, himage⟩ := List.mem_map.mp hmem
    exact (CodigoQR.generateQRCode_isSome hgen).mp (by simp [← himage])
  · intro h
    obtain ⟨images, himages⟩ := Firebase.mapM_isSome (fun code hcode =>
      Option.isSome_iff_exists.mp ((CodigoQR.generateQRCode_isSome hgen).mpr (h code hcode)))
    exact Option.isSome_iff_exists.mpr ⟨images, himages⟩

/-! ## Section 3: What the handlers show -/

/-- The screen with the index, the image and the counter of position `i`. -/
def showing (self : QRViewController Image) (i : Int) : QRViewController Image :=
  { self with
    imgQR := at? self.codesQRImages i
    lblContador := " " ++ toString (i + 1) ++ " / " ++ toString self.codesQRImages.length
    index := i }

section showing
variable (self : QRViewController Image) (i j : Int)

@[simp] theorem showing_index : (self.showing i).index = i := rfl

@[simp] theorem showing_codesQRImages : (self.showing i).codesQRImages = self.codesQRImages := rfl

@[simp] theorem showing_showing : (self.showing i).showing j = self.showing j := rfl

end showing

/-- The index is a position of the images. -/
structure InRange (vc : QRViewController Image) : Prop where
  nonneg : 0 ≤ vc.index
  lt : vc.index < vc.codesQRImages.length

theorem InRange.length_pos {vc : QRViewController Image} (h : vc.InRange) :
    0 < (vc.codesQRImages.length : Int) := by
  have h0 := h.nonneg
  have hlt := h.lt
  omega

/-- At a position, both assignments succeed and show it. -/
theorem showIndex_eq {vc : QRViewController Image} (h : vc.InRange) :
    vc.showIndex = some (vc.showing vc.index) := by
  obtain ⟨image, himage⟩ := Option.isSome_iff_exists.mp (at?_isSome.mpr ⟨h.nonneg, h.lt⟩)
  simp [showIndex, showing, himage]

theorem showFirst_eq {vc : QRViewController Image} (h : vc.codesQRImages ≠ []) :
    vc.showFirst = some { vc.showing 0 with index := vc.index } := by
  cases himages : vc.codesQRImages with
  | nil => exact absurd himages h
  | cons image rest =>
    have hfirst : at? (image :: rest) 0 = some image := rfl
    simp only [showFirst, showing, himages, hfirst]
    rfl

/-- Loading makes the images and shows the first one; the index stays where it was. -/
theorem load_eq_some {generator : QRGenerator Image} {vc vc' : QRViewController Image} :
    vc.load generator = some vc' ↔
      ∃ images, fromStringToImage generator vc.codesQr = some images ∧ images ≠ [] ∧
        vc' = { { vc with lblTitle := vc.name, codesQRImages := images }.showing 0 with
          index := vc.index } := by
  unfold load
  simp only [Option.bind_eq_bind, Option.bind_eq_some_iff]
  constructor
  · intro h
    rcases h with ⟨images, himages, hshow⟩
    cases images with
    | nil => cases hshow
    | cons image rest =>
      rw [showFirst_eq (by simp)] at hshow
      exact ⟨image :: rest, himages, by simp, (Option.some.inj hshow).symm⟩
  · intro h
    rcases h with ⟨images, himages, hne, rfl⟩
    exact ⟨images, himages, showFirst_eq hne⟩

/-- **A swipe to the left is a turn to the next position**, in each of its branches. -/
theorem swipeLeft_eq {vc : QRViewController Image} (h : vc.InRange) :
    vc.swipeLeft = some (vc.showing (next vc.codesQRImages.length vc.index)) := by
  have h0 := h.nonneg
  have hlt := h.lt
  unfold swipeLeft next
  split
  · next hone =>
    -- A single image: the index is 0 and is left alone.
    have hne : vc.codesQRImages ≠ [] := by
      intro hnil
      simp [hnil] at hone
    have hindex : vc.index = 0 := by omega
    rw [showFirst_eq hne, if_pos (by omega), hindex]
    rfl
  · split
    · rw [showIndex_eq ⟨by simp, by simp only; omega⟩]
      rfl
    · rw [showIndex_eq ⟨by simp only; omega, by simp only; omega⟩]
      rfl

/-- A swipe to the right is a turn to the position before. -/
theorem swipeRigth_eq {vc : QRViewController Image} (h : vc.InRange) :
    vc.swipeRigth = some (vc.showing (prev vc.codesQRImages.length vc.index)) := by
  have h0 := h.nonneg
  have hlt := h.lt
  unfold swipeRigth prev
  split
  · next hone =>
    have hne : vc.codesQRImages ≠ [] := by
      intro hnil
      simp [hnil] at hone
    have hindex : vc.index = 0 := by omega
    have hlast : (vc.codesQRImages.length : Int) - 1 = 0 := by omega
    rw [showFirst_eq hne, if_pos hindex, hlast, hindex]
    rfl
  · split
    · rw [showIndex_eq ⟨by simp only; omega, by simp only; omega⟩]
      rfl
    · rw [showIndex_eq ⟨by simp only; omega, by simp only; omega⟩]
      rfl

end QRViewController

end MeetupApp
