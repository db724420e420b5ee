import Mathlib
import MeetupApp.Controllers.QR
import MeetupApp.Framework.Runs

/-! # Browsing the QR codes

    The QR screen after `viewDidLoad`, as a machine whose steps are its handlers.
    `viewWillAppear` may run again at any point, for example when the user starts
    to go back and changes their mind.

    * **Swipes** turn a carousel: the index is the number of left swipes minus the
      number of right swipes, modulo the number of tickets.
    * **Agreement** of image and counter with the index is kept by every swipe, and
      by `viewWillAppear` exactly when it finds the index at 0: it goes back to the
      first image without resetting the index. -/

namespace MeetupApp.QR

open Carousel QRViewController

variable {Image : Type}

/-! ## Section 1: The machine -/

inductive Label where
  | viewWillAppear
  | swipeLeft
  | swipeRigth
  deriving DecidableEq

/-- One handler runs; `none` where it traps. -/
def step (generator : QRGenerator Image) (s : QRViewController Image) :
    Label → Option (QRViewController Image)
  | .viewWillAppear => s.viewWillAppear generator
  | .swipeLeft => s.swipeLeft
  | .swipeRigth => s.swipeRigth

/-! ## Section 2: What a step can do -/

/-- The screen after `viewDidLoad`, whatever was swiped since. -/
structure Loaded (generator : QRGenerator Image) (s : QRViewController Image) : Prop
    extends s.InRange where
  title : s.lblTitle = s.name
  images : fromStringToImage generator s.codesQr = some s.codesQRImages

/-- The image and the counter are those of the index. -/
structure Agrees (s : QRViewController Image) : Prop extends s.InRange where
  image : s.imgQR = at? s.codesQRImages s.index
  counter : s.lblContador
    = " " ++ toString (s.index + 1) ++ " / " ++ toString s.codesQRImages.length

/-- What each handler leads to from a loaded screen. -/
def after (s : QRViewController Image) : Label → QRViewController Image
  | .viewWillAppear => { s.showing 0 with index := s.index }
  | .swipeLeft => s.showing (next s.codesQRImages.length s.index)
  | .swipeRigth => s.showing (prev s.codesQRImages.length s.index)

section loaded
variable {generator : QRGenerator Image} {s : QRViewController Image} (h : Loaded generator s)
include h

/-- **No handler traps** on a loaded screen. -/
theorem step_eq (l : Label) : step generator s l = some (after s l) := by
  cases l with
  | viewWillAppear =>
    refine load_eq_some.mpr ⟨s.codesQRImages, h.images, ?_, ?_⟩
    · intro hnil
      have hpos := h.length_pos
      simp [hnil] at hpos
    · simp [after, QRViewController.showing, h.title]
  | swipeLeft => exact swipeLeft_eq h.toInRange
  | swipeRigth => exact swipeRigth_eq h.toInRange

theorem Loaded.showing {i : Int} (h0 : 0 ≤ i) (hlt : i < s.codesQRImages.length) :
    Loaded generator (s.showing i) :=
  ⟨⟨h0, hlt⟩, h.title, h.images⟩

theorem loaded_after (l : Label) : Loaded generator (after s l) := by
  have hpos := h.length_pos
  cases l with
  | viewWillAppear => exact ⟨⟨h.nonneg, h.lt⟩, h.title, h.images⟩
  | swipeLeft =>
    show Loaded generator (s.showing _)
    rw [next_eq h.nonneg h.lt]
    exact h.showing (emod_nonneg hpos _) (emod_lt hpos _)
  | swipeRigth =>
    show Loaded generator (s.showing _)
    rw [prev_eq h.nonneg h.lt]
    exact h.showing (emod_nonneg hpos _) (emod_lt hpos _)

end loaded

/-- `viewDidLoad` shows the first ticket. -/
theorem viewDidLoad_prepared {generator : QRGenerator Image} {name : String}
    {codes : List String} {vc : QRViewController Image}
    (hload : (prepared name codes).viewDidLoad generator = some vc) :
    Loaded generator vc ∧ Agrees vc ∧ vc.index = 0 ∧ vc.codesQr = codes := by
  obtain ⟨images, himages, hne, rfl⟩ := load_eq_some.mp hload
  have hpos : 0 < images.length := List.length_pos_iff.mpr hne
  have hrange : InRange { { prepared name codes with
      lblTitle := name, codesQRImages := images }.showing 0 with index := 0 } :=
    ⟨le_refl 0, by simpa using hpos⟩
  exact ⟨⟨hrange, rfl, himages⟩, ⟨hrange, rfl, rfl⟩, rfl, rfl⟩

/-! ## Section 3: Agreement -/

theorem agrees_showing {s : QRViewController Image} {i : Int} (h0 : 0 ≤ i)
    (hlt : i < s.codesQRImages.length) : Agrees (s.showing i) :=
  ⟨⟨h0, hlt⟩, rfl, rfl⟩

/-- A screen that agrees with its index shows it already. -/
theorem Agrees.showing {s : QRViewController Image} (h : Agrees s) : s.showing s.index = s := by
  unfold QRViewController.showing
  rw [← h.image, ← h.counter]

/-- The counter of the first ticket is the counter of no other. -/
theorem counter_inj {i j : Int} {t : String}
    (h : " " ++ toString (i + 1) ++ " / " ++ t = " " ++ toString (j + 1) ++ " / " ++ t) :
    i = j := by
  have hshown := (String.append_right_inj " ").mp
    ((String.append_left_inj " / ").mp ((String.append_left_inj t).mp h))
  have hsucc := Int.repr_injective hshown
  omega

/-- **One step.**  A swipe keeps the agreement; `viewWillAppear` keeps it at index 0 only. -/
theorem agrees_after {generator : QRGenerator Image} {s : QRViewController Image}
    (hloaded : Loaded generator s) (l : Label) :
    Agrees (after s l) ↔ (l = .viewWillAppear → s.index = 0) := by
  have hnext := loaded_after hloaded l
  cases l with
  | viewWillAppear =>
    constructor
    · intro h _
      exact (counter_inj (i := 0) h.counter).symm
    · intro h
      have hindex := h rfl
      refine ⟨hnext.toInRange, ?_, ?_⟩
      · show at? s.codesQRImages 0 = at? s.codesQRImages s.index
        rw [hindex]
      · show " " ++ toString ((0 : Int) + 1) ++ _ ++ _ = " " ++ toString (s.index + 1) ++ _ ++ _
        rw [hindex]
        rfl
  | swipeLeft => exact ⟨fun _ h => (nomatch h), fun _ => agrees_showing hnext.nonneg hnext.lt⟩
  | swipeRigth => exact ⟨fun _ h => (nomatch h), fun _ => agrees_showing hnext.nonneg hnext.lt⟩

/-- **The display and the index.**  After `viewDidLoad` no sequence of handlers traps,
    and the display agrees with the index in every state that is reached exactly when
    every `viewWillAppear` of the sequence finds the first ticket selected. -/
theorem display_agrees_iff (generator : QRGenerator Image) (name : String) (codes : List String)
    {vc : QRViewController Image}
    (hload : (prepared name codes).viewDidLoad generator = some vc) (ls : List Label) :
    ∃ s, Runs.exec (step generator) vc ls = some s ∧
      (Runs.AlongRun (step generator) Agrees vc ls ↔
        Runs.StepsMeet (step generator) (fun t l => l = .viewWillAppear → t.index = 0) vc ls) := by
  obtain ⟨hloaded, hagrees, -, -⟩ := viewDidLoad_prepared hload
  obtain ⟨s, hrun⟩ := Runs.exec_isSome (Loaded generator)
    (fun _ l ht => ⟨_, step_eq ht l, loaded_after ht l⟩) hloaded ls
  refine ⟨s, hrun, ?_⟩
  refine Runs.alongRun_iff_stepsMeet (J := Loaded generator) ?_ ?_ hloaded hagrees hrun
  · intro t l t' ht hstep
    rw [step_eq ht] at hstep
    rw [← Option.some.inj hstep]
    exact loaded_after ht l
  · intro t l t' ht _ hstep
    rw [step_eq ht] at hstep
    rw [← Option.some.inj hstep]
    exact agrees_after ht l

/-- Two codes: the second is selected, the screen appears again and shows the first. -/
theorem first_shown_second_selected :
    ∃ vc s, (prepared "Concert" ["A1", "A2"]).viewDidLoad (messageGenerator 2331) = some vc ∧
      Runs.exec (step (messageGenerator 2331)) vc [.swipeLeft, .viewWillAppear] = some s ∧
      s.index = 1 ∧ s.imgQR = some (asciiBytes "A1") ∧ s.lblContador = " 1 / 2" ∧
      ¬ Agrees s := by
  refine ⟨_, _, rfl, rfl, rfl, rfl, rfl, ?_⟩
  intro h
  exact absurd h.counter (by decide)

/-- Two codes, browsed back to the first one before the screen appears again. -/
theorem display_agrees_iff_two :
    ∃ vc, (prepared "Concert" ["A1", "A2"]).viewDidLoad (messageGenerator 2331) = some vc ∧
      ∃ s, Runs.exec (step (messageGenerator 2331)) vc
          [.viewWillAppear, .swipeLeft, .swipeRigth, .viewWillAppear] = some s ∧
        (Runs.AlongRun (step (messageGenerator 2331)) Agrees vc
            [.viewWillAppear, .swipeLeft, .swipeRigth, .viewWillAppear] ↔
          Runs.StepsMeet (step (messageGenerator 2331))
            (fun t l => l = .viewWillAppear → t.index = 0) vc
            [.viewWillAppear, .swipeLeft, .swipeRigth, .viewWillAppear]) :=
  ⟨_, rfl, display_agrees_iff _ "Concert" ["A1", "A2"] rfl _⟩

/-! ## Section 4: Rotation -/

/-- Left swipes minus right swipes. -/
def net (ls : List Label) : Int :=
  (ls.count .swipeLeft : Int) - (ls.count .swipeRigth : Int)

theorem net_cons_left (ls : List Label) : net (.swipeLeft :: ls) = 1 + net ls := by
  unfold net
  rw [List.count_cons_self, List.count_cons_of_ne (by decide)]
  omega

theorem net_cons_right (ls : List Label) : net (.swipeRigth :: ls) = net ls - 1 := by
  unfold net
  rw [List.count_cons_self, List.count_cons_of_ne (by decide)]
  omega

theorem net_perm {ls ks : List Label} (h : ls.Perm ks) : net ls = net ks := by
  unfold net
  rw [h.count_eq, h.count_eq]

theorem net_replicate_left (j : Nat) : net (List.replicate j .swipeLeft) = j := by
  unfold net
  rw [List.count_replicate_self, List.count_replicate, if_neg (by decide)]
  omega

/-- The screen of the ticket `turns` places further, past the last one to the first. -/
def turned (s : QRViewController Image) (turns : Int) : QRViewController Image :=
  s.showing ((s.index + turns) % s.codesQRImages.length)

section rotation
variable {generator : QRGenerator Image} {s : QRViewController Image}
  (hloaded : Loaded generator s)
include hloaded

theorem loaded_turned (turns : Int) : Loaded generator (turned s turns) :=
  hloaded.showing (emod_nonneg hloaded.length_pos _) (emod_lt hloaded.length_pos _)

theorem agrees_turned (turns : Int) : Agrees (turned s turns) :=
  agrees_showing (emod_nonneg hloaded.length_pos _) (emod_lt hloaded.length_pos _)

omit hloaded in
theorem turned_zero (hagrees : Agrees s) : turned s 0 = s := by
  unfold turned
  rw [Int.add_zero, Int.emod_eq_of_lt hagrees.nonneg hagrees.lt, hagrees.showing]

omit hloaded in
theorem turned_turned (turns more : Int) :
    turned (turned s turns) more = turned s (turns + more) := by
  unfold turned
  rw [showing_index, showing_codesQRImages, showing_showing, Int.emod_add_emod, Int.add_assoc]

theorem step_swipeLeft : step generator s .swipeLeft = some (turned s 1) := by
  rw [step_eq hloaded]
  show some (s.showing (next s.codesQRImages.length s.index)) = _
  rw [next_eq hloaded.nonneg hloaded.lt]
  rfl

theorem step_swipeRigth : step generator s .swipeRigth = some (turned s (-1)) := by
  rw [step_eq hloaded]
  show some (s.showing (prev s.codesQRImages.length s.index)) = _
  rw [prev_eq hloaded.nonneg hloaded.lt]
  rfl

end rotation

/-- **Swipes add up.**  From a screen that agrees with its index, a sequence of swipes
    leads as many tickets on as it has left swipes more than right swipes. -/
theorem exec_swipes {generator : QRGenerator Image} {s : QRViewController Image}
    (hloaded : Loaded generator s) (hagrees : Agrees s) {ls : List Label}
    (hls : .viewWillAppear ∉ ls) : Runs.exec (step generator) s ls = some (turned s (net ls)) := by
  induction ls generalizing s with
  | nil => exact congrArg some (turned_zero hagrees).symm
  | cons l ls ih =>
    have hrest : .viewWillAppear ∉ ls := fun h => hls (List.mem_cons_of_mem l h)
    have hstep : ∀ turns, step generator s l = some (turned s turns) →
        Runs.exec (step generator) s (l :: ls) = some (turned s (turns + net ls)) := by
      intro turns hturns
      have hturned := ih (loaded_turned hloaded turns) (agrees_turned hloaded turns) hrest
      rw [turned_turned] at hturned
      exact Runs.exec_cons_of_step hturns hturned
    cases l with
    | viewWillAppear => exact absurd List.mem_cons_self hls
    | swipeLeft =>
      rw [net_cons_left]
      exact hstep 1 (step_swipeLeft hloaded)
    | swipeRigth =>
      rw [net_cons_right, Int.sub_eq_add_neg, Int.add_comm]
      exact hstep (-1) (step_swipeRigth hloaded)

/-- One image for each code. -/
theorem Loaded.length_codes {generator : QRGenerator Image} {s : QRViewController Image}
    (h : Loaded generator s) : s.codesQRImages.length = s.codesQr.length := by
  have hlen := congrArg List.length (map_generateQRCode h.images)
  simpa using hlen.symm

/-- As many left swipes in a row as there are tickets, the screen before each of them. -/
def fullTurn (s : QRViewController Image) : List (QRViewController Image) :=
  (List.range s.codesQRImages.length).map (fun (j : Nat) => turned s j)

section fullTurn
variable {generator : QRGenerator Image} {s : QRViewController Image}
  (hloaded : Loaded generator s)
include hloaded

theorem exec_fullTurn (hagrees : Agrees s) {j : Nat} {t : QRViewController Image}
    (hj : (fullTurn s)[j]? = some t) :
    Runs.exec (step generator) s (List.replicate j .swipeLeft) = some t := by
  have hnever : Label.viewWillAppear ∉ List.replicate j Label.swipeLeft := by
    simp [List.mem_replicate]
  rw [exec_swipes hloaded hagrees hnever, net_replicate_left, ← hj, fullTurn, List.getElem?_map]
  obtain ⟨hlt, -⟩ := List.getElem?_eq_some_iff.mp hj
  rw [fullTurn, List.length_map, List.length_range] at hlt
  rw [List.getElem?_range hlt]
  rfl

/-- Every index comes up once. -/
theorem index_fullTurn_perm :
    ((fullTurn s).map (·.index)).Perm
      ((List.range s.codesQr.length).map (fun (j : Nat) => (j : Int))) := by
  have hpos := hloaded.length_pos
  rw [fullTurn, List.map_map, ← hloaded.length_codes]
  exact positions_perm (by omega) s.index

/-- Every code is shown once. -/
theorem image_fullTurn_perm :
    ((fullTurn s).map (·.imgQR)).Perm (s.codesQr.map (CodigoQR.generateQRCode generator)) := by
  have hne : s.codesQRImages ≠ [] := by
    intro hnil
    have hpos := hloaded.length_pos
    simp [hnil] at hpos
  rw [fullTurn, List.map_map, map_generateQRCode hloaded.images]
  exact items_perm hne s.index

end fullTurn

/-- **Swiping is rotation.**  After `viewDidLoad` and any swipes, the index is the
    number of left swipes minus the number of right swipes, modulo the number of
    tickets, and the display agrees with it.  A left and a right swipe undo each
    other, the order of swipes does not matter, and a round of left swipes shows
    every ticket once. -/
theorem swipes_rotate (generator : QRGenerator Image) (name : String) (codes : List String)
    {vc : QRViewController Image}
    (hload : (prepared name codes).viewDidLoad generator = some vc) (ls : List Label)
    (hls : .viewWillAppear ∉ ls) :
    ∃ s, Runs.exec (step generator) vc ls = some s ∧
      s.index = ((ls.count .swipeLeft : Int) - ls.count .swipeRigth) % codes.length ∧
      Agrees s ∧
      Runs.exec (step generator) s [.swipeLeft, .swipeRigth] = some s ∧
      Runs.exec (step generator) s [.swipeRigth, .swipeLeft] = some s ∧
      (∀ ks, ks.Perm ls → Runs.exec (step generator) vc ks = some s) ∧
      ∃ states : List (QRViewController Image), states.length = codes.length ∧
        (∀ j t, states[j]? = some t →
          Runs.exec (step generator) s (List.replicate j .swipeLeft) = some t) ∧
        (states.map (·.index)).Perm
          ((List.range codes.length).map (fun (j : Nat) => (j : Int))) ∧
        (states.map (·.imgQR)).Perm (codes.map (CodigoQR.generateQRCode generator)) := by
  obtain ⟨hloaded, hagrees, hindex, rfl⟩ := viewDidLoad_prepared hload
  have hs := loaded_turned hloaded (net ls)
  have hsagrees := agrees_turned hloaded (net ls)
  refine ⟨turned vc (net ls), exec_swipes hloaded hagrees hls, ?_, hsagrees, ?_, ?_, ?_,
    fullTurn (turned vc (net ls)), ?_, ?_, index_fullTurn_perm hs, image_fullTurn_perm hs⟩
  · rw [turned, showing_index, hindex, Int.zero_add, hloaded.length_codes]
    rfl
  · rw [exec_swipes hs hsagrees (by decide)]
    exact congrArg some (turned_zero hsagrees)
  · rw [exec_swipes hs hsagrees (by decide)]
    exact congrArg some (turned_zero hsagrees)
  · intro ks hks
    rw [exec_swipes hloaded hagrees (fun h => hls (hks.mem_iff.mp h)), net_perm hks]
  · rw [fullTurn, List.length_map, List.length_range, hs.length_codes]
    rfl
  · intro j t hj
    exact exec_fullTurn hs hsagrees hj

/-- Three codes, swiped back past the first one. -/
theorem swipes_rotate_three :
    ∃ vc, (prepared "Concert" ["A1", "A2", "A3"]).viewDidLoad (messageGenerator 2331) = some vc ∧
      Label.viewWillAppear ∉ [Label.swipeLeft, .swipeRigth, .swipeRigth] ∧
      ∃ s, Runs.exec (step (messageGenerator 2331)) vc [.swipeLeft, .swipeRigth, .swipeRigth]
          = some s ∧ s.index = (1 - 2) % 3 ∧ Agrees s := by
  refine ⟨_, rfl, by decide, ?_⟩
  obtain ⟨s, hrun, hindex, hagrees, -⟩ := swipes_rotate (messageGenerator 2331) "Concert"
    ["A1", "A2", "A3"] rfl [.swipeLeft, .swipeRigth, .swipeRigth] (by decide)
  exact ⟨s, hrun, hindex, hagrees⟩

end MeetupApp.QR
