import Mathlib.Data.List.Nodup
import Mathlib.Data.List.Infix
import Mathlib.Logic.Function.Basic
import Mathlib.Logic.Relation

/-! # Selling from the front of a stock

    A seller holds one stock (a list of codes) for each item and sells
    from its front.  `Office` is the seller as it should be: a sale moves the
    first codes of the stock into the ledger, in one step.

    Its books balance: what the ledger says was sold of an item, followed by
    what is left, is the stock the office opened with (`Office.Balanced`).
    Everything else is read off that equation: no code sold twice, no more
    sold than there was, and a sale made from an outdated stock necessarily
    repeats a code. -/

namespace FrontSale

variable {ι β α : Type*} [DecidableEq ι]

/-! ## Section 1: The ledger -/

/-- One sale: `codes` of `item`, handed to `buyer`. -/
structure Sale (ι β α : Type*) where
  item : ι
  buyer : β
  codes : List α

/-- The codes of `i` that the ledger hands out, oldest sale first. -/
def sold (ledger : List (Sale ι β α)) (i : ι) : List α :=
  (ledger.filter (fun s => s.item = i)).flatMap (·.codes)

@[simp] theorem sold_nil (i : ι) : sold ([] : List (Sale ι β α)) i = [] := rfl

@[simp] theorem sold_append (l₁ l₂ : List (Sale ι β α)) (i : ι) :
    sold (l₁ ++ l₂) i = sold l₁ i ++ sold l₂ i := by
  simp [sold]

@[simp] theorem sold_singleton (s : Sale ι β α) (i : ι) :
    sold [s] i = if s.item = i then s.codes else [] := by
  by_cases h : s.item = i <;> simp [sold, h]

theorem mem_sold {ledger : List (Sale ι β α)} {i : ι} {c : α} :
    c ∈ sold ledger i ↔ ∃ s ∈ ledger, s.item = i ∧ c ∈ s.codes := by
  simp [sold, and_assoc]

/-- If the codes sold of each item are distinct, no two sales of an item share one. -/
theorem disjoint_of_nodup_sold {ledger : List (Sale ι β α)} (h : ∀ i, (sold ledger i).Nodup) :
    ledger.Pairwise (fun a b => a.item = b.item → a.codes.Disjoint b.codes) := by
  rw [List.pairwise_iff_getElem]
  intro i j hi hj hij hitem
  have hpair : (ledger.filter (fun s => s.item = ledger[i].item)).Pairwise
      (fun a b => a.codes.Disjoint b.codes) := by
    have := h ledger[i].item
    rw [sold, List.nodup_flatMap] at this
    exact this.2
  rw [List.pairwise_filter, List.pairwise_iff_getElem] at hpair
  exact hpair i j hi hj hij (by simp) (by simp [hitem])

/-! ## Section 2: The office -/

/-- The seller as it should be: what is left of each item, and what was sold. -/
structure Office (ι β α : Type*) where
  stock : ι → List α
  ledger : List (Sale ι β α)

/-- The office opens with `init` on sale and nothing sold. -/
def Office.opening (init : ι → List α) : Office ι β α where
  stock := init
  ledger := []

/-- Sell the first `n` codes of `i` to `b`; refused when fewer are left. -/
def Office.sell (o : Office ι β α) (b : β) (i : ι) (n : Nat) : Option (Office ι β α) :=
  if n ≤ (o.stock i).length then
    some { stock := Function.update o.stock i ((o.stock i).drop n)
           ledger := o.ledger ++ [⟨i, b, (o.stock i).take n⟩] }
  else none

/-- The books balance: sold codes followed by the codes left are the opening stock. -/
def Office.Balanced (init : ι → List α) (o : Office ι β α) : Prop :=
  ∀ i, sold o.ledger i ++ o.stock i = init i

theorem Office.balanced_opening (init : ι → List α) :
    (Office.opening init : Office ι β α).Balanced init := by
  intro i
  simp [Office.opening]

/-- A sale keeps the books balanced. -/
theorem Office.balanced_sell {init : ι → List α} {o o' : Office ι β α} {b : β} {i : ι} {n : Nat}
    (h : o.Balanced init) (hs : o.sell b i n = some o') : o'.Balanced init := by
  unfold Office.sell at hs
  split at hs
  · obtain rfl := Option.some.inj hs
    intro j
    have hj := h j
    by_cases hij : i = j
    · subst hij
      simp only [sold_append, sold_singleton, if_true, Function.update_self]
      rw [List.append_assoc, List.take_append_drop, hj]
    · simp only [sold_append, sold_singleton, if_neg hij, List.append_nil]
      rw [Function.update_of_ne (Ne.symm hij), hj]
  · cases hs

/-- The office after one more sale, to whomever. -/
def Office.Step (o o' : Office ι β α) : Prop :=
  ∃ b i n, o.sell b i n = some o'

/-- However many sales an office makes, its books balance. -/
theorem Office.balanced_of_sales {init : ι → List α} {o : Office ι β α}
    (h : Relation.ReflTransGen Office.Step (Office.opening init) o) : o.Balanced init := by
  induction h with
  | refl => exact Office.balanced_opening init
  | tail _ hstep ih =>
    obtain ⟨b, i, n, hsell⟩ := hstep
    exact Office.balanced_sell ih hsell

/-! ## Section 3: What balanced books say -/

section Balanced

variable {init : ι → List α} {ledger : List (Sale ι β α)}

/-- Distinct codes on sale are sold at most once. -/
theorem disjoint_of_sold_prefix (hnodup : ∀ i, (init i).Nodup)
    (h : ∀ i, sold ledger i <+: init i) :
    ledger.Pairwise (fun a b => a.item = b.item → a.codes.Disjoint b.codes) :=
  disjoint_of_nodup_sold (fun i => (hnodup i).sublist (h i).sublist)

/-- A sale taken from an outdated stock of `i`, one that still holds codes sold
    since, hands out a code that some earlier sale of `i` handed out. -/
theorem overlap_of_outdated {i : ι} {left outdated : List α} {n : Nat}
    (h : sold ledger i ++ left = init i) (hsuffix : outdated <:+ init i)
    (hlonger : left.length < outdated.length) (hn : 0 < n) :
    ∃ s ∈ ledger, s.item = i ∧ ∃ c ∈ outdated.take n, c ∈ s.codes := by
  obtain ⟨before, hbefore⟩ := hsuffix
  obtain ⟨c, rest, rfl⟩ : ∃ c rest, outdated = c :: rest := by
    cases outdated with
    | nil => simp at hlonger
    | cons c rest => exact ⟨c, rest, rfl⟩
  -- The head of the outdated stock stands in the part that was sold.
  have hlen : before.length < (sold ledger i).length := by
    have h₁ := congrArg List.length h
    have h₂ := congrArg List.length hbefore
    simp only [List.length_append] at h₁ h₂
    omega
  have hc : c ∈ sold ledger i := by
    have hget : (sold ledger i ++ left)[before.length]? = some c := by
      rw [h, ← hbefore]
      simp
    rw [List.getElem?_append_left hlen] at hget
    exact List.mem_of_getElem? hget
  obtain ⟨s, hs, hitem, hcs⟩ := mem_sold.mp hc
  refine ⟨s, hs, hitem, c, ?_, hcs⟩
  cases n with
  | zero => omega
  | succ n => simp

end Balanced

/-! ## Section 4: Lists left behind by sales -/

/-- Taking codes off the front leaves a suffix of the opening stock. -/
theorem drop_suffix {d l : List α} (h : d <:+ l) (n : Nat) : d.drop n <:+ l :=
  (List.drop_suffix n d).trans h

/-- The codes taken are a contiguous segment of the opening stock. -/
theorem take_infix {d l : List α} (h : d <:+ l) (n : Nat) : d.take n <:+: l :=
  (List.take_prefix n d).isInfix.trans h.isInfix

end FrontSale
