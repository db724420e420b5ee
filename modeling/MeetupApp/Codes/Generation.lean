import Mathlib
import MeetupApp.Controllers.EventDescription
import MeetupApp.Framework.Collecting
import MeetupApp.Framework.Runs

/-! # Generating ticket codes

    `generateTickets` draws numbers of five digits until it has enough different
    ones.  On any stream of draws its list is the collection of distinct draws,
    rendered, and its counter is the length of that list.

    There are 90000 numbers of five digits: up to there the loop ends on every
    stream in which all of them keep coming up, beyond it the loop ends on none. -/

namespace MeetupApp.Codes

open Collecting GenerateTickets

/-! ## Section 1: Draws -/

noncomputable instance : Fintype Draw :=
  Fintype.subtype (Finset.Icc (10000 : Int) 99999) (by simp)

theorem card_draw : Fintype.card Draw = 90000 := by
  rw [Fintype.card_of_subtype (Finset.Icc (10000 : Int) 99999) (by simp), Int.card_Icc]
  rfl

/-- `String(draw)` -/
def numero (draw : Draw) : String := toString draw.val

theorem numero_injective : Function.Injective numero :=
  fun _ _ h => Subtype.ext (Int.repr_injective h)

/-- Five characters, each of them a decimal digit. -/
structure FiveDigits (code : String) : Prop where
  length : code.length = 5
  digits : ∀ c ∈ code.toList, c.isDigit = true

theorem fiveDigits_numero (draw : Draw) : FiveDigits (numero draw) := by
  obtain ⟨value, hlow, hhigh⟩ := draw
  obtain ⟨n, rfl⟩ := Int.eq_ofNat_of_zero_le (show 0 ≤ value by omega)
  have hrepr : numero ⟨n, hlow, hhigh⟩ = n.repr := rfl
  rw [hrepr]
  constructor
  · have hle : n.repr.length ≤ 5 := (Nat.length_repr_le_iff (by omega)).mpr (by omega)
    have hgt : ¬ n.repr.length ≤ 4 := by
      rw [Nat.length_repr_le_iff (by omega)]
      omega
    omega
  · intro c hc
    rw [Nat.toList_repr] at hc
    exact Nat.isDigit_of_mem_toDigits (by omega) (by omega) hc

/-! ## Section 2: The loop collects distinct draws -/

/-- The variables of the loop when `seen` has been collected. -/
def holding (seen : List Draw) : GenerateTickets where
  tickets := seen.map numero
  contador := seen.length

/-- **One round** adds the draw to the collection. -/
theorem body_holding (seen : List Draw) (draw : Draw) :
    (holding seen).body draw = holding (add seen draw) := by
  have hcontains : ((holding seen).tickets.contains (toString draw.val) = true) ↔ draw ∈ seen := by
    rw [List.contains_iff_mem]
    exact List.mem_map_of_injective numero_injective
  unfold body add
  by_cases hseen : draw ∈ seen
  · simp only [hcontains.mpr hseen, if_pos hseen]
    rfl
  · have hnew : (holding seen).tickets.contains (toString draw.val) = false := by
      rw [← Bool.not_eq_true, hcontains]
      exact hseen
    simp only [hnew, if_neg hseen]
    simp [holding, numero]

/-- The first `t` draws of a stream, as a run of the loop. -/
def rounds (number : Int) (draws : Nat → Draw) (t : Nat) : Option GenerateTickets :=
  Runs.exec (step number) .start ((List.range t).map draws)

theorem rounds_succ (number : Int) (draws : Nat → Draw) (t : Nat) :
    rounds number draws (t + 1)
      = (rounds number draws t).bind (fun s => step number s (draws t)) := by
  unfold rounds
  rw [List.range_succ, List.map_append, Runs.exec_append]
  congr 1
  funext s
  simp [Runs.exec_cons]

/-- **At every iteration** the loop holds what was collected. -/
theorem holding_of_rounds {number : Int} {draws : Nat → Draw} {t : Nat} {s : GenerateTickets}
    (h : rounds number draws t = some s) : s = holding (distinct draws t) := by
  induction t generalizing s with
  | zero =>
    obtain rfl : start = s := Option.some.inj h
    rfl
  | succ t ih =>
    rw [rounds_succ] at h
    obtain ⟨m, hm, hstep⟩ := Option.bind_eq_some_iff.mp h
    unfold step at hstep
    split at hstep
    · rw [← Option.some.inj hstep, ih hm, body_holding]
      rfl
    · cases hstep

/-- The loop gets as far as the collection stays short. -/
theorem rounds_of_short {number : Int} {draws : Nat → Draw} {t : Nat}
    (h : ∀ i < t, ((distinct draws i).length : Int) < number) :
    rounds number draws t = some (holding (distinct draws t)) := by
  induction t with
  | zero => rfl
  | succ t ih =>
    have hbefore := ih (fun i hi => h i (by omega))
    have hmore : (holding (distinct draws t)).contador < number := h t (by omega)
    rw [rounds_succ, hbefore, Option.bind_some, step, if_pos hmore, body_holding]
    rfl

/-! ## Section 3: The end of the loop -/

/-- The first `t + 1` draws are the first draw and `t` draws of the rest of the stream. -/
theorem map_range_succ (draws : Nat → Draw) (t : Nat) :
    (List.range (t + 1)).map draws
      = draws 0 :: (List.range t).map (fun i => draws (i + 1)) := by
  rw [List.range_succ_eq_map, List.map_cons, List.map_map]
  rfl

/-- The loop returns the list of the first state in which its condition fails. -/
theorem loop_eq_some {number : Int} {fuel : Nat} {draws : Nat → Draw} {s : GenerateTickets}
    {tickets : List String} :
    loop number fuel draws s = some tickets ↔
      ∃ t ≤ fuel, ∃ s', Runs.exec (step number) s ((List.range t).map draws) = some s' ∧
        number ≤ s'.contador ∧ tickets = s'.tickets := by
  induction fuel generalizing draws s with
  | zero =>
    unfold loop
    constructor
    · intro h
      split at h
      · cases h
      · exact ⟨0, le_refl 0, s, rfl, by omega, (Option.some.inj h).symm⟩
    · intro h
      rcases h with ⟨t, ht, s', hrun, hdone, rfl⟩
      obtain rfl : t = 0 := by omega
      obtain rfl : s = s' := Option.some.inj hrun
      rw [if_neg (by omega)]
  | succ fuel ih =>
    unfold loop
    by_cases hmore : s.contador < number
    · rw [if_pos hmore, ih]
      have hstep : step number s (draws 0) = some (s.body (draws 0)) := if_pos hmore
      constructor
      · intro h
        rcases h with ⟨t, ht, s', hrun, hdone⟩
        refine ⟨t + 1, by omega, s', ?_, hdone⟩
        rw [map_range_succ]
        exact Runs.exec_cons_of_step hstep hrun
      · intro h
        rcases h with ⟨t, ht, s', hrun, hdone⟩
        cases t with
        | zero =>
          obtain rfl : s = s' := Option.some.inj hrun
          omega
        | succ t =>
          rw [map_range_succ, Runs.exec_cons, hstep] at hrun
          exact ⟨t, by omega, s', hrun, hdone⟩
    · rw [if_neg hmore]
      constructor
      · intro h
        exact ⟨0, by omega, s, rfl, by omega, (Option.some.inj h).symm⟩
      · intro h
        rcases h with ⟨t, ht, s', hrun, hdone, rfl⟩
        cases t with
        | zero =>
          obtain rfl : s = s' := Option.some.inj hrun
          rfl
        | succ t =>
          -- The loop is over in `s`: there is no round from it.
          rw [map_range_succ, Runs.exec_cons, step, if_neg hmore] at hrun
          cases hrun

theorem generateTickets_eq_some {number : Int} {draws : Nat → Draw} {fuel : Nat}
    {tickets : List String} :
    generateTickets number draws fuel = some tickets ↔
      ∃ t ≤ fuel, ∃ s, rounds number draws t = some s ∧ number ≤ s.contador ∧
        tickets = s.tickets :=
  loop_eq_some

/-- The counter does not overshoot. -/
theorem contador_of_exit {number : Int} {draws : Nat → Draw} {t : Nat} {s : GenerateTickets}
    (h : rounds number draws t = some s) (hdone : number ≤ s.contador) :
    s.contador = max 0 number := by
  cases t with
  | zero =>
    obtain rfl : start = s := Option.some.inj h
    have hzero : start.contador = 0 := rfl
    omega
  | succ t =>
    rw [rounds_succ] at h
    obtain ⟨m, hm, hstep⟩ := Option.bind_eq_some_iff.mp h
    have hbefore := holding_of_rounds hm
    subst hbefore
    unfold step at hstep
    split at hstep
    · next hmore =>
      -- The condition held one round ago, and a round adds at most one.
      rw [body_holding] at hstep
      obtain rfl := Option.some.inj hstep
      have hone := length_add_le (distinct draws t) (draws t)
      simp only [holding] at hmore hdone ⊢
      omega
    · cases hstep

/-- While codes are missing, some draw makes progress. -/
theorem progress {number : Int} (hnumber : number ≤ 90000) {draws : Nat → Draw} {t : Nat}
    {s : GenerateTickets} (h : rounds number draws t = some s) (hmore : s.contador < number) :
    ∃ draw, (s.body draw).contador = s.contador + 1 := by
  have hs := holding_of_rounds h
  subst hs
  have hshort : (distinct draws t).length < Fintype.card Draw := by
    rw [card_draw]
    simp only [holding] at hmore
    omega
  obtain ⟨draw, hmissing⟩ := exists_missing hshort
  refine ⟨draw, ?_⟩
  rw [body_holding]
  simp only [holding, length_add_of_notMem hmissing]
  omega

/-- **Termination** on every stream in which all values recur. -/
theorem exits_of_recurring {number : Int} (hnumber : number ≤ 90000) {draws : Nat → Draw}
    (hrec : ∀ value t, ∃ i, t ≤ i ∧ draws i = value) :
    ∃ fuel tickets, generateTickets number draws fuel = some tickets := by
  have hfull : ∃ t, number.toNat ≤ (distinct draws t).length := by
    refine exists_length_ge hrec ?_
    rw [card_draw]
    omega
  -- The loop ends in the first state with enough codes.
  let t := Nat.find hfull
  have henough : number.toNat ≤ (distinct draws t).length := Nat.find_spec hfull
  have hshort : ∀ i < t, ((distinct draws i).length : Int) < number := by
    intro i hi
    have hnot := Nat.find_min hfull hi
    omega
  refine ⟨t, _, generateTickets_eq_some.mpr ⟨t, le_refl t, _, rounds_of_short hshort, ?_, rfl⟩⟩
  simp only [holding]
  omega

/-- The list after some rounds. -/
theorem tickets_of_rounds {number : Int} {draws : Nat → Draw} {t : Nat} {s : GenerateTickets}
    (h : rounds number draws t = some s) :
    s.tickets.Nodup ∧ (s.tickets.length : Int) = s.contador ∧
      ∀ code ∈ s.tickets, FiveDigits code ∧ ∃ i < t, code = toString (draws i).val := by
  have hs := holding_of_rounds h
  subst hs
  refine ⟨(nodup_distinct draws t).map numero_injective, by simp [holding], ?_⟩
  intro code hcode
  obtain ⟨draw, hdraw, rfl⟩ := List.mem_map.mp hcode
  obtain ⟨i, hi, rfl⟩ := mem_distinct.mp hdraw
  exact ⟨fiveDigits_numero (draws i), i, hi, rfl⟩

/-- Beyond 90000 the list would have more codes than there are values. -/
theorem generateTickets_eq_none {number : Int} (hnumber : 90000 < number) (draws : Nat → Draw)
    (fuel : Nat) : generateTickets number draws fuel = none := by
  rw [Option.eq_none_iff_forall_ne_some]
  intro tickets h
  obtain ⟨t, -, s, hs, hdone, -⟩ := generateTickets_eq_some.mp h
  have hcard := length_distinct_le_card draws t
  rw [card_draw] at hcard
  rw [holding_of_rounds hs] at hdone
  simp only [holding] at hdone
  omega

/-- **Ticket codes.**  On every stream of draws: at every iteration the list has no
    duplicates, holds renderings of drawn values with five digits, and is as long as
    the counter says.  What is returned is the list of an iteration, the first that has
    enough codes: exactly the number of codes asked for, or none, all different, each of
    them the rendering of a drawn value.  Up to 90000 codes some draw always makes
    progress, and the loop ends if every value recurs; beyond 90000 it never ends. -/
theorem generateTickets_spec (number : Int) (draws : Nat → Draw) :
    (∀ t s, rounds number draws t = some s →
      s.tickets.Nodup ∧ (s.tickets.length : Int) = s.contador ∧
      ∀ code ∈ s.tickets, FiveDigits code ∧ ∃ i < t, code = toString (draws i).val) ∧
    (∀ fuel tickets, generateTickets number draws fuel = some tickets ↔
      ∃ t ≤ fuel, ∃ s, rounds number draws t = some s ∧ number ≤ s.contador ∧
        tickets = s.tickets) ∧
    (∀ fuel tickets, generateTickets number draws fuel = some tickets →
      tickets.Nodup ∧ (tickets.length : Int) = max 0 number ∧
      ∀ code ∈ tickets, FiveDigits code ∧ ∃ i < fuel, code = toString (draws i).val) ∧
    (number ≤ 90000 →
      (∀ t s, rounds number draws t = some s → s.contador < number →
        ∃ draw, (s.body draw).contador = s.contador + 1) ∧
      ((∀ value t, ∃ i, t ≤ i ∧ draws i = value) →
        ∃ fuel tickets, generateTickets number draws fuel = some tickets)) ∧
    (90000 < number → ∀ fuel, generateTickets number draws fuel = none) := by
  refine ⟨fun _ _ h => tickets_of_rounds h, fun _ _ => generateTickets_eq_some, ?_, ?_,
    fun hnumber => generateTickets_eq_none hnumber draws⟩
  · intro fuel tickets h
    obtain ⟨t, ht, s, hs, hdone, rfl⟩ := generateTickets_eq_some.mp h
    obtain ⟨hnodup, hlength, hcodes⟩ := tickets_of_rounds hs
    refine ⟨hnodup, hlength.trans (contador_of_exit hs hdone), ?_⟩
    intro code hcode
    obtain ⟨hdigits, i, hi, hdrawn⟩ := hcodes code hcode
    exact ⟨hdigits, i, by omega, hdrawn⟩
  · intro hnumber
    exact ⟨fun _ _ h hmore => progress hnumber h hmore, exits_of_recurring hnumber⟩

/-- A stream that runs through all numbers of five digits again and again. -/
def cycling (i : Nat) : Draw :=
  ⟨10000 + (i % 90000 : Nat), by omega, by omega⟩

theorem cycling_recurs (value : Draw) (t : Nat) : ∃ i, t ≤ i ∧ cycling i = value := by
  obtain ⟨v, hlow, hhigh⟩ := value
  refine ⟨90000 * t + (v - 10000).toNat, by omega, Subtype.ext ?_⟩
  show 10000 + (((90000 * t + (v - 10000).toNat) % 90000 : Nat) : Int) = v
  omega

/-- Three codes from that stream. -/
theorem generateTickets_three :
    ∃ fuel tickets, generateTickets 3 cycling fuel = some tickets ∧ tickets.Nodup ∧
      (tickets.length : Int) = 3 ∧ ∀ code ∈ tickets, FiveDigits code := by
  obtain ⟨-, -, hreturned, hsmall, -⟩ := generateTickets_spec 3 cycling
  obtain ⟨fuel, tickets, htickets⟩ := (hsmall (by decide)).2 cycling_recurs
  obtain ⟨hnodup, hlength, hcodes⟩ := hreturned fuel tickets htickets
  exact ⟨fuel, tickets, htickets, hnodup, hlength, fun code hcode => (hcodes code hcode).1⟩

end MeetupApp.Codes
