import Mathlib.Data.List.Basic

/-! # Runs of a labelled machine

    A machine is a partial step function `step : S → L → Option S`: the
    label says which party moves and what it is given, and `none` says
    that the move is not enabled.  A run is a list of labels.

    This module collects the rules by which properties of one step become
    properties of whole runs:

    * **Invariants**: preserved by every step, or by every step that meets
      a condition (`StepsMeet`); **progress** where they enable every step.
    * **Traces**: invariants that also speak about the labels fired so far.
    * **Exactness**: two rules that turn "good steps keep `P`, bad steps
      break it" into an equivalence between a property of the run and a
      condition on its steps.
-/

namespace Runs

variable {S L : Type*}

/-! ## Section 1: Execution -/

/-- Fire the labels of a list in order. -/
def exec (step : S → L → Option S) : S → List L → Option S
  | s, [] => some s
  | s, l :: ls => (step s l).bind (exec step · ls)

@[simp] theorem exec_nil (step : S → L → Option S) (s : S) : exec step s [] = some s := rfl

theorem exec_cons (step : S → L → Option S) (s : S) (l : L) (ls : List L) :
    exec step s (l :: ls) = (step s l).bind (exec step · ls) := rfl

/-- A run of `l :: ls` is a step followed by a run of `ls`. -/
theorem exec_cons_eq_some {step : S → L → Option S} {s s' : S} {l : L} {ls : List L} :
    exec step s (l :: ls) = some s' ↔ ∃ m, step s l = some m ∧ exec step m ls = some s' := by
  simp [exec_cons, Option.bind_eq_some_iff]

theorem exec_cons_of_step {step : S → L → Option S} {s m s' : S} {l : L} {ls : List L}
    (hstep : step s l = some m) (hrest : exec step m ls = some s') :
    exec step s (l :: ls) = some s' :=
  exec_cons_eq_some.mpr ⟨m, hstep, hrest⟩

theorem exec_append {step : S → L → Option S} {s : S} (ls ks : List L) :
    exec step s (ls ++ ks) = (exec step s ls).bind (exec step · ks) := by
  induction ls generalizing s with
  | nil => rfl
  | cons l ls ih =>
    cases h : step s l with
    | none => simp [exec_cons, h]
    | some m => simp [exec_cons, h, ih]

/-- A change of the state that commutes with the steps commutes with the runs. -/
theorem exec_map {step : S → L → Option S} {p : L → Prop} (f : S → S)
    (hstep : ∀ s l, p l → step (f s) l = (step s l).map f) (s : S) {ls : List L}
    (hls : ∀ l ∈ ls, p l) : exec step (f s) ls = (exec step s ls).map f := by
  induction ls generalizing s with
  | nil => rfl
  | cons l ls ih =>
    rw [exec_cons, exec_cons, hstep s l (hls l (by simp))]
    cases step s l with
    | none => rfl
    | some m => exact ih m (fun k hk => hls k (by simp [hk]))

/-! ## Section 2: Invariants of runs -/

/-- Every step of the run meets `cond` in the state it is taken from. -/
def StepsMeet (step : S → L → Option S) (cond : S → L → Prop) : S → List L → Prop
  | _, [] => True
  | s, l :: ls => cond s l ∧ ∀ m, step s l = some m → StepsMeet step cond m ls

/-- Steps that meet a condition meet every weaker one. -/
theorem StepsMeet.mono {step : S → L → Option S} {cond cond' : S → L → Prop}
    (hweaker : ∀ s l, cond s l → cond' s l) {s : S} {ls : List L}
    (h : StepsMeet step cond s ls) : StepsMeet step cond' s ls := by
  induction ls generalizing s with
  | nil => trivial
  | cons l ls ih => exact ⟨hweaker s l h.1, fun m hm => ih (h.2 m hm)⟩

theorem StepsMeet.and {step : S → L → Option S} {cond cond' : S → L → Prop} {s : S} {ls : List L}
    (h : StepsMeet step cond s ls) (h' : StepsMeet step cond' s ls) :
    StepsMeet step (fun s l => cond s l ∧ cond' s l) s ls := by
  induction ls generalizing s with
  | nil => trivial
  | cons l ls ih => exact ⟨⟨h.1, h'.1⟩, fun m hm => ih (h.2 m hm) (h'.2 m hm)⟩

/-- A condition that can be tested of a step can be tested of a run. -/
instance decidableStepsMeet {step : S → L → Option S} {cond : S → L → Prop}
    [∀ s l, Decidable (cond s l)] : ∀ s ls, Decidable (StepsMeet step cond s ls)
  | _, [] => isTrue trivial
  | s, l :: ls =>
    have : DecidablePred (fun m => StepsMeet step cond m ls) := fun m => decidableStepsMeet m ls
    inferInstanceAs (Decidable (cond s l ∧ ∀ m ∈ step s l, StepsMeet step cond m ls))

/-- `P` holds in every state of the run, the first one included. -/
def AlongRun (step : S → L → Option S) (P : S → Prop) : S → List L → Prop
  | s, [] => P s
  | s, l :: ls => P s ∧ ∀ m, step s l = some m → AlongRun step P m ls

theorem AlongRun.head {step : S → L → Option S} {P : S → Prop} {s : S} {ls : List L}
    (h : AlongRun step P s ls) : P s := by
  cases ls with
  | nil => exact h
  | cons l ls => exact h.1

/-- `P` along a run covers the state the run ends in. -/
theorem AlongRun.last {step : S → L → Option S} {P : S → Prop} {s s' : S} {ls : List L}
    (h : AlongRun step P s ls) (he : exec step s ls = some s') : P s' := by
  induction ls generalizing s with
  | nil =>
    obtain rfl : s = s' := Option.some.inj he
    exact h
  | cons l ls ih =>
    obtain ⟨m, hm, hms⟩ := exec_cons_eq_some.mp he
    exact ih (h.2 m hm) hms

/-- The invariant rule, for steps that meet a condition. -/
theorem alongRun_of_stepsMeet {step : S → L → Option S} {cond : S → L → Prop} (Inv : S → Prop)
    (hstep : ∀ s l s', Inv s → cond s l → step s l = some s' → Inv s')
    {s : S} {ls : List L} (hs : Inv s) (hc : StepsMeet step cond s ls) :
    AlongRun step Inv s ls := by
  induction ls generalizing s with
  | nil => exact hs
  | cons l ls ih => exact ⟨hs, fun m hm => ih (hstep s l m hs hc.1 hm) (hc.2 m hm)⟩

/-- The invariant rule for runs all of whose labels are of one kind. -/
theorem exec_preserves_of_labels {step : S → L → Option S} (p : L → Prop) (Inv : S → Prop)
    (hstep : ∀ s l s', p l → Inv s → step s l = some s' → Inv s')
    {s s' : S} {ls : List L} (hls : ∀ l ∈ ls, p l) (hs : Inv s)
    (he : exec step s ls = some s') : Inv s' := by
  induction ls generalizing s with
  | nil =>
    obtain rfl : s = s' := Option.some.inj he
    exact hs
  | cons l ls ih =>
    obtain ⟨m, hm, hms⟩ := exec_cons_eq_some.mp he
    have hnext : Inv m := hstep s l m (hls l (by simp)) hs hm
    exact ih (fun k hk => hls k (by simp [hk])) hnext hms

/-- The invariant rule: what one step preserves, a run preserves. -/
theorem exec_preserves {step : S → L → Option S} (Inv : S → Prop)
    (hstep : ∀ s l s', Inv s → step s l = some s' → Inv s')
    {s s' : S} {ls : List L} (hs : Inv s) (he : exec step s ls = some s') : Inv s' :=
  exec_preserves_of_labels (fun _ => True) Inv (fun s l s' _ => hstep s l s')
    (fun _ _ => trivial) hs he

/-- The progress rule: where an invariant enables every step, every run completes. -/
theorem exec_isSome {step : S → L → Option S} (Inv : S → Prop)
    (hstep : ∀ s l, Inv s → ∃ s', step s l = some s' ∧ Inv s') {s : S} (hs : Inv s)
    (ls : List L) : ∃ s', exec step s ls = some s' := by
  induction ls generalizing s with
  | nil => exact ⟨s, rfl⟩
  | cons l ls ih =>
    obtain ⟨m, hm, hinv⟩ := hstep s l hs
    obtain ⟨s', hs'⟩ := ih hinv
    exact ⟨s', exec_cons_of_step hm hs'⟩

/-- The progress rule for steps that meet a condition. -/
theorem exec_of_stepsMeet {step : S → L → Option S} {cond : S → L → Prop} (Inv : S → Prop)
    (hstep : ∀ s l, Inv s → cond s l → ∃ s', step s l = some s' ∧ Inv s') {s : S} {ls : List L}
    (hs : Inv s) (hc : StepsMeet step cond s ls) : ∃ s', exec step s ls = some s' ∧ Inv s' := by
  induction ls generalizing s with
  | nil => exact ⟨s, rfl, hs⟩
  | cons l ls ih =>
    obtain ⟨m, hm, hinv⟩ := hstep s l hs hc.1
    obtain ⟨s', hs', hlast⟩ := ih hinv (hc.2 m hm)
    exact ⟨s', exec_cons_of_step hm hs', hlast⟩

theorem exec_preserves_trace_from {step : S → L → Option S} (Inv : List L → S → Prop)
    (hstep : ∀ tr s l s', Inv tr s → step s l = some s' → Inv (tr ++ [l]) s')
    {tr : List L} {s s' : S} {ls : List L} (hs : Inv tr s) (he : exec step s ls = some s') :
    Inv (tr ++ ls) s' := by
  induction ls generalizing s tr with
  | nil =>
    obtain rfl : s = s' := Option.some.inj he
    simpa using hs
  | cons l ls ih =>
    obtain ⟨m, hm, hms⟩ := exec_cons_eq_some.mp he
    have hrec := ih (hstep tr s l m hs hm) hms
    simpa [List.append_assoc] using hrec

/-- The invariant rule for invariants that mention the labels fired so far. -/
theorem exec_preserves_trace {step : S → L → Option S} (Inv : List L → S → Prop)
    (hstep : ∀ tr s l s', Inv tr s → step s l = some s' → Inv (tr ++ [l]) s')
    {s s' : S} {ls : List L} (hs : Inv [] s) (he : exec step s ls = some s') : Inv ls s' :=
  exec_preserves_trace_from Inv hstep hs he

/-! ## Section 3: Exactness rules -/

/-- **Exactness for damage that lasts.**  `J` always holds, `Inv` is kept by the
    steps that meet `cond` and implies `P`; a step that misses `cond` breaks `P`,
    and `P` once broken stays broken.  Then the end of a run satisfies `P`
    exactly when every step of the run met `cond`. -/
theorem end_iff_stepsMeet {step : S → L → Option S} {cond : S → L → Prop} {J Inv P : S → Prop}
    (hJ : ∀ s l s', J s → step s l = some s' → J s')
    (hgood : ∀ s l s', J s → Inv s → cond s l → step s l = some s' → Inv s')
    (hP : ∀ s, J s → Inv s → P s)
    (hbad : ∀ s l s', J s → Inv s → ¬ cond s l → step s l = some s' → ¬ P s')
    (hlast : ∀ s l s', J s → ¬ P s → step s l = some s' → ¬ P s')
    {s s' : S} {ls : List L} (hj : J s) (hi : Inv s) (he : exec step s ls = some s') :
    P s' ↔ StepsMeet step cond s ls := by
  induction ls generalizing s with
  | nil =>
    obtain rfl : s = s' := Option.some.inj he
    simp [StepsMeet, hP s hj hi]
  | cons l ls ih =>
    obtain ⟨m, hm, hms⟩ := exec_cons_eq_some.mp he
    have hjm : J m := hJ s l m hj hm
    by_cases hc : cond s l
    · rw [ih hjm (hgood s l m hj hi hc hm) hms]
      simp [StepsMeet, hc, hm]
    · -- The step broke `P` at `m`; the rest of the run cannot repair it.
      have hbroken : J s' ∧ ¬ P s' :=
        exec_preserves (fun t => J t ∧ ¬ P t)
          (fun t k t' ht hk => ⟨hJ t k t' ht.1 hk, hlast t k t' ht.1 ht.2 hk⟩)
          ⟨hjm, hbad s l m hj hi hc hm⟩ hms
      exact ⟨fun h => absurd h hbroken.2, fun h => absurd h.1 hc⟩

/-- Where broken means broken for good, the end of a run tells about all of it. -/
theorem alongRun_iff_end {step : S → L → Option S} {J P : S → Prop}
    (hJ : ∀ s l s', J s → step s l = some s' → J s')
    (hlast : ∀ s l s', J s → ¬ P s → step s l = some s' → ¬ P s')
    {s s' : S} {ls : List L} (hj : J s) (he : exec step s ls = some s') :
    AlongRun step P s ls ↔ P s' := by
  refine ⟨fun h => h.last he, ?_⟩
  intro hend
  induction ls generalizing s with
  | nil =>
    obtain rfl : s = s' := Option.some.inj he
    exact hend
  | cons l ls ih =>
    obtain ⟨m, hm, hms⟩ := exec_cons_eq_some.mp he
    have hrest : AlongRun step P m ls := ih (hJ s l m hj hm) hms
    refine ⟨?_, ?_⟩
    · by_contra hbroken
      exact hlast s l m hj hbroken hm hrest.head
    · intro k hk
      obtain rfl : m = k := Option.some.inj (hm.symm.trans hk)
      exact hrest

/-- **Exactness step by step.**  `J` always holds.  If from a state with `P` a step
    leads to a state with `P` exactly when it meets `cond`, then `P` holds all along
    a run exactly when every step of the run meets `cond`. -/
theorem alongRun_iff_stepsMeet {step : S → L → Option S} {cond : S → L → Prop} {J P : S → Prop}
    (hJ : ∀ s l s', J s → step s l = some s' → J s')
    (hstep : ∀ s l s', J s → P s → step s l = some s' → (P s' ↔ cond s l))
    {s s' : S} {ls : List L} (hj : J s) (hs : P s) (he : exec step s ls = some s') :
    AlongRun step P s ls ↔ StepsMeet step cond s ls := by
  induction ls generalizing s with
  | nil => simp [AlongRun, StepsMeet, hs]
  | cons l ls ih =>
    obtain ⟨m, hm, hms⟩ := exec_cons_eq_some.mp he
    have hjm : J m := hJ s l m hj hm
    have hiff : P m ↔ cond s l := hstep s l m hj hs hm
    constructor
    · intro h
      have hpm : P m := (h.2 m hm).head
      refine ⟨hiff.mp hpm, fun k hk => ?_⟩
      obtain rfl : m = k := Option.some.inj (hm.symm.trans hk)
      exact (ih hjm hpm hms).mp (h.2 m hm)
    · intro h
      have hpm : P m := hiff.mpr h.1
      refine ⟨hs, fun k hk => ?_⟩
      obtain rfl : m = k := Option.some.inj (hm.symm.trans hk)
      exact (ih hjm hpm hms).mpr (h.2 m hm)

/-! ## Section 4: Two machines -/

/-- **Simulation.**  If from related states a step is enabled in one machine exactly when
    it is in the other, and leads to related states, then the same holds of the runs. -/
theorem exec_rel {T : Type*} {step : S → L → Option S} {step' : T → L → Option T}
    (p : L → Prop) (R : S → T → Prop)
    (hstep : ∀ s t l, p l → R s t → Option.Rel R (step s l) (step' t l))
    {s : S} {t : T} {ls : List L} (hls : ∀ l ∈ ls, p l) (h : R s t) :
    Option.Rel R (exec step s ls) (exec step' t ls) := by
  induction ls generalizing s t with
  | nil => exact .some h
  | cons l ls ih =>
    have hrel := hstep s t l (hls l (by simp)) h
    rw [exec_cons, exec_cons]
    cases hs : step s l with
    | none =>
      cases ht : step' t l with
      | none => exact .none
      | some t' =>
        rw [hs, ht] at hrel
        cases hrel
    | some s' =>
      cases ht : step' t l with
      | none =>
        rw [hs, ht] at hrel
        cases hrel
      | some t' =>
        rw [hs, ht] at hrel
        cases hrel with
        | some hnext => exact ih (fun k hk => hls k (by simp [hk])) hnext

/-! ## Section 5: Folds -/

/-- The progress rule for one list: where each of its elements can be processed and keeps
    the invariant, so can all of them, one after another. -/
theorem exists_foldlM (step : S → L → Option S) (s : S) (ls : List L) (Inv : List L → S → Prop)
    (hstep : ∀ tr l s, l ∈ ls → Inv tr s → ∃ s', step s l = some s' ∧ Inv (tr ++ [l]) s')
    (hs : Inv [] s) : ∃ s', ls.foldlM step s = some s' ∧ Inv ls s' := by
  suffices hgen : ∀ (done todo : List L) (s : S), (∀ l ∈ todo, l ∈ ls) → Inv done s →
      ∃ s', todo.foldlM step s = some s' ∧ Inv (done ++ todo) s' from
    hgen [] ls s (fun _ hl => hl) hs
  intro done todo
  induction todo generalizing done with
  | nil =>
    intro s _ hinv
    exact ⟨s, rfl, by rwa [List.append_nil]⟩
  | cons l todo ih =>
    intro s hmem hinv
    obtain ⟨m, hm, hnext⟩ := hstep done l s (hmem l (by simp)) hinv
    obtain ⟨s', hs', hlast⟩ := ih (done ++ [l]) m (fun k hk => hmem k (by simp [hk])) hnext
    refine ⟨s', ?_, ?_⟩
    · rw [List.foldlM_cons, hm]
      exact hs'
    · rwa [List.append_assoc] at hlast

end Runs
