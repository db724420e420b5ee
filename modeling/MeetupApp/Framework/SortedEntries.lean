import Mathlib.Data.List.Forall2

/-! # Entries in ascending key order

    A finite map kept as the list of its entries, strictly ascending under a
    comparator.  The comparator is any total preorder: two keys that compare
    as equal are one key of the map, whatever they look like.  Every lookup
    table that keeps its keys sorted, an array or a search tree, enumerates
    such a list, and its operations are the ones below.

    Storing under a key that is already there may keep the old spelling of the
    key or take the new one: `keepKey` says which. -/

namespace SortedEntries

variable {K V : Type} (cmp : K → K → Ordering)

/-! ## Section 1: The operations -/

/-- Each key is smaller than every later one. -/
def Ascending (es : List (K × V)) : Prop := es.Pairwise (fun a b => cmp a.1 b.1 = .lt)

/-- The value stored under `k`. -/
def lookup (k : K) : List (K × V) → Option V
  | [] => none
  | e :: es =>
    match cmp k e.1 with
    | .lt => none
    | .eq => some e.2
    | .gt => lookup k es

/-- Store `v` under `k`. -/
def put (keepKey : Bool) (k : K) (v : V) : List (K × V) → List (K × V)
  | [] => [(k, v)]
  | e :: es =>
    match cmp k e.1 with
    | .lt => (k, v) :: e :: es
    | .eq => (if keepKey then e.1 else k, v) :: es
    | .gt => e :: put keepKey k v es

/-- Remove the entry under `k`. -/
def erase (k : K) : List (K × V) → List (K × V)
  | [] => []
  | e :: es =>
    match cmp k e.1 with
    | .lt => e :: es
    | .eq => es
    | .gt => e :: erase k es

/-- The entries below `k`. -/
def below (k : K) (es : List (K × V)) : List (K × V) := es.filter (fun e => cmp e.1 k = .lt)

section cons
variable {cmp} {k : K} {e : K × V} {es : List (K × V)} {keepKey : Bool} {v : V}

theorem lookup_cons_lt (h : cmp k e.1 = .lt) : lookup cmp k (e :: es) = none := by
  simp [lookup, h]

theorem lookup_cons_eq (h : cmp k e.1 = .eq) : lookup cmp k (e :: es) = some e.2 := by
  simp [lookup, h]

theorem lookup_cons_gt (h : cmp k e.1 = .gt) :
    lookup cmp k (e :: es) = lookup cmp k es := by
  simp [lookup, h]

theorem put_cons_lt (h : cmp k e.1 = .lt) :
    put cmp keepKey k v (e :: es) = (k, v) :: e :: es := by
  simp [put, h]

theorem put_cons_eq (h : cmp k e.1 = .eq) :
    put cmp keepKey k v (e :: es) = (if keepKey then e.1 else k, v) :: es := by
  simp [put, h]

theorem put_cons_gt (h : cmp k e.1 = .gt) :
    put cmp keepKey k v (e :: es) = e :: put cmp keepKey k v es := by
  simp [put, h]

theorem erase_cons_lt (h : cmp k e.1 = .lt) : erase cmp k (e :: es) = e :: es := by
  simp [erase, h]

theorem erase_cons_eq (h : cmp k e.1 = .eq) : erase cmp k (e :: es) = es := by
  simp [erase, h]

theorem erase_cons_gt (h : cmp k e.1 = .gt) :
    erase cmp k (e :: es) = e :: erase cmp k es := by
  simp [erase, h]

/-- Where equal keys are the same, it makes no difference which of them is kept. -/
theorem put_keepKey [Std.LawfulEqCmp cmp] (keep keep' : Bool) :
    put cmp keep k v es = put cmp keep' k v es := by
  induction es with
  | nil => rfl
  | cons e es ih =>
    cases hcmp : cmp k e.1 with
    | lt => rw [put_cons_lt hcmp, put_cons_lt hcmp]
    | eq =>
      obtain rfl : k = e.1 := Std.LawfulEqCmp.eq_of_compare hcmp
      rw [put_cons_eq hcmp, put_cons_eq hcmp]
      cases keep <;> cases keep' <;> rfl
    | gt => rw [put_cons_gt hcmp, put_cons_gt hcmp, ih]

end cons

/-! ## Section 2: Splitting at an entry

    A search compares `k` with one entry and goes on to its left or to its
    right.  To the left nothing need be known about the entries passed over. -/

section split
variable {cmp} {k : K} {e : K × V} {keepKey : Bool} {v : V}

theorem lookup_append_lt (L R : List (K × V)) (h : cmp k e.1 = .lt) :
    lookup cmp k (L ++ e :: R) = lookup cmp k L := by
  induction L with
  | nil => simp [lookup, h]
  | cons a L ih =>
    rw [List.cons_append]
    cases hcmp : cmp k a.1 <;> simp [lookup, hcmp, ih]

theorem put_append_lt (L R : List (K × V)) (h : cmp k e.1 = .lt) :
    put cmp keepKey k v (L ++ e :: R) = put cmp keepKey k v L ++ e :: R := by
  induction L with
  | nil => simp [put, h]
  | cons a L ih =>
    rw [List.cons_append]
    cases hcmp : cmp k a.1 <;> simp [put, hcmp, ih]

theorem erase_append_lt (L R : List (K × V)) (h : cmp k e.1 = .lt) :
    erase cmp k (L ++ e :: R) = erase cmp k L ++ e :: R := by
  induction L with
  | nil => simp [erase, h]
  | cons a L ih =>
    rw [List.cons_append]
    cases hcmp : cmp k a.1 <;> simp [erase, hcmp, ih]

theorem lookup_append_gt {L : List (K × V)} (R : List (K × V))
    (h : ∀ a ∈ L, cmp k a.1 = .gt) : lookup cmp k (L ++ R) = lookup cmp k R := by
  induction L with
  | nil => rfl
  | cons a L ih =>
    rw [List.cons_append, lookup_cons_gt (h a (by simp)), ih (fun b hb => h b (by simp [hb]))]

theorem put_append_gt {L : List (K × V)} (R : List (K × V))
    (h : ∀ a ∈ L, cmp k a.1 = .gt) :
    put cmp keepKey k v (L ++ R) = L ++ put cmp keepKey k v R := by
  induction L with
  | nil => rfl
  | cons a L ih =>
    rw [List.cons_append, put_cons_gt (h a (by simp)), ih (fun b hb => h b (by simp [hb])),
      List.cons_append]

theorem erase_append_gt {L : List (K × V)} (R : List (K × V))
    (h : ∀ a ∈ L, cmp k a.1 = .gt) : erase cmp k (L ++ R) = L ++ erase cmp k R := by
  induction L with
  | nil => rfl
  | cons a L ih =>
    rw [List.cons_append, erase_cons_gt (h a (by simp)), ih (fun b hb => h b (by simp [hb])),
      List.cons_append]

end split

/-! ## Section 3: The order of the keys -/

section order
variable {cmp} {k : K} {e : K × V} {es L R : List (K × V)}

theorem ascending_nil : Ascending cmp ([] : List (K × V)) := List.Pairwise.nil

theorem ascending_cons :
    Ascending cmp (e :: es) ↔ (∀ a ∈ es, cmp e.1 a.1 = .lt) ∧ Ascending cmp es :=
  List.pairwise_cons

/-- What an ascending list says about one of its entries. -/
structure SplitAt (cmp : K → K → Ordering) (L : List (K × V)) (e : K × V)
    (R : List (K × V)) : Prop where
  left : Ascending cmp L
  right : Ascending cmp R
  below : ∀ a ∈ L, cmp a.1 e.1 = .lt
  above : ∀ a ∈ R, cmp e.1 a.1 = .lt
  across : ∀ a ∈ L, ∀ b ∈ R, cmp a.1 b.1 = .lt

theorem ascending_split : Ascending cmp (L ++ e :: R) ↔ SplitAt cmp L e R := by
  unfold Ascending
  rw [List.pairwise_append, List.pairwise_cons]
  constructor
  · intro ⟨hL, ⟨hR, hRR⟩, hLR⟩
    exact ⟨hL, hRR, fun a ha => hLR a ha e (by simp), hR,
      fun a ha b hb => hLR a ha b (by simp [hb])⟩
  · intro ⟨hL, hR, hb, ha, hx⟩
    refine ⟨hL, ⟨ha, hR⟩, ?_⟩
    intro a haL b hbR
    rcases List.mem_cons.mp hbR with rfl | hbR
    · exact hb a haL
    · exact hx a haL b hbR

theorem lookup_eq_none_of_lt (h : ∀ a ∈ es, cmp k a.1 = .lt) : lookup cmp k es = none := by
  cases es with
  | nil => rfl
  | cons a es => exact lookup_cons_lt (h a (by simp))

/-- There is nothing to remove for a key that is not found. -/
theorem erase_of_lookup (h : lookup cmp k es = none) : erase cmp k es = es := by
  induction es with
  | nil => rfl
  | cons a es ih =>
    cases hcmp : cmp k a.1 with
    | lt => exact erase_cons_lt hcmp
    | eq => rw [lookup_cons_eq hcmp] at h; cases h
    | gt =>
      rw [lookup_cons_gt hcmp] at h
      rw [erase_cons_gt hcmp, ih h]

/-- A stored value sits under a key equal to the one asked for. -/
theorem mem_of_lookup {v : V} (h : lookup cmp k es = some v) :
    ∃ a ∈ es, cmp k a.1 = .eq ∧ a.2 = v := by
  induction es with
  | nil => cases h
  | cons a es ih =>
    cases hcmp : cmp k a.1 with
    | lt => rw [lookup_cons_lt hcmp] at h; cases h
    | eq =>
      rw [lookup_cons_eq hcmp] at h
      exact ⟨a, by simp, hcmp, Option.some.inj h⟩
    | gt =>
      rw [lookup_cons_gt hcmp] at h
      obtain ⟨b, hb, hkb, hv⟩ := ih h
      exact ⟨b, by simp [hb], hkb, hv⟩

theorem mem_of_mem_erase {a : K × V} (h : a ∈ erase cmp k es) : a ∈ es := by
  induction es with
  | nil => exact h
  | cons e es ih =>
    cases hcmp : cmp k e.1 with
    | lt => rwa [erase_cons_lt hcmp] at h
    | eq =>
      rw [erase_cons_eq hcmp] at h
      simp [h]
    | gt =>
      rw [erase_cons_gt hcmp] at h
      rcases List.mem_cons.mp h with rfl | h
      · simp
      · simp [ih h]

theorem Ascending.erase (h : Ascending cmp es) : Ascending cmp (erase cmp k es) := by
  induction es with
  | nil => exact h
  | cons e es ih =>
    obtain ⟨hlt, hes⟩ := ascending_cons.mp h
    cases hcmp : cmp k e.1 with
    | lt => rwa [erase_cons_lt hcmp]
    | eq => rwa [erase_cons_eq hcmp]
    | gt =>
      rw [erase_cons_gt hcmp]
      exact ascending_cons.mpr ⟨fun a ha => hlt a (mem_of_mem_erase ha), ih hes⟩

/-- Storing under a new key adds one entry. -/
theorem put_perm {v : V} {keepKey : Bool} (h : lookup cmp k es = none) :
    (put cmp keepKey k v es).Perm ((k, v) :: es) := by
  induction es with
  | nil => exact .refl _
  | cons e es ih =>
    cases hcmp : cmp k e.1 with
    | lt => rw [put_cons_lt hcmp]
    | eq => rw [lookup_cons_eq hcmp] at h; cases h
    | gt =>
      rw [lookup_cons_gt hcmp] at h
      rw [put_cons_gt hcmp]
      exact ((ih h).cons e).trans (.swap _ _ _)

variable [Std.TransCmp cmp]

/-- A key not below an entry is above everything to the left of it. -/
theorem SplitAt.gt_left (h : SplitAt cmp L e R) (hk : cmp k e.1 ≠ .lt) :
    ∀ a ∈ L, cmp k a.1 = .gt := by
  intro a ha
  rw [Std.OrientedCmp.gt_iff_lt]
  have hle : (cmp e.1 k).isLE := by
    rw [← Std.OrientedCmp.isGE_eq_isLE]
    cases hcmp : cmp k e.1 <;> simp_all
  exact Std.TransCmp.lt_of_lt_of_isLE (h.below a ha) hle

/-- A key not above an entry is below everything to the right of it. -/
theorem SplitAt.lt_right (h : SplitAt cmp L e R) (hk : cmp k e.1 ≠ .gt) :
    ∀ a ∈ R, cmp k a.1 = .lt := by
  intro a ha
  have hle : (cmp k e.1).isLE := by cases hcmp : cmp k e.1 <;> simp_all
  exact Std.TransCmp.lt_of_isLE_of_lt hle (h.above a ha)

/-- In an ascending list every entry is found under its key. -/
theorem lookup_of_mem (h : Ascending cmp es) (he : e ∈ es) (hk : cmp k e.1 = .eq) :
    lookup cmp k es = some e.2 := by
  obtain ⟨L, R, rfl⟩ := List.append_of_mem he
  have hsplit := ascending_split.mp h
  rw [lookup_append_gt _ (hsplit.gt_left (by simp [hk])), lookup_cons_eq hk]

theorem below_of_gt (h : ∀ a ∈ es, cmp k a.1 = .gt) : below cmp k es = es := by
  apply List.filter_eq_self.mpr
  intro a ha
  simp [Std.OrientedCmp.lt_of_gt (h a ha)]

/-- Only the left part can be below a key that is not above the entry. -/
theorem below_append_lt (h : SplitAt cmp L e R) (hk : cmp k e.1 ≠ .gt) :
    below cmp k (L ++ e :: R) = below cmp k L := by
  unfold below
  have hR : (e :: R).filter (fun a => cmp a.1 k = .lt) = [] := by
    apply List.filter_eq_nil_iff.mpr
    intro a ha
    rcases List.mem_cons.mp ha with rfl | ha
    · intro hlt
      exact hk (Std.OrientedCmp.gt_of_lt (by simpa using hlt))
    · simp [Std.OrientedCmp.gt_of_lt (h.lt_right hk a ha)]
  rw [List.filter_append, hR, List.append_nil]

/-- The left part and the entry are below a key above the entry. -/
theorem below_append_gt (h : ∀ a ∈ L, cmp k a.1 = .gt) (hk : cmp k e.1 = .gt) :
    below cmp k (L ++ e :: R) = L ++ e :: below cmp k R := by
  have hL := below_of_gt h
  unfold below at *
  rw [List.filter_append, hL, List.filter_cons_of_pos (by simp [Std.OrientedCmp.lt_of_gt hk])]

end order

/-! ## Section 4: What the operations keep -/

section keep
variable {cmp} [Std.TransCmp cmp] {k : K} {v : V} {es : List (K × V)} {keepKey : Bool}

/-- Every key after storing was there before or is equal to the one stored. -/
theorem mem_put {a : K × V} (h : a ∈ put cmp keepKey k v es) :
    cmp k a.1 = .eq ∨ a ∈ es := by
  induction es with
  | nil =>
    obtain rfl := List.mem_singleton.mp h
    exact .inl Std.ReflCmp.compare_self
  | cons e es ih =>
    cases hcmp : cmp k e.1 with
    | lt =>
      rw [put_cons_lt hcmp] at h
      rcases List.mem_cons.mp h with rfl | h
      · exact .inl Std.ReflCmp.compare_self
      · exact .inr h
    | eq =>
      rw [put_cons_eq hcmp] at h
      rcases List.mem_cons.mp h with rfl | h
      · left
        cases keepKey
        · exact Std.ReflCmp.compare_self
        · exact hcmp
      · exact .inr (by simp [h])
    | gt =>
      rw [put_cons_gt hcmp] at h
      rcases List.mem_cons.mp h with rfl | h
      · exact .inr (by simp)
      · rcases ih h with h | h
        · exact .inl h
        · exact .inr (by simp [h])

theorem Ascending.put (h : Ascending cmp es) : Ascending cmp (put cmp keepKey k v es) := by
  induction es with
  | nil => exact ascending_cons.mpr ⟨by simp, ascending_nil⟩
  | cons e es ih =>
    obtain ⟨hlt, hes⟩ := ascending_cons.mp h
    cases hcmp : cmp k e.1 with
    | lt =>
      rw [put_cons_lt hcmp]
      refine ascending_cons.mpr ⟨?_, h⟩
      intro a ha
      rcases List.mem_cons.mp ha with rfl | ha
      · exact hcmp
      · exact Std.TransCmp.lt_trans hcmp (hlt a ha)
    | eq =>
      rw [put_cons_eq hcmp]
      refine ascending_cons.mpr ⟨?_, hes⟩
      intro a ha
      cases keepKey
      · exact Std.TransCmp.lt_of_eq_of_lt hcmp (hlt a ha)
      · exact hlt a ha
    | gt =>
      rw [put_cons_gt hcmp]
      refine ascending_cons.mpr ⟨?_, ih hes⟩
      intro a ha
      rcases mem_put ha with hka | ha
      · exact Std.TransCmp.lt_of_lt_of_eq (Std.OrientedCmp.lt_of_gt hcmp) hka
      · exact hlt a ha

/-- Storing answers for the keys equal to the one stored, and for no other. -/
theorem lookup_put (h : Ascending cmp es) (k' : K) :
    lookup cmp k' (put cmp keepKey k v es)
      = if cmp k' k = .eq then some v else lookup cmp k' es := by
  induction es with
  | nil => cases hcmp : cmp k' k <;> simp [put, lookup, hcmp]
  | cons e es ih =>
    obtain ⟨hlt, hes⟩ := ascending_cons.mp h
    cases hcmp : cmp k e.1 with
    | lt =>
      rw [put_cons_lt hcmp]
      cases hk' : cmp k' k with
      | lt =>
        have hk'e := Std.TransCmp.lt_trans hk' hcmp
        simp [lookup, hk', hk'e]
      | eq => simp [lookup, hk']
      | gt => simp [lookup, hk']
    | eq =>
      rw [put_cons_eq hcmp]
      have hkey : cmp k' (if keepKey then e.1 else k) = cmp k' k := by
        cases keepKey
        · rfl
        · exact (Std.TransCmp.congr_right hcmp).symm
      have he : cmp k' e.1 = cmp k' k := (Std.TransCmp.congr_right hcmp).symm
      cases hk' : cmp k' k <;> simp [lookup, hkey, he, hk']
    | gt =>
      rw [put_cons_gt hcmp]
      cases hk' : cmp k' e.1 with
      | lt =>
        have : cmp k' k = .lt :=
          Std.TransCmp.lt_trans hk' (Std.OrientedCmp.lt_of_gt hcmp)
        simp [lookup, hk', this]
      | eq =>
        have : cmp k' k = .lt :=
          Std.TransCmp.lt_of_eq_of_lt hk' (Std.OrientedCmp.lt_of_gt hcmp)
        simp [lookup, hk', this]
      | gt =>
        rw [lookup_cons_gt hk', lookup_cons_gt hk']
        exact ih hes

/-- Removing answers for the keys equal to the one removed, and for no other. -/
theorem lookup_erase (h : Ascending cmp es) (k' : K) :
    lookup cmp k' (erase cmp k es) = if cmp k' k = .eq then none else lookup cmp k' es := by
  induction es with
  | nil => simp [erase, lookup]
  | cons e es ih =>
    obtain ⟨hlt, hes⟩ := ascending_cons.mp h
    cases hcmp : cmp k e.1 with
    | lt =>
      rw [erase_cons_lt hcmp]
      cases hk' : cmp k' k with
      | lt => simp
      | eq =>
        have := Std.TransCmp.lt_of_eq_of_lt hk' hcmp
        simp [lookup, this]
      | gt => simp
    | eq =>
      rw [erase_cons_eq hcmp]
      have he : cmp k' e.1 = cmp k' k := (Std.TransCmp.congr_right hcmp).symm
      have hnone : cmp k' k ≠ .gt → lookup cmp k' es = none := by
        intro hne
        apply lookup_eq_none_of_lt
        intro a ha
        have hle : (cmp k' e.1).isLE := by rw [he]; cases hk : cmp k' k <;> simp_all
        exact Std.TransCmp.lt_of_isLE_of_lt hle (hlt a ha)
      cases hk' : cmp k' k with
      | lt => simp [lookup, he, hk', hnone]
      | eq => simp [hk', hnone]
      | gt => simp [lookup, he, hk']
    | gt =>
      rw [erase_cons_gt hcmp]
      cases hk' : cmp k' e.1 with
      | lt =>
        have : cmp k' k = .lt :=
          Std.TransCmp.lt_trans hk' (Std.OrientedCmp.lt_of_gt hcmp)
        simp [lookup, hk', this]
      | eq =>
        have : cmp k' k = .lt :=
          Std.TransCmp.lt_of_eq_of_lt hk' (Std.OrientedCmp.lt_of_gt hcmp)
        simp [lookup, hk', this]
      | gt =>
        rw [lookup_cons_gt hk', lookup_cons_gt hk']
        exact ih hes

/-- An order of the entries in which the keys ascend is unique. -/
theorem Ascending.eq_of_perm {es' : List (K × V)} (h : Ascending cmp es)
    (h' : Ascending cmp es') (hperm : es.Perm es') : es = es' := by
  refine hperm.eq_of_pairwise ?_ h h'
  intro a b _ _ hab hba
  simp [Std.OrientedCmp.gt_of_lt hab] at hba

theorem Ascending.nodup (h : Ascending cmp es) : es.Nodup := by
  refine h.imp ?_
  rintro a b hlt rfl
  have hself : cmp a.1 a.1 = .eq := Std.ReflCmp.compare_self
  rw [hself] at hlt
  cases hlt

/-- Sorted entries are determined by their members. -/
theorem Ascending.ext_mem {es' : List (K × V)} (h : Ascending cmp es)
    (h' : Ascending cmp es') (hmem : ∀ e, e ∈ es ↔ e ∈ es') : es = es' :=
  h.eq_of_perm h' ((List.perm_ext_iff_of_nodup h.nodup h'.nodup).mpr hmem)

/-- The head of an ascending list is found under its own key only. -/
theorem Ascending.lookup_cons [Std.LawfulEqCmp cmp] (h : Ascending cmp (e :: es)) :
    lookup cmp e.1 es = none ∧ ∀ k, k ≠ e.1 → lookup cmp k (e :: es) = lookup cmp k es := by
  obtain ⟨hlt, -⟩ := ascending_cons.mp h
  constructor
  · exact lookup_eq_none_of_lt hlt
  · intro k hk
    cases hcmp : cmp k e.1 with
    | lt =>
      rw [lookup_cons_lt hcmp, lookup_eq_none_of_lt]
      intro a ha
      exact Std.TransCmp.lt_trans hcmp (hlt a ha)
    | eq => exact absurd (Std.LawfulEqCmp.eq_of_compare hcmp) hk
    | gt => exact lookup_cons_gt hcmp

/-- What holds of all values is what holds of everything that is found. -/
theorem forall_values_iff (h : Ascending cmp es) {p : V → Prop} :
    (∀ e ∈ es, p e.2) ↔ ∀ k v, lookup cmp k es = some v → p v := by
  constructor
  · intro hall k v hv
    obtain ⟨e, he, -, rfl⟩ := mem_of_lookup hv
    exact hall e he
  · intro hall e he
    exact hall e.1 e.2 (lookup_of_mem h he Std.ReflCmp.compare_self)

theorem mem_iff_lookup [Std.LawfulEqCmp cmp] (h : Ascending cmp es) :
    e ∈ es ↔ lookup cmp e.1 es = some e.2 := by
  constructor
  · intro he
    exact lookup_of_mem h he Std.ReflCmp.compare_self
  · intro hlookup
    obtain ⟨a, ha, hk, hv⟩ := mem_of_lookup hlookup
    have hkey : e.1 = a.1 := Std.LawfulEqCmp.eq_of_compare hk
    rwa [show e = a from Prod.ext hkey hv.symm]

theorem mem_put_iff [Std.LawfulEqCmp cmp] {e : K × V} (h : Ascending cmp es) :
    e ∈ put cmp keepKey k v es ↔ e = (k, v) ∨ (e.1 ≠ k ∧ e ∈ es) := by
  rw [mem_iff_lookup h.put, mem_iff_lookup h, lookup_put h]
  by_cases hk : e.1 = k
  · rw [if_pos (by rw [hk]; exact Std.ReflCmp.compare_self)]
    simp [hk, Prod.ext_iff, eq_comm]
  · rw [if_neg (fun heq => hk (Std.LawfulEqCmp.eq_of_compare heq))]
    simp [hk, Prod.ext_iff]

/-- An ascending list is determined by what is found in it. -/
theorem Ascending.ext_lookup [Std.LawfulEqCmp cmp] {es' : List (K × V)} (h : Ascending cmp es)
    (h' : Ascending cmp es') (hlookup : ∀ k, lookup cmp k es = lookup cmp k es') : es = es' := by
  refine h.ext_mem h' (fun e => ?_)
  rw [mem_iff_lookup h, mem_iff_lookup h', hlookup]

end keep

end SortedEntries
