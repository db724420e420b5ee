import Mathlib.Data.List.Infix
import MeetupApp.Firebase.Key

/-! # Core/Utilities/FPath.m

    A path is the list of its pieces.  It is read from a string by splitting at
    the slashes and dropping what is empty, so a slash too many is not seen.

    `updateChildValues` rejects two paths of which one contains the other.  It
    sorts the paths and compares neighbours only: enough, because in the order of
    the paths nothing but descendants stands between an ancestor and its
    descendant.  The order is that of the keys, so the argument needs keys that
    only compare as equal when they are. -/

namespace MeetupApp.Firebase

/-- `FPath`, as the pieces from `pieceNum` on. -/
abbrev FPath (K : Type) := List K

namespace FPath

/-! ## Section 1: Pieces -/

section pieces
variable {K : Type} [DecidableEq K]

/-- `child:` -/
def child (path childPathObj : FPath K) : FPath K := path ++ childPathObj

/-- `relativePathFrom:to:`; the exception is `none`. -/
def relativePathFrom : FPath K → FPath K → Option (FPath K)
  | [], inner => some inner
  | outerFront :: outer, inner =>
    if inner.head? = some outerFront then relativePathFrom outer inner.tail else none

/-- The loop of `contains:`. -/
def containsLoop : FPath K → FPath K → Bool
  | [], _ => true
  -- the lengths were compared before the loop
  | _ :: _, [] => false
  | thisSeg :: path, otherSeg :: other =>
    if thisSeg ≠ otherSeg then false else containsLoop path other

/-- `contains:` -/
def contains (path other : FPath K) : Bool :=
  if path.length > other.length then false else containsLoop path other

theorem containsLoop_iff {path other : FPath K} : containsLoop path other ↔ path <+: other := by
  induction path generalizing other with
  | nil => simp [containsLoop]
  | cons k path ih =>
    cases other with
    | nil => simp [containsLoop]
    | cons k' other =>
      rw [containsLoop, List.cons_prefix_cons, ← ih]
      split <;> simp_all

/-- A path contains those it is an initial part of. -/
theorem contains_iff {path other : FPath K} : path.contains other ↔ path <+: other := by
  rw [contains]
  split
  · next hlonger =>
    constructor
    · intro h
      cases h
    · intro h
      have hle := h.length_le
      omega
  · exact containsLoop_iff

/-- Neither of two paths contains the other. -/
def Apart (path other : FPath K) : Prop := ¬ path <+: other ∧ ¬ other <+: path

omit [DecidableEq K] in
theorem Apart.symm {path other : FPath K} (h : Apart path other) : Apart other path :=
  ⟨h.2, h.1⟩

end pieces

/-! ## Section 2: Text -/

/-- What the loop of `initWith:` keeps of a split string; 47 is the slash. -/
def piecesOf (string : NSString) : FPath NSString :=
  (string.splitOn 47).filter (fun piece => piece.length > 0)

/-- `pathWithString:` -/
def pathWithString (string : NSString) : FPath NSString := piecesOf string

/-- `wireFormat` -/
def wireFormat (path : FPath NSString) : NSString :=
  if path = [] then [47] else [47].intercalate path

/-- What `initWith:` makes sure of. -/
def WellFormed (path : FPath NSString) : Prop := ∀ piece ∈ path, piece ≠ [] ∧ 47 ∉ piece

theorem wellFormed_pathWithString (string : NSString) : WellFormed (pathWithString string) := by
  intro piece hpiece
  obtain ⟨hsplit, hlength⟩ := List.mem_filter.mp hpiece
  have hne : piece ≠ [] := by
    rintro rfl
    simp at hlength
  refine ⟨hne, ?_⟩
  have hall : ∀ (s : NSString), ∀ q ∈ s.splitOn 47, 47 ∉ q := by
    intro s
    induction s with
    | nil => simp [List.splitOn_nil]
    | cons c s ih =>
      intro q hq
      rw [List.splitOn_cons_eq_if_modifyHead] at hq
      split at hq
      · rcases List.mem_cons.mp hq with rfl | hq
        · simp
        · exact ih q hq
      · next hc =>
        cases hs : s.splitOn 47 with
        | nil => exact absurd hs (List.splitOn_ne_nil 47 s)
        | cons h t =>
          rw [hs] at hq ih
          rcases List.mem_cons.mp hq with rfl | hq
          · have hh := ih h (by simp)
            simp only [beq_iff_eq] at hc
            simp [hh, Ne.symm hc]
          · exact ih q (by simp [hq])
  exact hall string piece hsplit

/-- A path is written and read back unchanged exactly when it is one that can be read. -/
theorem pathWithString_wireFormat (path : FPath NSString) :
    pathWithString path.wireFormat = path ↔ WellFormed path := by
  constructor
  · intro h
    rw [← h]
    exact wellFormed_pathWithString _
  · intro h
    rw [wireFormat]
    split
    · next hempty =>
      subst hempty
      rfl
    · next hne =>
      rw [pathWithString, piecesOf, List.splitOn_intercalate 47 (fun p hp => (h p hp).2) hne]
      rw [List.filter_eq_self]
      intro piece hpiece
      simpa using List.length_pos_iff.mpr (h piece hpiece).1

/-! ## Section 3: The order of the paths -/

/-- `compareKey:toKey:` of two pieces. -/
def compareName (a b : NSString) : Ordering := compareKey (.name a) (.name b)

instance transCmp_compareName : Std.TransCmp compareName where
  eq_swap := transCmp_compareKey.eq_swap
  isLE_trans := transCmp_compareKey.isLE_trans

/-- The loop of `compare:`: the first pieces that do not compare as equal decide. -/
def compareLoop : FPath NSString → FPath NSString → Ordering
  | a :: path, b :: other => (compareName a b).then (compareLoop path other)
  | _, _ => .eq

/-- `compare:` -/
def compare (path other : FPath NSString) : Ordering :=
  match compareLoop path other with
  | .eq =>
    if path.length < other.length then .lt
    else if other.length < path.length then .gt
    else .eq
  | comparison => comparison

/-- The order is lexicographic in the order of the keys. -/
theorem compare_eq_compareLex (path other : FPath NSString) :
    path.compare other = List.compareLex compareName path other := by
  induction path generalizing other with
  | nil =>
    cases other <;>
      simp [compare, compareLoop, List.compareLex_nil_nil, List.compareLex_nil_cons]
  | cons a path ih =>
    cases other with
    | nil => simp [compare, compareLoop, List.compareLex_cons_nil]
    | cons b other =>
      rw [List.compareLex_cons_cons, ← ih, compare, compareLoop]
      cases compareName a b <;> simp [compare]

instance transCmp_compare : Std.TransCmp compare := by
  have h : compare = List.compareLex compareName := by
    funext path other
    exact compare_eq_compareLex path other
  rw [h]
  infer_instance

/-- Descendants do not come before their ancestors. -/
theorem eq_nil_of_append_isLE {path rest : FPath NSString}
    (h : ((path ++ rest).compare path).isLE) : rest = [] := by
  rw [compare_eq_compareLex] at h
  induction path with
  | nil => cases rest <;> simp_all [List.compareLex_cons_nil]
  | cons a path ih =>
    have hself : compareName a a = .eq := Std.ReflCmp.compare_self
    rw [List.cons_append, List.compareLex_cons_cons, hself] at h
    exact ih h

/-- Between a path and one of its descendants there are descendants of the path only,
    if the pieces that compare as equal are equal. -/
theorem contains_of_between {path middle other : FPath NSString}
    (hpieces : ∀ a ∈ path, ∀ b ∈ middle, compareName a b = .eq → a = b)
    (hfirst : (path.compare middle).isLE) (hsecond : (middle.compare other).isLE)
    (hcontained : path <+: other) : path <+: middle := by
  rw [compare_eq_compareLex] at hfirst hsecond
  induction path generalizing middle other with
  | nil => exact List.nil_prefix
  | cons a path ih =>
    obtain ⟨rest, rfl⟩ := hcontained
    cases middle with
    | nil => simp [List.compareLex_cons_nil] at hfirst
    | cons b middle =>
      rw [List.compareLex_cons_cons] at hfirst
      have hswap : compareName b a = (compareName a b).swap := Std.OrientedCmp.eq_swap
      rw [List.cons_append, List.compareLex_cons_cons, hswap] at hsecond
      -- The first pieces are in order both ways.
      cases hab : compareName a b with
      | lt => simp [hab] at hsecond
      | gt => simp [hab] at hfirst
      | eq =>
        obtain rfl := hpieces a (by simp) b (by simp) hab
        simp only [hab, Ordering.swap_eq] at hfirst hsecond
        rw [List.cons_prefix_cons]
        refine ⟨rfl, ih ?_ hfirst hsecond (List.prefix_append _ _)⟩
        intro x hx y hy
        exact hpieces x (by simp [hx]) y (by simp [hy])

/-! ## Section 4: The paths of an update -/

/-- The loop of `compoundWriteFromDictionary:` over the sorted paths; its exception is
    `false`. -/
def noneContainsNext : List (FPath NSString) → Bool
  | prevPath :: path :: rest =>
    if prevPath.contains path then false else noneContainsNext (path :: rest)
  | _ => true

/-- The check that the update paths are not descendants of each other. -/
def checkUpdatePaths (updatePaths : List (FPath NSString)) : Bool :=
  noneContainsNext (updatePaths.mergeSort (fun left right => (left.compare right).isLE))

/-- On sorted paths the comparison of neighbours is a comparison of all. -/
theorem pairwise_apart_of_noneContainsNext {paths : List (FPath NSString)}
    (hsorted : paths.Pairwise (fun p q => (p.compare q).isLE))
    (hpieces : ∀ p ∈ paths, ∀ q ∈ paths, ∀ a ∈ p, ∀ b ∈ q, compareName a b = .eq → a = b)
    (hcheck : noneContainsNext paths) : paths.Pairwise Apart := by
  induction paths with
  | nil => exact List.Pairwise.nil
  | cons x rest ih =>
    obtain ⟨hx, hrest⟩ := List.pairwise_cons.mp hsorted
    refine List.pairwise_cons.mpr ⟨?_, ih hrest ?_ ?_⟩
    · intro z hz
      have hnot : ¬ x <+: z := by
        intro hcontained
        cases rest with
        | nil => cases hz
        | cons y rest =>
          have hxy : x <+: y := by
            refine contains_of_between (hpieces x (by simp) y (by simp)) (hx y (by simp)) ?_
              hcontained
            rcases List.mem_cons.mp hz with rfl | hz
            · simp [Std.ReflCmp.compare_self]
            · exact (List.pairwise_cons.mp hrest).1 z hz
          rw [noneContainsNext, if_pos (contains_iff.mpr hxy)] at hcheck
          cases hcheck
      refine ⟨hnot, ?_⟩
      rintro ⟨s, rfl⟩
      obtain rfl := eq_nil_of_append_isLE (hx z hz)
      exact hnot (by simp)
    · intro p hp q hq
      exact hpieces p (by simp [hp]) q (by simp [hq])
    · cases rest with
      | nil => rfl
      | cons y rest =>
        rw [noneContainsNext] at hcheck
        split at hcheck
        · cases hcheck
        · exact hcheck

theorem noneContainsNext_of_pairwise_apart {paths : List (FPath NSString)}
    (h : paths.Pairwise Apart) : noneContainsNext paths := by
  induction paths with
  | nil => rfl
  | cons x rest ih =>
    obtain ⟨hx, hrest⟩ := List.pairwise_cons.mp h
    cases rest with
    | nil => rfl
    | cons y rest =>
      have hxy : ¬ x.contains y := fun hcon => (hx y (by simp)).1 (contains_iff.mp hcon)
      rw [noneContainsNext, if_neg hxy]
      exact ih hrest

/-- The check passes exactly the updates in which no path contains another, if no two
    pieces are different spellings of zero. -/
theorem checkUpdatePaths_iff (updatePaths : List (FPath NSString))
    (hzero : ∀ p ∈ updatePaths, ∀ q ∈ updatePaths, ∀ a ∈ p, ∀ b ∈ q,
      ¬ ZeroSpellings (.name a) (.name b)) :
    checkUpdatePaths updatePaths ↔ updatePaths.Pairwise Apart := by
  have hperm := updatePaths.mergeSort_perm (fun left right => (left.compare right).isLE)
  rw [← hperm.pairwise_iff Apart.symm]
  constructor
  · intro hcheck
    refine pairwise_apart_of_noneContainsNext ?_ ?_ hcheck
    · refine List.pairwise_mergeSort (fun a b c => Std.TransCmp.isLE_trans) ?_ updatePaths
      intro a b
      have hswap : b.compare a = (a.compare b).swap := Std.OrientedCmp.eq_swap
      rw [hswap]
      cases a.compare b <;> rfl
    · intro p hp q hq a ha b hb heq
      rw [hperm.mem_iff] at hp hq
      rcases (compareKey_eq_iff _ _).mp heq with hsame | hspell
      · exact FKey.name.inj hsame
      · exact absurd hspell (hzero p hp q hq a ha b hb)
  · exact noneContainsNext_of_pairwise_apart

/-- The paths `a`, `b/c` and `a/b`. -/
theorem checkUpdatePaths_nested :
    checkUpdatePaths [[[97]], [[98], [99]], [[97], [98]]] = false := by
  rw [← Bool.not_eq_true, checkUpdatePaths_iff]
  · intro h
    have hapart := (List.pairwise_cons.mp h).1 [[97], [98]] (by simp)
    exact hapart.1 ⟨[[98]], rfl⟩
  · intro p hp q hq a ha b hb hzero
    have hone : a.length = 1 := by
      have hall : ∀ p ∈ [[[97]], [[98], [99]], [[97], [98]]], ∀ a ∈ (p : FPath NSString),
          a.length = 1 := by decide
      exact hall p hp a ha
    -- A spelling of zero has at least two characters.
    obtain ⟨n, -, ⟨h, -⟩ | ⟨-, h⟩⟩ := hzero
    · rw [FKey.name.inj h, length_zeros] at hone
      omega
    · rw [FKey.name.inj h, List.length_cons, length_zeros] at hone
      omega

/-- With both spellings the path `-0/a` is sorted between `00` and `00/b`, and an update
    of all three goes through. -/
theorem noneContainsNext_zeros :
    noneContainsNext [[[48, 48]], [[45, 48], [97]], [[48, 48], [98]]]
      ∧ [[[48, 48]], [[45, 48], [97]], [[48, 48], [98]]].Pairwise
          (fun p q => (compare p q).isLE)
      ∧ ¬ Apart [[48, 48]] [[48, 48], [98]] := by
  refine ⟨by decide, by decide, ?_⟩
  intro h
  exact h.1 ⟨[[98]], rfl⟩

end FPath

end MeetupApp.Firebase
