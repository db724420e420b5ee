import Mathlib.Data.Rat.Defs
import Mathlib.Data.List.Forall2
import Mathlib.Data.Option.Basic

/-! # Values of the Firebase store

    What a snapshot hands to the app (`Value`), the Swift casts the app
    applies to it, and what the app writes (`Field`, `Object`).

    A snapshot of an absent node has the value `nil`, here `none`.  A node
    without children does not exist, so an empty array written by the app is
    read back as `nil`: `nodeFrom` is the normalisation that
    `FSnapshotUtilities.nodeFrom` performs on the way in. -/

namespace MeetupApp.Firebase

/-- A loader decodes child by child, and fails if one child does. -/
theorem mapM_eq_some_iff {α β : Type} {f : α → Option β} {xs : List α} {ys : List β} :
    xs.mapM f = some ys ↔ List.Forall₂ (fun x y => f x = some y) xs ys := by
  induction xs generalizing ys with
  | nil => simp [eq_comm]
  | cons x xs ih =>
    simp only [List.mapM_cons, Option.pure_def, Option.bind_eq_bind, Option.bind_eq_some_iff,
      List.forall₂_cons_left_iff, Option.some.injEq]
    constructor
    · rintro ⟨y, hy, ys', hys', rfl⟩
      exact ⟨y, ys', hy, ih.mp hys', rfl⟩
    · rintro ⟨y, ys', hy, hys', rfl⟩
      exact ⟨y, hy, ys', ih.mpr hys', rfl⟩

/-- If every child can be decoded, so can the list. -/
theorem mapM_isSome {α β : Type} {f : α → Option β} {xs : List α}
    (h : ∀ x ∈ xs, ∃ y, f x = some y) : ∃ ys, xs.mapM f = some ys := by
  induction xs with
  | nil => exact ⟨[], rfl⟩
  | cons x xs ih =>
    obtain ⟨y, hy⟩ := h x (by simp)
    obtain ⟨ys, hys⟩ := ih (fun z hz => h z (by simp [hz]))
    exact ⟨y :: ys, by simp [hy, hys]⟩

/-! ## Section 1: What is read -/

/-- The value of a snapshot.  A node whose children are numbered from 0 is
    handed over as an array, which therefore has at least one element.  A number
    is the exact rational that its `Double` stands for: the app reads numbers and
    computes nothing with them, so nothing is rounded. -/
inductive Value where
  | string (s : String)
  | number (x : Rat)
  | bool (b : Bool)
  | array (head : Value) (tail : List Value)
  | dict (children : List (String × Value))

namespace Value

/-- `as? String` -/
def asString : Value → Option String
  | .string s => some s
  | _ => none

/-- `as? Double` of a number that a `Double` represents; a boolean is bridged as 1 or 0. -/
def asDouble : Value → Option Rat
  | .number x => some x
  | .bool b => some (if b then 1 else 0)
  | _ => none

/-- `as? [String]` -/
def asStrings : Value → Option (List String)
  | .array head tail => (head :: tail).mapM asString
  | _ => none

/-- `as? [String: AnyObject]` -/
def asDictionary : Value → Option (List (String × Value))
  | .dict children => some children
  | _ => none

/-- An array of strings. -/
def ofStrings (x : String) (xs : List String) : Value :=
  .array (.string x) (xs.map .string)

theorem mapM_asString_map (xs : List String) :
    (xs.map Value.string).mapM asString = some xs := by
  induction xs with
  | nil => rfl
  | cons x xs ih => simp [ih, asString]

@[simp] theorem asStrings_ofStrings (x : String) (xs : List String) :
    (ofStrings x xs).asStrings = some (x :: xs) :=
  mapM_asString_map (x :: xs)

theorem eq_map_of_mapM_asString {vs : List Value} {xs : List String}
    (h : vs.mapM asString = some xs) : vs = xs.map .string := by
  have hdecoded := mapM_eq_some_iff.mp h
  clear h
  induction hdecoded with
  | nil => rfl
  | @cons v x vs xs hv _ ih =>
    rw [ih, List.map_cons]
    cases v <;> simp_all [asString]

/-- The cast to `[String]` succeeds on arrays of strings only, and loses nothing. -/
theorem asStrings_eq_some {v : Value} {xs : List String} :
    v.asStrings = some xs ↔ ∃ y ys, xs = y :: ys ∧ v = ofStrings y ys := by
  constructor
  · intro h
    cases v with
    | array head tail =>
      have hmap := eq_map_of_mapM_asString h
      cases xs with
      | nil => simp at hmap
      | cons y ys =>
        simp only [List.map_cons, List.cons.injEq] at hmap
        exact ⟨y, ys, rfl, by rw [ofStrings, hmap.1, hmap.2]⟩
    | _ => simp [asStrings] at h
  · rintro ⟨y, ys, rfl, rfl⟩
    simp

end Value

/-- `object?["name"]` -/
def child (object : Option (List (String × Value))) (name : String) : Option Value :=
  object.bind (·.lookup name)

/-- `(snapshot.value as? [String: AnyObject])?["name"]` -/
def field (value : Option Value) (name : String) : Option Value :=
  child (value.bind (·.asDictionary)) name

@[simp] theorem field_none (name : String) : field none name = none := rfl

@[simp] theorem field_dict (children : List (String × Value)) (name : String) :
    field (some (.dict children)) name = children.lookup name := rfl

/-- `value as! String` and `value as? String` on an optional value. -/
def castString (value : Option Value) : Option String := value.bind (·.asString)

/-- `value as! Double` on an optional value, with the rational for the `Double`. -/
def castDouble (value : Option Value) : Option Rat := value.bind (·.asDouble)

/-- `value as! [String]` and `value as? [String]` on an optional value. -/
def castStrings (value : Option Value) : Option (List String) := value.bind (·.asStrings)

theorem castString_eq_some {v : Option Value} {s : String} :
    castString v = some s ↔ v = some (.string s) := by
  cases v with
  | none => simp [castString]
  | some v => cases v <;> simp [castString, Value.asString]

/-- A list of ticket codes as the database holds it; an absent node counts as empty. -/
def codes (value : Option Value) : List String :=
  (castStrings value).getD []

@[simp] theorem codes_none : codes none = [] := rfl

@[simp] theorem codes_ofStrings (x : String) (xs : List String) :
    codes (some (.ofStrings x xs)) = x :: xs := by
  simp [codes, castStrings]

/-! ## Section 2: What is written -/

/-- The values this app puts under a key of a record: strings and string arrays. -/
inductive Field where
  | string (s : String)
  | strings (xs : List String)

/-- A dictionary literal of the source, in its order. -/
abbrev Object := List (String × Field)

/-- The node of one field; an empty array has no node. -/
def Field.node : Field → Option Value
  | .string s => some (.string s)
  | .strings [] => none
  | .strings (x :: xs) => some (.ofStrings x xs)

@[simp] theorem Field.node_string (s : String) : (Field.string s).node = some (.string s) := rfl

/-- An array written and read back: the same codes, the empty list included. -/
@[simp] theorem codes_node_strings (xs : List String) : codes (Field.strings xs).node = xs := by
  cases xs <;> simp [Field.node]

/-- The decoder's cast succeeds on what was written exactly when it was not empty. -/
theorem castStrings_node_strings (xs : List String) :
    castStrings (Field.strings xs).node = if xs = [] then none else some xs := by
  cases xs <;> simp [Field.node, castStrings]

/-- Casting to `[String]` loses nothing: the value is what writing the list stores. -/
theorem eq_node_of_castStrings {v : Option Value} {xs : List String}
    (h : castStrings v = some xs) : v = (Field.strings xs).node := by
  rcases Option.bind_eq_some_iff.mp h with ⟨w, rfl, hw⟩
  rcases Value.asStrings_eq_some.mp hw with ⟨y, ys, rfl, rfl⟩
  rfl

theorem codes_of_castStrings {v : Option Value} {xs : List String}
    (h : castStrings v = some xs) : codes v = xs := by
  rw [codes, h]
  rfl

/-- The node of a dictionary literal: its non-empty children, and no node when
    there are none (`FSnapshotUtilities.nodeFrom`). -/
def nodeFrom (object : Object) : Option Value :=
  match object.filterMap (fun f => f.2.node.map (f.1, ·)) with
  | [] => none
  | children => some (.dict children)

/-- The children stored are those of the non-empty fields. -/
theorem field_nodeFrom (object : Object) (name : String) :
    field (nodeFrom object) name
      = (object.filterMap (fun f => f.2.node.map (f.1, ·))).lookup name := by
  unfold nodeFrom
  split
  · next h => simp [h]
  · rfl

end MeetupApp.Firebase
