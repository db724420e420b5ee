import MeetupApp.Firebase.LLRBNode

/-! # The red-black invariant

    `check` accepts exactly the trees that are `Balanced`: no red right child,
    no red child of a red node, and as many black nodes on every path.
    Insertion may leave a red node with a red left child, which the parent's
    `fixUp` repairs; removal prepares every node it enters so that the node or
    its left child is red, and then never has to repair upwards. -/

namespace MeetupApp.Firebase

open SortedEntries

/-- The other color. -/
def FLLRBColor.opposite : FLLRBColor → FLLRBColor
  | .red => .black
  | .black => .red

namespace FLLRBNode

variable {K V : Type}

/-! ## Section 1: Balanced trees -/

/-- A tree of the given root color and black height that `check` accepts. -/
inductive Balanced : FLLRBColor → Nat → FLLRBNode K V → Prop where
  | empty : Balanced .black 0 emptyNode
  | red {h : Nat} {l r : FLLRBNode K V} (k : K) (v : V) (hl : Balanced .black h l)
      (hr : Balanced .black h r) : Balanced .red h (valueNode k v .red l r)
  | black {h : Nat} {c : FLLRBColor} {l r : FLLRBNode K V} (k : K) (v : V)
      (hl : Balanced c h l) (hr : Balanced .black h r) :
      Balanced .black (h + 1) (valueNode k v .black l r)

@[simp] theorem isRed_emptyNode : (emptyNode : FLLRBNode K V).isRed = false := rfl

@[simp] theorem isRed_red (k : K) (v : V) (l r : FLLRBNode K V) :
    (valueNode k v .red l r).isRed = true := rfl

@[simp] theorem isRed_black (k : K) (v : V) (l r : FLLRBNode K V) :
    (valueNode k v .black l r).isRed = false := rfl

theorem Balanced.isRed_of_black {h : Nat} {n : FLLRBNode K V} (hn : Balanced .black h n) :
    n.isRed = false := by
  cases hn <;> rfl

theorem Balanced.isRed_of_red {h : Nat} {n : FLLRBNode K V} (hn : Balanced .red h n) :
    n.isRed = true := by
  cases hn
  rfl

/-- A node of black height 0 is empty unless it is red. -/
theorem Balanced.eq_empty {n : FLLRBNode K V} (hn : Balanced .black 0 n) : n = emptyNode := by
  cases hn
  rfl

/-- `check` accepts the balanced trees and answers with their black height. -/
theorem check_eq_some_iff {n : FLLRBNode K V} {h : Nat} :
    n.check = some h ↔ ∃ c, Balanced c h n := by
  induction n generalizing h with
  | emptyNode =>
    constructor
    · intro heq
      obtain rfl := Option.some.inj heq
      exact ⟨.black, .empty⟩
    · rintro ⟨c, hb⟩
      cases hb
      rfl
  | valueNode k v c l r ihl ihr =>
    constructor
    · intro heq
      simp only [check, Option.bind_eq_bind, Option.ite_none_left_eq_some] at heq
      obtain ⟨hred, hright, heq⟩ := heq
      obtain ⟨dl, hl, heq⟩ := Option.bind_eq_some_iff.mp heq
      obtain ⟨dr, hr, heq⟩ := Option.bind_eq_some_iff.mp heq
      obtain ⟨cl, hbl⟩ := ihl.mp hl
      obtain ⟨cr, hbr⟩ := ihr.mp hr
      obtain ⟨rfl, hdone⟩ := Option.ite_none_right_eq_some.mp heq
      -- The right child is not red, so it is balanced with a black root.
      cases cr with
      | red => exact absurd hbr.isRed_of_red hright
      | black =>
        cases c with
        | black =>
          obtain rfl := Option.some.inj hdone
          exact ⟨.black, .black k v hbl hbr⟩
        | red =>
          obtain rfl := Option.some.inj hdone
          cases cl with
          | red => simp [hbl.isRed_of_red] at hred
          | black => exact ⟨.red, .red k v hbl hbr⟩
    · rintro ⟨c', hb⟩
      cases hb with
      | red _ _ hl hr =>
        have hcl := ihl.mpr ⟨_, hl⟩
        have hcr := ihr.mpr ⟨_, hr⟩
        simp [check, hl.isRed_of_black, hr.isRed_of_black, hcl, hcr]
      | black _ _ hl hr =>
        have hcl := ihl.mpr ⟨_, hl⟩
        have hcr := ihr.mpr ⟨_, hr⟩
        simp [check, hr.isRed_of_black, hcl, hcr]

/-- A balanced tree of black height `h` has at least `2 ^ h - 1` nodes. -/
theorem Balanced.two_pow_le {c : FLLRBColor} {h : Nat} {n : FLLRBNode K V}
    (hn : Balanced c h n) : 2 ^ h ≤ n.count + 1 := by
  induction hn with
  | empty => simp [count]
  | red k v hl hr ihl ihr => simp only [count]; omega
  | black k v hl hr ihl ihr => simp only [count, Nat.pow_succ]; omega

/-! ## Section 2: Rebuilding keeps the entries -/

section entries

@[simp] theorem inorderTraversal_copyWith_color (n : FLLRBNode K V) (c : Option FLLRBColor) :
    (n.copyWith none none c none none).inorderTraversal = n.inorderTraversal := by
  cases n <;> rfl

theorem inorderTraversal_rotateLeft {n : FLLRBNode K V} (h : n.right.isEmpty = false) :
    n.rotateLeft.inorderTraversal = n.inorderTraversal := by
  rcases n with _ | ⟨k, v, c, l, _ | ⟨k', v', c', l', r'⟩⟩
  · rfl
  · cases h
  · simp [rotateLeft, copyWith, left, right, inorderTraversal]

theorem inorderTraversal_rotateRight {n : FLLRBNode K V} (h : n.left.isEmpty = false) :
    n.rotateRight.inorderTraversal = n.inorderTraversal := by
  rcases n with _ | ⟨k, v, c, _ | ⟨k', v', c', l', r'⟩, r⟩
  · rfl
  · cases h
  · simp [rotateRight, copyWith, left, right, inorderTraversal]

@[simp] theorem inorderTraversal_colorFlip (n : FLLRBNode K V) :
    n.colorFlip.inorderTraversal = n.inorderTraversal := by
  cases n with
  | emptyNode => rfl
  | valueNode k v c l r =>
    simp only [colorFlip, copyWith, inorderTraversal, left, right, Option.getD_some,
      Option.getD_none]
    rw [← l.inorderTraversal_copyWith_color (some l.flipped),
      ← r.inorderTraversal_copyWith_color (some r.flipped)]
    rfl

theorem isEmpty_of_isRed {n : FLLRBNode K V} (h : n.isRed = true) : n.isEmpty = false := by
  cases n with
  | emptyNode => cases h
  | valueNode => rfl

@[simp] theorem inorderTraversal_fixUp (n : FLLRBNode K V) :
    n.fixUp.inorderTraversal = n.inorderTraversal := by
  have hleft : (if n.right.isRed && !n.left.isRed then n.rotateLeft else n).inorderTraversal
      = n.inorderTraversal := by
    split
    · next h => exact inorderTraversal_rotateLeft (isEmpty_of_isRed (by simp_all))
    · rfl
  unfold fixUp
  dsimp only
  rw [← hleft]
  generalize (if n.right.isRed && !n.left.isRed then n.rotateLeft else n) = m
  have hright : (if m.left.isRed && m.left.left.isRed then m.rotateRight else m).inorderTraversal
      = m.inorderTraversal := by
    split
    · next h => exact inorderTraversal_rotateRight (isEmpty_of_isRed (by simp_all))
    · rfl
  rw [← hright]
  generalize (if m.left.isRed && m.left.left.isRed then m.rotateRight else m) = m
  split
  · rw [inorderTraversal_colorFlip]
  · rfl

end entries

/-! ## Section 3: What `fixUp` repairs -/

section fixUp

variable {h : Nat} {k : K} {v : V} {c : FLLRBColor} {l r : FLLRBNode K V}

/-- `fixUp` has nothing to do below black children. -/
theorem fixUp_of_black (hl : l.isRed = false) (hr : r.isRed = false) :
    (valueNode k v c l r).fixUp = valueNode k v c l r := by
  simp [fixUp, left, right, hl, hr]

/-- A red left child with a black left child is left alone. -/
theorem fixUp_of_red_left {kl : K} {vl : V} {ll lr : FLLRBNode K V} (hll : ll.isRed = false)
    (hr : r.isRed = false) :
    (valueNode k v c (valueNode kl vl .red ll lr) r).fixUp
      = valueNode k v c (valueNode kl vl .red ll lr) r := by
  simp [fixUp, left, right, hll, hr]

/-- A lone red right child is rotated to the left. -/
theorem fixUp_of_red_right {kr : K} {vr : V} {rl rr : FLLRBNode K V} (hl : l.isRed = false)
    (hrr : rr.isRed = false) :
    (valueNode k v c l (valueNode kr vr .red rl rr)).fixUp
      = valueNode kr vr c (valueNode k v .red l rl) rr := by
  simp [fixUp, left, right, rotateLeft, copyWith, color, hl, hrr]

/-- Two red children exchange their color with the parent. -/
theorem fixUp_of_red_red {kl kr : K} {vl vr : V} {ll lr rl rr : FLLRBNode K V}
    (hll : ll.isRed = false) :
    (valueNode k v c (valueNode kl vl .red ll lr) (valueNode kr vr .red rl rr)).fixUp
      = valueNode k v c.opposite (valueNode kl vl .black ll lr)
          (valueNode kr vr .black rl rr) := by
  cases c <;> simp [fixUp, left, right, colorFlip, copyWith, flipped, hll, FLLRBColor.opposite]

/-- Two reds in a row on the left are split below a new red root. -/
theorem fixUp_of_red_red_left {kl ka : K} {vl va : V} {a b lr : FLLRBNode K V}
    (hr : r.isRed = false) :
    (valueNode k v .black (valueNode kl vl .red (valueNode ka va .red a b) lr) r).fixUp
      = valueNode kl vl .red (valueNode ka va .black a b) (valueNode k v .black lr r) := by
  simp [fixUp, left, right, rotateRight, colorFlip, copyWith, color, flipped, hr]

/-- A red node above black children needs no repair. -/
theorem Balanced.fixUp_red (hl : Balanced .black h l) (hr : Balanced .black h r) :
    Balanced .red h (valueNode k v .red l r).fixUp := by
  rw [fixUp_of_black hl.isRed_of_black hr.isRed_of_black]
  exact .red k v hl hr

/-- A black node above a black right child needs no repair. -/
theorem Balanced.fixUp_black_right {cl : FLLRBColor} (hl : Balanced cl h l)
    (hr : Balanced .black h r) : Balanced .black (h + 1) (valueNode k v .black l r).fixUp := by
  cases hl with
  | empty => rw [fixUp_of_black rfl hr.isRed_of_black]; exact .black k v .empty hr
  | red kl vl hll hlr =>
    rw [fixUp_of_red_left hll.isRed_of_black hr.isRed_of_black]
    exact .black k v (.red kl vl hll hlr) hr
  | black kl vl hll hlr =>
    rw [fixUp_of_black rfl hr.isRed_of_black]
    exact .black k v (.black kl vl hll hlr) hr

/-- A black node above a black left child stays black. -/
theorem Balanced.fixUp_black_left {cr : FLLRBColor} (hl : Balanced .black h l)
    (hr : Balanced cr h r) : Balanced .black (h + 1) (valueNode k v .black l r).fixUp := by
  cases cr with
  | black => exact hl.fixUp_black_right hr
  | red =>
    cases hr with
    | red kr vr hrl hrr =>
      rw [fixUp_of_red_right hl.isRed_of_black hrr.isRed_of_black]
      exact .black kr vr (.red k v hl hrl) hrr

/-- A black node is repaired whatever the colors of its children. -/
theorem Balanced.fixUp_black {cl cr : FLLRBColor} (hl : Balanced cl h l)
    (hr : Balanced cr h r) : ∃ c, Balanced c (h + 1) (valueNode k v .black l r).fixUp := by
  cases hr with
  | empty => exact ⟨_, hl.fixUp_black_right .empty⟩
  | black kr vr hrl hrr => exact ⟨_, hl.fixUp_black_right (.black kr vr hrl hrr)⟩
  | red kr vr hrl hrr =>
    cases cl with
    | black => exact ⟨_, hl.fixUp_black_left (.red kr vr hrl hrr)⟩
    | red =>
      cases hl with
      | red kl vl hll hlr =>
        rw [fixUp_of_red_red hll.isRed_of_black]
        exact ⟨.red, .red k v (.black kl vl hll hlr) (.black kr vr hrl hrr)⟩

end fixUp

/-! ## Section 4: Insertion -/

section insert

variable {cmp : K → K → Ordering} {aKey : K} {aValue : V}

/-- What insertion leaves of a tree: below a red root there may be a red left child. -/
def Inserted (h : Nat) : FLLRBColor → FLLRBNode K V → Prop
  | .black, n => ∃ c, Balanced c h n
  | .red, n => ∃ c k v l r, n = valueNode k v .red l r ∧ Balanced c h l ∧ Balanced .black h r

theorem Inserted.red_of_black {h : Nat} {n : FLLRBNode K V} {k : K} {v : V} {r : FLLRBNode K V}
    (hn : Inserted h .black n) (hr : Balanced .black h r) :
    Inserted h .red (valueNode k v .red n r).fixUp := by
  obtain ⟨c, hn⟩ := hn
  cases hn with
  | empty =>
    rw [fixUp_of_black rfl hr.isRed_of_black]
    exact ⟨_, k, v, _, r, rfl, .empty, hr⟩
  | red kl vl hll hlr =>
    rw [fixUp_of_red_left hll.isRed_of_black hr.isRed_of_black]
    exact ⟨_, k, v, _, r, rfl, .red kl vl hll hlr, hr⟩
  | black kl vl hll hlr =>
    rw [fixUp_of_black rfl hr.isRed_of_black]
    exact ⟨_, k, v, _, r, rfl, .black kl vl hll hlr, hr⟩

/-- A red right child below a red root is rotated to the left. -/
theorem Inserted.red_of_black_right {h : Nat} {n l : FLLRBNode K V} {k : K} {v : V}
    (hl : Balanced .black h l) (hn : Inserted h .black n) :
    Inserted h .red (valueNode k v .red l n).fixUp := by
  obtain ⟨c, hn⟩ := hn
  cases hn with
  | empty => exact Inserted.red_of_black ⟨_, hl⟩ .empty
  | black kr vr hrl hrr => exact Inserted.red_of_black ⟨_, hl⟩ (.black kr vr hrl hrr)
  | red kr vr hrl hrr =>
    rw [fixUp_of_red_right hl.isRed_of_black hrr.isRed_of_black]
    exact ⟨_, kr, vr, _, _, rfl, .red k v hl hrl, hrr⟩

/-- A black parent repairs what insertion left of its left child. -/
theorem Inserted.fixUp_black {h : Nat} {c : FLLRBColor} {n r : FLLRBNode K V} {k : K} {v : V}
    (hn : Inserted h c n) (hr : Balanced .black h r) :
    ∃ c, Balanced c (h + 1) (valueNode k v .black n r).fixUp := by
  cases c with
  | black =>
    obtain ⟨c, hn⟩ := hn
    exact ⟨_, hn.fixUp_black_right hr⟩
  | red =>
    obtain ⟨cl, kl, vl, ll, lr, rfl, hll, hlr⟩ := hn
    cases hll with
    | empty => exact ⟨_, (Balanced.red kl vl .empty hlr).fixUp_black_right hr⟩
    | black ka va ha hb =>
      exact ⟨_, (Balanced.red kl vl (.black ka va ha hb) hlr).fixUp_black_right hr⟩
    | red ka va ha hb =>
      rw [fixUp_of_red_red_left hr.isRed_of_black]
      exact ⟨.red, .red kl vl (.black ka va ha hb) (.black k v hlr hr)⟩

/-- One case for each constructor of a balanced tree and each outcome of the comparison. -/
theorem Balanced.insertKey {c : FLLRBColor} {h : Nat} {n : FLLRBNode K V} (hn : Balanced c h n) :
    Inserted h c (n.insertKey cmp aKey aValue) := by
  induction hn with
  | empty => exact ⟨.red, .red aKey aValue .empty .empty⟩
  | red k v hl hr ihl ihr =>
    rw [FLLRBNode.insertKey]
    cases cmp aKey k with
    | lt => exact ihl.red_of_black hr
    | eq => exact Inserted.red_of_black ⟨_, hl⟩ hr
    | gt => exact Inserted.red_of_black_right hl ihr
  | black k v hl hr ihl ihr =>
    rw [FLLRBNode.insertKey]
    cases cmp aKey k with
    | lt => exact ihl.fixUp_black hr
    | eq => exact ⟨_, hl.fixUp_black_right hr⟩
    | gt =>
      obtain ⟨cr, hr'⟩ := ihr
      exact hl.fixUp_black hr'

/-- The entries after insertion; a key that is there already keeps its spelling. -/
theorem inorderTraversal_insertKey [Std.TransCmp cmp] {n : FLLRBNode K V}
    (hasc : Ascending cmp n.inorderTraversal) :
    (n.insertKey cmp aKey aValue).inorderTraversal
      = put cmp true aKey aValue n.inorderTraversal := by
  induction n with
  | emptyNode => rfl
  | valueNode k v c l r ihl ihr =>
    rw [inorderTraversal] at hasc
    have hsplit := ascending_split.mp hasc
    rw [FLLRBNode.insertKey, inorderTraversal_fixUp]
    cases hcmp : cmp aKey k with
    | lt =>
      rw [inorderTraversal, put_append_lt _ _ hcmp, ← ihl hsplit.left]
      rfl
    | eq =>
      have hgt := hsplit.gt_left (k := aKey) (by simp [hcmp])
      rw [inorderTraversal, put_append_gt _ hgt, put_cons_eq hcmp]
      rfl
    | gt =>
      have hgt := hsplit.gt_left (k := aKey) (by simp [hcmp])
      rw [inorderTraversal, put_append_gt _ hgt, put_cons_gt hcmp, ← ihr hsplit.right]
      rfl

end insert

end FLLRBNode

end MeetupApp.Firebase
