import Mathlib.Algebra.Group.Nat.Defs
import MeetupApp.Framework.SortedEntries

/-! # FLLRBNode

    The left-leaning red-black tree behind the client's sorted dictionaries:
    `FLLRBEmptyNode` and `FLLRBValueNode`, method by method.  A message to
    `nil` answers `nil`, `NO` or 0, as the same message to the empty node does,
    so that the children of the empty node may be the empty node again. -/

namespace MeetupApp.Firebase

/-- `RED` and `BLACK` -/
inductive FLLRBColor where
  | red
  | black
  deriving DecidableEq

/-- `FLLRBEmptyNode` and `FLLRBValueNode` -/
inductive FLLRBNode (K V : Type) where
  | emptyNode
  | valueNode (key : K) (value : V) (color : FLLRBColor) (left right : FLLRBNode K V)

namespace FLLRBNode

variable {K V : Type}

/-! ## Section 1: Reading -/

def isEmpty : FLLRBNode K V → Bool
  | emptyNode => true
  | valueNode .. => false

def left : FLLRBNode K V → FLLRBNode K V
  | emptyNode => emptyNode
  | valueNode _ _ _ l _ => l

def right : FLLRBNode K V → FLLRBNode K V
  | emptyNode => emptyNode
  | valueNode _ _ _ _ r => r

def isRed : FLLRBNode K V → Bool
  | valueNode _ _ .red _ _ => true
  | _ => false

def count : FLLRBNode K V → Nat
  | emptyNode => 0
  | valueNode _ _ _ l r => l.count + 1 + r.count

/-- The keys and values in the order in which `inorderTraversal:` visits them. -/
def inorderTraversal : FLLRBNode K V → List (K × V)
  | emptyNode => []
  | valueNode k v _ l r => l.inorderTraversal ++ (k, v) :: r.inorderTraversal

def min : FLLRBNode K V → FLLRBNode K V
  | emptyNode => emptyNode
  | valueNode k v c emptyNode r => valueNode k v c emptyNode r
  | valueNode _ _ _ l@(valueNode ..) _ => l.min

def key : FLLRBNode K V → Option K
  | emptyNode => none
  | valueNode k _ _ _ _ => some k

def value : FLLRBNode K V → Option V
  | emptyNode => none
  | valueNode _ v _ _ _ => some v

def minKey (n : FLLRBNode K V) : Option K := n.min.key

def maxKey : FLLRBNode K V → Option K
  | emptyNode => none
  | valueNode k _ _ _ emptyNode => some k
  | valueNode _ _ _ _ r@(valueNode ..) => r.maxKey

/-- `check`, with `none` for an exception. -/
def check : FLLRBNode K V → Option Nat
  | emptyNode => some 0
  | n@(valueNode _ _ _ l r) =>
    if n.isRed && l.isRed then none
    else if r.isRed then none
    else do
      let blackDepth ← l.check
      let rightDepth ← r.check
      if blackDepth = rightDepth then some (blackDepth + if n.isRed then 0 else 1) else none

/-- `checkMaxDepth`; the empty node has no such method. -/
def checkMaxDepth (n : FLLRBNode K V) : Option Bool :=
  n.check.map (fun blackDepth => decide (2 ^ blackDepth ≤ n.count + 1))

/-! ## Section 2: Rebuilding a node -/

/-- `copyWith:withValue:withColor:withLeft:withRight:`; `nil` keeps the part. -/
def copyWith : FLLRBNode K V → Option K → Option V → Option FLLRBColor →
    Option (FLLRBNode K V) → Option (FLLRBNode K V) → FLLRBNode K V
  | emptyNode, _, _, _, _, _ => emptyNode
  | valueNode k v c l r, aKey, aValue, aColor, aLeft, aRight =>
    valueNode (aKey.getD k) (aValue.getD v) (aColor.getD c) (aLeft.getD l) (aRight.getD r)

/-- The color `colorFlip` gives to a node. -/
def flipped (n : FLLRBNode K V) : FLLRBColor := if n.isRed then .black else .red

/-- The color of a value node; `RED` stands in for the empty node, whose color is never used. -/
def color : FLLRBNode K V → FLLRBColor
  | emptyNode => .red
  | valueNode _ _ c _ _ => c

def rotateLeft (n : FLLRBNode K V) : FLLRBNode K V :=
  let nl := n.copyWith none none (some .red) none (some n.right.left)
  n.right.copyWith none none (some n.color) (some nl) none

def rotateRight (n : FLLRBNode K V) : FLLRBNode K V :=
  let nr := n.copyWith none none (some .red) (some n.left.right) none
  n.left.copyWith none none (some n.color) none (some nr)

def colorFlip (n : FLLRBNode K V) : FLLRBNode K V :=
  let nleft := n.left.copyWith none none (some n.left.flipped) none none
  let nright := n.right.copyWith none none (some n.right.flipped) none none
  n.copyWith none none (some n.flipped) (some nleft) (some nright)

def fixUp (n : FLLRBNode K V) : FLLRBNode K V :=
  let n := if n.right.isRed && !n.left.isRed then n.rotateLeft else n
  let n := if n.left.isRed && n.left.left.isRed then n.rotateRight else n
  if n.left.isRed && n.right.isRed then n.colorFlip else n

def moveRedLeft (n : FLLRBNode K V) : FLLRBNode K V :=
  let n := n.colorFlip
  if n.right.left.isRed then
    let n := n.copyWith none none none none (some n.right.rotateRight)
    n.rotateLeft.colorFlip
  else n

def moveRedRight (n : FLLRBNode K V) : FLLRBNode K V :=
  let n := n.colorFlip
  if n.left.left.isRed then n.rotateRight.colorFlip else n

/-! ### No rebuilding makes a tree larger -/

theorem count_copyWith (n : FLLRBNode K V) (k : Option K) (v : Option V) (c : Option FLLRBColor) :
    (n.copyWith k v c none none).count = n.count := by
  cases n <;> rfl

theorem count_rotateLeft_le (n : FLLRBNode K V) : n.rotateLeft.count ≤ n.count := by
  rcases n with _ | ⟨k, v, c, l, _ | ⟨k', v', c', l', r'⟩⟩
  · exact Nat.le_refl _
  · exact Nat.zero_le _
  · simp only [rotateLeft, copyWith, count, left, right, Option.getD_some, Option.getD_none]
    omega

theorem count_rotateRight_le (n : FLLRBNode K V) : n.rotateRight.count ≤ n.count := by
  rcases n with _ | ⟨k, v, c, _ | ⟨k', v', c', l', r'⟩, r⟩
  · exact Nat.le_refl _
  · exact Nat.zero_le _
  · simp only [rotateRight, copyWith, count, left, right, Option.getD_some, Option.getD_none]
    omega

theorem count_colorFlip (n : FLLRBNode K V) : n.colorFlip.count = n.count := by
  cases n with
  | emptyNode => rfl
  | valueNode k v c l r =>
    have hl := l.count_copyWith none none (some l.flipped)
    have hr := r.count_copyWith none none (some r.flipped)
    rw [colorFlip, copyWith, count, count]
    exact congrArg₂ (fun a b => a + 1 + b) hl hr

theorem count_fixUp_le (n : FLLRBNode K V) : n.fixUp.count ≤ n.count := by
  have hif : ∀ (p : Bool) (f : FLLRBNode K V → FLLRBNode K V) (m : FLLRBNode K V),
      (f m).count ≤ m.count → (if p then f m else m).count ≤ m.count := by
    intro p f m hf
    cases p
    · exact Nat.le_refl _
    · exact hf
  unfold fixUp
  refine Nat.le_trans (hif _ _ _ (Nat.le_of_eq (count_colorFlip _))) ?_
  refine Nat.le_trans (hif _ _ _ (count_rotateRight_le _)) ?_
  exact hif _ _ _ (count_rotateLeft_le _)

theorem count_moveRedLeft_le (n : FLLRBNode K V) : n.moveRedLeft.count ≤ n.count := by
  unfold moveRedLeft
  dsimp only
  split
  · rw [count_colorFlip, ← n.count_colorFlip]
    refine Nat.le_trans (count_rotateLeft_le _) ?_
    cases n.colorFlip with
    | emptyNode => exact Nat.le_refl _
    | valueNode k v c l r =>
      have := r.count_rotateRight_le
      simp only [copyWith, count, right, Option.getD_some, Option.getD_none]
      omega
  · exact Nat.le_of_eq n.count_colorFlip

theorem count_moveRedRight_le (n : FLLRBNode K V) : n.moveRedRight.count ≤ n.count := by
  unfold moveRedRight
  dsimp only
  split
  · rw [count_colorFlip, ← n.count_colorFlip]
    exact count_rotateRight_le _
  · exact Nat.le_of_eq n.count_colorFlip

/-! ## Section 3: Insertion and removal -/

def insertKey (cmp : K → K → Ordering) (aKey : K) (aValue : V) :
    FLLRBNode K V → FLLRBNode K V
  | emptyNode => valueNode aKey aValue .red emptyNode emptyNode
  | n@(valueNode key _ _ l r) =>
    (match cmp aKey key with
    | .lt => n.copyWith none none none (some (l.insertKey cmp aKey aValue)) none
    | .eq => n.copyWith none (some aValue) none none none
    | .gt => n.copyWith none none none none (some (r.insertKey cmp aKey aValue))).fixUp

theorem count_left_lt {n m : FLLRBNode K V} (hn : n.isEmpty = false) (h : m.count ≤ n.count) :
    m.left.count < n.count := by
  rcases n with _ | ⟨k, v, c, l, r⟩
  · cases hn
  · rcases m with _ | ⟨k', v', c', l', r'⟩ <;> simp only [left, count] at * <;> omega

theorem count_right_lt {n m : FLLRBNode K V} (hn : n.isEmpty = false) (h : m.count ≤ n.count) :
    m.right.count < n.count := by
  rcases n with _ | ⟨k, v, c, l, r⟩
  · cases hn
  · rcases m with _ | ⟨k', v', c', l', r'⟩ <;> simp only [right, count] at * <;> omega

/-- `n` as `removeMin` prepares it before it goes to the left. -/
def beforeMin (n : FLLRBNode K V) : FLLRBNode K V :=
  if !n.left.isRed && !n.left.left.isRed then n.moveRedLeft else n

/-- `n` as `remove:` prepares it before it goes to the left. -/
def beforeLeft (n : FLLRBNode K V) : FLLRBNode K V :=
  if !n.left.isEmpty && !n.left.isRed && !n.left.left.isRed then n.moveRedLeft else n

/-- `n` as `remove:` prepares it before it goes to the right. -/
def beforeRight (n : FLLRBNode K V) : FLLRBNode K V :=
  let n := if n.left.isRed then n.rotateRight else n
  if !n.right.isEmpty && !n.right.isRed && !n.right.left.isRed then n.moveRedRight else n

theorem count_beforeMin_le (n : FLLRBNode K V) : n.beforeMin.count ≤ n.count := by
  unfold beforeMin
  split
  · exact n.count_moveRedLeft_le
  · exact Nat.le_refl _

theorem count_beforeLeft_le (n : FLLRBNode K V) : n.beforeLeft.count ≤ n.count := by
  unfold beforeLeft
  split
  · exact n.count_moveRedLeft_le
  · exact Nat.le_refl _

theorem count_beforeRight_le (n : FLLRBNode K V) : n.beforeRight.count ≤ n.count := by
  have hrotate : (if n.left.isRed then n.rotateRight else n).count ≤ n.count := by
    split
    · exact n.count_rotateRight_le
    · exact Nat.le_refl _
  refine Nat.le_trans ?_ hrotate
  unfold beforeRight
  dsimp only
  generalize (if n.left.isRed then n.rotateRight else n) = m
  split
  · exact m.count_moveRedRight_le
  · exact Nat.le_refl _

def removeMin (n : FLLRBNode K V) : FLLRBNode K V :=
  if _hleft : n.left.isEmpty then emptyNode
  else
    let m := n.beforeMin
    (m.copyWith none none none (some m.left.removeMin) none).fixUp
termination_by n.count
decreasing_by
  refine count_left_lt ?_ n.count_beforeMin_le
  cases n with
  | emptyNode => exact absurd (show isEmpty emptyNode = true from rfl) _hleft
  | valueNode => rfl

theorem count_removeMin_le (n : FLLRBNode K V) : n.removeMin.count ≤ n.count := by
  fun_induction removeMin n with
  | case1 n h => exact Nat.zero_le _
  | case2 n h m ih =>
    refine Nat.le_trans (count_fixUp_le _) ?_
    refine Nat.le_trans ?_ n.count_beforeMin_le
    change (m.copyWith none none none (some m.left.removeMin) none).count ≤ m.count
    cases hshape : m with
    | emptyNode => exact Nat.le_refl _
    | valueNode k v c l r =>
      rw [hshape] at ih
      simp only [copyWith, count, left, Option.getD_some, Option.getD_none] at *
      omega

/-- `n` as `remove:` goes on with it to the right: a node with the key takes over
    the smallest entry of its right child. -/
def takeSmallest (cmp : K → K → Ordering) (aKey : K) (n : FLLRBNode K V) : FLLRBNode K V :=
  if n.key.map (cmp aKey) = some .eq then
    let smallest := n.right.min
    n.copyWith smallest.key smallest.value none none (some n.right.removeMin)
  else n

theorem count_takeSmallest_right_le (cmp : K → K → Ordering) (aKey : K) (n : FLLRBNode K V) :
    (n.takeSmallest cmp aKey).right.count ≤ n.right.count := by
  unfold takeSmallest
  split
  · cases n with
    | emptyNode => exact Nat.le_refl _
    | valueNode k v c l r => exact r.count_removeMin_le
  · exact Nat.le_refl _

/-- `remove:withComparator:`.  The key that was found is removed once more, from
    the right child that has just given up its smallest entry. -/
def remove (cmp : K → K → Ordering) (aKey : K) (n : FLLRBNode K V) : FLLRBNode K V :=
  if _hn : n.isEmpty then emptyNode
  else if n.key.map (cmp aKey) = some .lt then
    let m := n.beforeLeft
    (m.copyWith none none none (some (m.left.remove cmp aKey)) none).fixUp
  else
    let m := n.beforeRight
    if m.key.map (cmp aKey) = some .eq && m.right.isEmpty then emptyNode
    else
      let m := m.takeSmallest cmp aKey
      (m.copyWith none none none none (some (m.right.remove cmp aKey))).fixUp
termination_by n.count
decreasing_by
  · exact count_left_lt (by simpa using _hn) n.count_beforeLeft_le
  · have hlt := count_right_lt (by simpa using _hn) n.count_beforeRight_le
    exact Nat.lt_of_le_of_lt (count_takeSmallest_right_le cmp aKey _) hlt

end FLLRBNode

end MeetupApp.Firebase
