import MeetupApp.Firebase.LLRBBalance

/-! # On the way down a red-black tree

    `remove:` and `removeMin` enter a child only when the child is red or has a
    red left child; `moveRedLeft` and `moveRedRight` arrange this by lending
    the red of the parent.  Here are the shapes this produces, the removal of
    the smallest entry, and the removal of a key that is below the whole tree:
    it finds nothing, and puts everything back as it was. -/

namespace MeetupApp.Firebase

open SortedEntries

namespace FLLRBNode

variable {K V : Type}

/-! ## Section 1: Preparing a node -/

/-- A black tree with a red left child. -/
inductive Leaning (h : Nat) : FLLRBNode K V → Prop where
  | intro {l r : FLLRBNode K V} (k : K) (v : V) (hl : Balanced .red h l)
      (hr : Balanced .black h r) : Leaning h (valueNode k v .black l r)

theorem Leaning.balanced {h : Nat} {n : FLLRBNode K V} (hn : Leaning h n) :
    Balanced .black (h + 1) n := by
  cases hn with
  | intro k v hl hr => exact .black k v hl hr

/-- How a node of color `c` stands ready for a step to the left. -/
inductive ReadyLeft (h : Nat) (c : FLLRBColor) :
    FLLRBColor → FLLRBNode K V → FLLRBNode K V → Prop where
  | leaning {l r : FLLRBNode K V} (hl : Leaning h l) (hr : Balanced .black (h + 1) r) :
      ReadyLeft h c c l r
  | lent {l r : FLLRBNode K V} (hl : Balanced .red h l) (hr : Balanced .red h r) :
      ReadyLeft h c c.opposite l r

/-- How a node of color `c` stands ready for a step to the right: the third way
    puts the old root `(k, v)` at the top of the right child. -/
inductive ReadyRight (h : Nat) (c : FLLRBColor) (k : K) (v : V) :
    K → FLLRBColor → FLLRBNode K V → FLLRBNode K V → Prop where
  | leaning {l r : FLLRBNode K V} (hl : Balanced .black (h + 1) l) (hr : Leaning h r) :
      ReadyRight h c k v k c l r
  | lent {l r : FLLRBNode K V} (hl : Balanced .red h l) (hr : Balanced .red h r) :
      ReadyRight h c k v k c.opposite l r
  | turned {l a b : FLLRBNode K V} (k' : K) (hl : Balanced .black (h + 1) l)
      (ha : Balanced .black h a) (hb : Balanced .red h b) :
      ReadyRight h c k v k' c l (valueNode k v .black a b)

theorem inorderTraversal_moveRedLeft (n : FLLRBNode K V) :
    n.moveRedLeft.inorderTraversal = n.inorderTraversal := by
  unfold moveRedLeft
  dsimp only
  rw [← n.inorderTraversal_colorFlip]
  split
  · next hred =>
    rw [inorderTraversal_colorFlip]
    generalize n.colorFlip = m at *
    rcases m with _ | ⟨k, v, c, l, _ | ⟨kr, vr, cr, _ | ⟨kx, vx, cx, a, b⟩, rr⟩⟩
    · rfl
    · cases hred
    · cases hred
    · simp [rotateLeft, rotateRight, copyWith, left, right, inorderTraversal]
  · rfl

theorem inorderTraversal_moveRedRight (n : FLLRBNode K V) :
    n.moveRedRight.inorderTraversal = n.inorderTraversal := by
  unfold moveRedRight
  dsimp only
  rw [← n.inorderTraversal_colorFlip]
  split
  · next hred =>
    rw [inorderTraversal_colorFlip]
    apply inorderTraversal_rotateRight
    generalize n.colorFlip = m at *
    rcases m with _ | ⟨k, v, c, _ | _, r⟩
    · cases hred
    · cases hred
    · rfl
  · rfl

@[simp] theorem inorderTraversal_beforeLeft (n : FLLRBNode K V) :
    n.beforeLeft.inorderTraversal = n.inorderTraversal := by
  unfold beforeLeft
  split
  · exact n.inorderTraversal_moveRedLeft
  · rfl

@[simp] theorem inorderTraversal_beforeRight (n : FLLRBNode K V) :
    n.beforeRight.inorderTraversal = n.inorderTraversal := by
  have hrotate : (if n.left.isRed then n.rotateRight else n).inorderTraversal
      = n.inorderTraversal := by
    split
    · next h => exact inorderTraversal_rotateRight (isEmpty_of_isRed h)
    · rfl
  unfold beforeRight
  dsimp only
  rw [← hrotate]
  generalize (if n.left.isRed then n.rotateRight else n) = m
  split
  · exact m.inorderTraversal_moveRedRight
  · rfl

section prepare
variable {h : Nat} {k : K} {v : V} {c : FLLRBColor} {l r : FLLRBNode K V}

/-- `moveRedLeft` lends the red of the parent to both children. -/
theorem moveRedLeft_lend {kl kr : K} {vl vr : V} {ll lr rl rr : FLLRBNode K V}
    (hrl : rl.isRed = false) :
    (valueNode k v c (valueNode kl vl .black ll lr) (valueNode kr vr .black rl rr)).moveRedLeft
      = valueNode k v c.opposite (valueNode kl vl .red ll lr) (valueNode kr vr .red rl rr) := by
  cases c <;> simp [moveRedLeft, colorFlip, copyWith, flipped, left, right, hrl,
    FLLRBColor.opposite]

/-- `moveRedLeft` takes the smallest node of the right child to the top. -/
theorem moveRedLeft_turn {kl kr kx : K} {vl vr vx : V} {ll lr a b rr : FLLRBNode K V} :
    (valueNode k v c (valueNode kl vl .black ll lr)
        (valueNode kr vr .black (valueNode kx vx .red a b) rr)).moveRedLeft
      = valueNode kx vx c (valueNode k v .black (valueNode kl vl .red ll lr) a)
          (valueNode kr vr .black b rr) := by
  cases c <;> simp [moveRedLeft, colorFlip, copyWith, flipped, left, right, rotateLeft,
    rotateRight, color]

/-- `moveRedRight` lends the red of the parent to both children. -/
theorem moveRedRight_lend {kl kr : K} {vl vr : V} {ll lr rl rr : FLLRBNode K V}
    (hll : ll.isRed = false) :
    (valueNode k v c (valueNode kl vl .black ll lr) (valueNode kr vr .black rl rr)).moveRedRight
      = valueNode k v c.opposite (valueNode kl vl .red ll lr) (valueNode kr vr .red rl rr) := by
  cases c <;> simp [moveRedRight, colorFlip, copyWith, flipped, left, right, hll,
    FLLRBColor.opposite]

/-- `moveRedRight` takes the left child to the top and leaves a red right grandchild. -/
theorem moveRedRight_turn {kl kr ka : K} {vl vr va : V} {a b lr rl rr : FLLRBNode K V} :
    (valueNode k v c (valueNode kl vl .black (valueNode ka va .red a b) lr)
        (valueNode kr vr .black rl rr)).moveRedRight
      = valueNode kl vl c (valueNode ka va .black a b)
          (valueNode k v .black lr (valueNode kr vr .red rl rr)) := by
  cases c <;> simp [moveRedRight, colorFlip, copyWith, flipped, left, right, rotateRight, color]

/-- Above a red left child nothing has to be prepared. -/
theorem beforeLeft_of_red (hl : l.isRed = true) :
    (valueNode k v c l r).beforeLeft = valueNode k v c l r := by
  simp [beforeLeft, left, hl]

/-- Nor above an empty one. -/
theorem beforeLeft_of_empty : (valueNode k v c emptyNode r).beforeLeft
    = valueNode k v c emptyNode r := by
  simp [beforeLeft, left, isEmpty]

theorem beforeRight_of_empty (hl : l.isRed = false) :
    (valueNode k v c l emptyNode).beforeRight = valueNode k v c l emptyNode := by
  simp [beforeRight, left, right, isEmpty, hl]

theorem beforeLeft_of_black {kl : K} {vl : V} {ll lr : FLLRBNode K V} (hll : ll.isRed = false) :
    (valueNode k v c (valueNode kl vl .black ll lr) r).beforeLeft
      = (valueNode k v c (valueNode kl vl .black ll lr) r).moveRedLeft := by
  simp [beforeLeft, left, isEmpty, hll]

theorem beforeRight_of_black {kr : K} {vr : V} {rl rr : FLLRBNode K V} (hl : l.isRed = false)
    (hrl : rl.isRed = false) :
    (valueNode k v c l (valueNode kr vr .black rl rr)).beforeRight
      = (valueNode k v c l (valueNode kr vr .black rl rr)).moveRedRight := by
  simp [beforeRight, left, right, isEmpty, hl, hrl]

/-- A step to the left, from a node whose children are black. -/
theorem beforeLeft_ready (hl : Balanced .black (h + 1) l) (hr : Balanced .black (h + 1) r) :
    ∃ k' v' c' l' r', (valueNode k v c l r).beforeLeft = valueNode k' v' c' l' r'
      ∧ (k' = k ∨ (k, v) ∈ l'.inorderTraversal) ∧ ReadyLeft h c c' l' r' := by
  cases hl with
  | @black _ cll ll lr kl vl hll hlr =>
  cases hr with
  | @black _ crl rl rr kr vr hrl hrr =>
  cases cll with
  | red =>
    -- The left child leans already.
    refine ⟨k, v, c, _, _, ?_, .inl rfl, .leaning (.intro kl vl hll hlr) (.black kr vr hrl hrr)⟩
    simp [beforeLeft, left, hll.isRed_of_red]
  | black =>
    rw [beforeLeft_of_black hll.isRed_of_black]
    cases crl with
    | black =>
      rw [moveRedLeft_lend hrl.isRed_of_black]
      exact ⟨k, v, _, _, _, rfl, .inl rfl, .lent (.red kl vl hll hlr) (.red kr vr hrl hrr)⟩
    | red =>
      cases hrl with
      | red kx vx ha hb =>
        rw [moveRedLeft_turn]
        refine ⟨kx, vx, c, _, _, rfl, .inr ?_, .leaning (.intro k v (.red kl vl hll hlr) ha)
          (.black kr vr hb hrr)⟩
        simp [inorderTraversal]

/-- A step to the right, from a node whose children are black. -/
theorem beforeRight_ready (hl : Balanced .black (h + 1) l) (hr : Balanced .black (h + 1) r) :
    ∃ k' v' c' l' r', (valueNode k v c l r).beforeRight = valueNode k' v' c' l' r'
      ∧ ReadyRight h c k v k' c' l' r' := by
  cases hl with
  | @black _ cll ll lr kl vl hll hlr =>
  cases hr with
  | @black _ crl rl rr kr vr hrl hrr =>
  cases crl with
  | red =>
    refine ⟨k, v, c, _, _, ?_, .leaning (.black kl vl hll hlr) (.intro kr vr hrl hrr)⟩
    simp [beforeRight, left, right, hrl.isRed_of_red]
  | black =>
    rw [beforeRight_of_black rfl hrl.isRed_of_black]
    cases cll with
    | black =>
      rw [moveRedRight_lend hll.isRed_of_black]
      exact ⟨k, v, _, _, _, rfl, .lent (.red kl vl hll hlr) (.red kr vr hrl hrr)⟩
    | red =>
      cases hll with
      | red ka va ha hb =>
        rw [moveRedRight_turn]
        exact ⟨kl, vl, c, _, _, rfl, .turned kl (.black ka va ha hb) hlr (.red kr vr hrl hrr)⟩

/-- A leaning tree is turned so that its red child is on the right. -/
theorem beforeRight_of_leaning {n : FLLRBNode K V} (hn : Leaning h n) :
    ∃ k v k' v' l a b, n = valueNode k v .black (valueNode k' v' .red l a) b
      ∧ n.beforeRight = valueNode k' v' .black l (valueNode k v .red a b)
      ∧ Balanced .black h l ∧ Balanced .red h (valueNode k v .red a b) := by
  cases hn with
  | @intro l r k v hl hr =>
    cases hl with
    | red k' v' hll hlr =>
      refine ⟨k, v, k', v', _, _, _, rfl, ?_, hll, .red k v hlr hr⟩
      simp [beforeRight, left, right, rotateRight, copyWith, color]

end prepare

/-! ## Section 2: One step of a removal -/

section step
variable {cmp : K → K → Ordering} {aKey k k' : K} {v v' : V} {c c' : FLLRBColor}
  {l l' r r' : FLLRBNode K V}

theorem removeMin_step (hl : l.isEmpty = false)
    (hm : (valueNode k v c l r).beforeLeft = valueNode k' v' c' l' r') :
    (valueNode k v c l r).removeMin = (valueNode k' v' c' l'.removeMin r').fixUp := by
  have hmin : (valueNode k v c l r).beforeMin = valueNode k' v' c' l' r' := by
    rw [← hm]
    simp [beforeMin, beforeLeft, left, hl]
  rw [removeMin, dif_neg (by simp [left, hl]), hmin]
  rfl

theorem remove_emptyNode : (emptyNode : FLLRBNode K V).remove cmp aKey = emptyNode := by
  rw [remove]
  rfl

theorem remove_step_left (hk : cmp aKey k = .lt)
    (hm : (valueNode k v c l r).beforeLeft = valueNode k' v' c' l' r') :
    (valueNode k v c l r).remove cmp aKey
      = (valueNode k' v' c' (l'.remove cmp aKey) r').fixUp := by
  rw [remove, dif_neg (by simp [isEmpty]), if_pos (by simp [key, hk]), hm]
  rfl

theorem remove_step_right (hk : cmp aKey k ≠ .lt)
    (hm : (valueNode k v c l r).beforeRight = valueNode k' v' c' l' r')
    (hk' : cmp aKey k' = .gt) :
    (valueNode k v c l r).remove cmp aKey
      = (valueNode k' v' c' l' (r'.remove cmp aKey)).fixUp := by
  rw [remove, dif_neg (by simp [isEmpty]), if_neg (by simpa [key] using hk), hm]
  simp [key, hk', takeSmallest, copyWith, right]

theorem remove_step_found (hk : cmp aKey k ≠ .lt)
    (hm : (valueNode k v c l r).beforeRight = valueNode k' v' c' l' r')
    (hk' : cmp aKey k' = .eq) (hr' : r'.isEmpty = false) :
    (valueNode k v c l r).remove cmp aKey
      = (valueNode (r'.min.key.getD k') (r'.min.value.getD v') c' l'
          (r'.removeMin.remove cmp aKey)).fixUp := by
  rw [remove, dif_neg (by simp [isEmpty]), if_neg (by simpa [key] using hk), hm]
  simp [key, hk', takeSmallest, copyWith, right, hr']

end step

/-! ## Section 3: Taking out the smallest entry -/

/-- The smallest node carries the first entry. -/
theorem min_eq_head? (n : FLLRBNode K V) :
    n.min.key = n.inorderTraversal.head?.map (·.1)
      ∧ n.min.value = n.inorderTraversal.head?.map (·.2) := by
  induction n with
  | emptyNode => simp [min, key, value, inorderTraversal]
  | valueNode k v c l r ihl ihr =>
    cases l with
    | emptyNode => simp [min, key, value, inorderTraversal]
    | valueNode kl vl cl ll lr =>
      have hne : (valueNode kl vl cl ll lr).inorderTraversal ≠ [] := by simp [inorderTraversal]
      rw [min, inorderTraversal, List.head?_append_of_ne_nil _ hne]
      exact ihl

/-- A nonempty tree has a first entry, which its smallest node carries. -/
theorem exists_head {n : FLLRBNode K V} (hn : n.isEmpty = false) :
    ∃ e es, n.inorderTraversal = e :: es ∧ n.min.key = some e.1 ∧ n.min.value = some e.2 := by
  have hhead := n.min_eq_head?
  cases hes : n.inorderTraversal with
  | nil =>
    cases n with
    | emptyNode => cases hn
    | valueNode k v c l r => simp [inorderTraversal] at hes
  | cons e es =>
    rw [hes] at hhead
    exact ⟨e, es, rfl, hhead⟩

section removeMin
variable {h : Nat}

/-- Below a leaning root the smallest entry is taken from the red left child. -/
theorem Leaning.removeMin
    (ih : ∀ n : FLLRBNode K V, Balanced .red h n → (∃ c, Balanced c h n.removeMin)
      ∧ n.removeMin.inorderTraversal = n.inorderTraversal.tail)
    {n : FLLRBNode K V} (hn : Leaning h n) :
    Balanced .black (h + 1) n.removeMin
      ∧ n.removeMin.inorderTraversal = n.inorderTraversal.tail := by
  cases hn with
  | @intro l r k v hl hr =>
    obtain ⟨⟨c, hbal⟩, hes⟩ := ih l hl
    obtain ⟨e, es, hl', -⟩ := exists_head (isEmpty_of_isRed hl.isRed_of_red)
    rw [removeMin_step (isEmpty_of_isRed hl.isRed_of_red) (beforeLeft_of_red hl.isRed_of_red)]
    refine ⟨hbal.fixUp_black_right hr, ?_⟩
    rw [inorderTraversal_fixUp, inorderTraversal, inorderTraversal, hes, hl']
    rfl

/-- A red tree gives up its smallest entry and keeps its black height. -/
theorem Balanced.removeMin_red : ∀ n : FLLRBNode K V, Balanced .red h n →
    (∃ c, Balanced c h n.removeMin)
      ∧ n.removeMin.inorderTraversal = n.inorderTraversal.tail := by
  induction h with
  | zero =>
    intro n hn
    cases hn with
    | red k v hl hr =>
      obtain rfl := hl.eq_empty
      obtain rfl := hr.eq_empty
      rw [removeMin]
      exact ⟨⟨_, .empty⟩, rfl⟩
  | succ h ih =>
    intro n hn
    cases hn with
    | @red _ l r k v hl hr =>
      obtain ⟨k', v', c', l', r', hm, -, hready⟩ := beforeLeft_ready (k := k) (v := v)
        (c := .red) hl hr
      have hentries : (valueNode k v .red l r).inorderTraversal
          = l'.inorderTraversal ++ (k', v') :: r'.inorderTraversal := by
        rw [← inorderTraversal_beforeLeft, hm, inorderTraversal]
      have hne : l.isEmpty = false := by cases hl; rfl
      rw [removeMin_step hne hm, inorderTraversal_fixUp, hentries, inorderTraversal]
      cases hready with
      | leaning hl' hr' =>
        obtain ⟨hbal, hes⟩ := hl'.removeMin ih
        obtain ⟨e, es, hhead, -⟩ := exists_head (n := l') (by cases hl'; rfl)
        refine ⟨⟨_, hbal.fixUp_red hr'⟩, ?_⟩
        rw [hes, hhead]
        rfl
      | lent hl' hr' =>
        obtain ⟨⟨c, hbal⟩, hes⟩ := ih l' hl'
        obtain ⟨e, es, hhead, -⟩ := exists_head (isEmpty_of_isRed hl'.isRed_of_red)
        refine ⟨hbal.fixUp_black hr', ?_⟩
        rw [hes, hhead]
        rfl

end removeMin

/-! ## Section 4: Removing a key that is below the whole tree -/

section below
variable {cmp : K → K → Ordering} {aKey : K}

/-- `aKey` is smaller than every key of the tree. -/
def Below (cmp : K → K → Ordering) (aKey : K) (n : FLLRBNode K V) : Prop :=
  ∀ e ∈ n.inorderTraversal, cmp aKey e.1 = .lt

theorem Below.step {k k' : K} {v v' : V} {c c' : FLLRBColor} {l l' r r' : FLLRBNode K V}
    (hbelow : Below cmp aKey (valueNode k v c l r))
    (hm : (valueNode k v c l r).beforeLeft = valueNode k' v' c' l' r') :
    cmp aKey k = .lt ∧ Below cmp aKey l'
      ∧ (valueNode k v c l r).inorderTraversal
        = l'.inorderTraversal ++ (k', v') :: r'.inorderTraversal := by
  have hentries : (valueNode k v c l r).inorderTraversal
      = l'.inorderTraversal ++ (k', v') :: r'.inorderTraversal := by
    rw [← inorderTraversal_beforeLeft, hm, inorderTraversal]
  refine ⟨hbelow (k, v) (by simp [inorderTraversal]), ?_, hentries⟩
  intro e he
  apply hbelow
  rw [hentries]
  simp [he]

/-- Nothing is found, and the tree is put back as it was. -/
def PutsBack (cmp : K → K → Ordering) (aKey : K) (V : Type) (c : FLLRBColor) (h : Nat) : Prop :=
  ∀ n : FLLRBNode K V, Balanced c h n → Below cmp aKey n →
    Balanced c h (n.remove cmp aKey)
      ∧ (n.remove cmp aKey).inorderTraversal = n.inorderTraversal

/-- A node with black children keeps its color: `fixUp` takes back what was lent. -/
theorem PutsBack.node {c : FLLRBColor} {h : Nat} {k : K} {v : V} {l r : FLLRBNode K V}
    (hblack : PutsBack cmp aKey V .black (h + 1)) (hred : PutsBack cmp aKey V .red h)
    (hl : Balanced .black (h + 1) l) (hr : Balanced .black (h + 1) r)
    (hbelow : Below cmp aKey (valueNode k v c l r)) :
    ∃ k' v' l' r', (valueNode k v c l r).remove cmp aKey = valueNode k' v' c l' r'
      ∧ Balanced .black (h + 1) l' ∧ Balanced .black (h + 1) r'
      ∧ ((valueNode k v c l r).remove cmp aKey).inorderTraversal
        = (valueNode k v c l r).inorderTraversal := by
  obtain ⟨k', v', c', l', r', hm, -, hready⟩ := beforeLeft_ready (k := k) (v := v) (c := c) hl hr
  obtain ⟨hlt, hbelow', hentries⟩ := hbelow.step hm
  rw [remove_step_left hlt hm, inorderTraversal_fixUp, hentries, inorderTraversal]
  cases hready with
  | leaning hl' hr' =>
    obtain ⟨hbal, hes⟩ := hblack l' hl'.balanced hbelow'
    rw [hes]
    exact ⟨k', v', _, r', fixUp_of_black hbal.isRed_of_black hr'.isRed_of_black, hbal, hr', rfl⟩
  | lent hl' hr' =>
    obtain ⟨hbal, hes⟩ := hred l' hl' hbelow'
    rw [hes]
    generalize l'.remove cmp aKey = m at hbal
    cases hbal with
    | red kl vl hll hlr =>
      cases hr' with
      | red kr vr hrl hrr =>
        rw [fixUp_of_red_red hll.isRed_of_black]
        refine ⟨k', v', _, _, ?_, .black kl vl hll hlr, .black kr vr hrl hrr, rfl⟩
        cases c <;> rfl

theorem putsBack (h : Nat) :
    PutsBack cmp aKey V .black h ∧ PutsBack cmp aKey V .red h := by
  induction h using Nat.strongRecOn with
  | ind h ih =>
    have hblack : PutsBack cmp aKey V .black h := by
      intro n hn hbelow
      cases hn with
      | empty => rw [remove_emptyNode]; exact ⟨.empty, rfl⟩
      | @black h cl l r k v hl hr =>
        cases hl with
        | empty =>
          obtain rfl := hr.eq_empty
          obtain ⟨hlt, -, -⟩ := hbelow.step beforeLeft_of_empty
          rw [remove_step_left hlt beforeLeft_of_empty, remove_emptyNode, fixUp_of_black rfl rfl]
          exact ⟨.black k v .empty .empty, rfl⟩
        | red kl vl hll hlr =>
          have hm := beforeLeft_of_red (k := k) (v := v) (c := .black) (r := r)
            (Balanced.red kl vl hll hlr).isRed_of_red
          obtain ⟨hlt, hbelow', hentries⟩ := hbelow.step hm
          obtain ⟨hbal, hes⟩ := (ih h (by omega)).2 _ (.red kl vl hll hlr) hbelow'
          rw [remove_step_left hlt hm, inorderTraversal_fixUp, inorderTraversal, hes]
          exact ⟨hbal.fixUp_black_right hr, rfl⟩
        | @black h' _ _ _ kl vl hll hlr =>
          obtain ⟨k', v', l', r', heq, hl', hr', hes⟩ := PutsBack.node
            (ih (h' + 1) (by omega)).1 (ih h' (by omega)).2 (.black kl vl hll hlr) hr hbelow
          refine ⟨?_, hes⟩
          rw [heq]
          exact .black k' v' hl' hr'
    refine ⟨hblack, ?_⟩
    intro n hn hbelow
    cases hn with
    | @red _ l r k v hl hr =>
      cases h with
      | zero =>
        obtain rfl := hl.eq_empty
        obtain rfl := hr.eq_empty
        obtain ⟨hlt, -, -⟩ := hbelow.step beforeLeft_of_empty
        rw [remove_step_left hlt beforeLeft_of_empty, remove_emptyNode, fixUp_of_black rfl rfl]
        exact ⟨.red k v .empty .empty, rfl⟩
      | succ h =>
        obtain ⟨k', v', l', r', heq, hl', hr', hes⟩ := PutsBack.node hblack (ih h (by omega)).2
          hl hr hbelow
        refine ⟨?_, hes⟩
        rw [heq]
        exact .red k' v' hl' hr'

/-- Removing a key below the whole tree changes neither the balance nor the entries. -/
theorem Balanced.remove_below {c : FLLRBColor} {h : Nat} {n : FLLRBNode K V}
    (hn : Balanced c h n) (hbelow : Below cmp aKey n) :
    Balanced c h (n.remove cmp aKey)
      ∧ (n.remove cmp aKey).inorderTraversal = n.inorderTraversal := by
  cases c with
  | red => exact (putsBack h).2 n hn hbelow
  | black => exact (putsBack h).1 n hn hbelow

end below

end FLLRBNode

end MeetupApp.Firebase
