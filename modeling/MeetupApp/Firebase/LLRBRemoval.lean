import MeetupApp.Firebase.LLRBMoves

/-! # Removal from a red-black tree

    One specification for red trees, one for `Leaning` trees, and one for the
    tree with a red right child that `moveRedRight` leaves on the way to the
    key.  The entry that is found is replaced by the smallest one of the right
    child, through which a second removal of the key then runs without finding
    anything. -/

namespace MeetupApp.Firebase

open SortedEntries

namespace FLLRBNode

variable {K V : Type}

section remove
variable {cmp : K → K → Ordering} {aKey : K}

/-! ## Section 1: One child -/

/-- `remove:` turns `n` into a tree with property `Q` and without the entry of `aKey`. -/
def Removes (cmp : K → K → Ordering) (aKey : K) (Q : FLLRBNode K V → Prop)
    (n : FLLRBNode K V) : Prop :=
  Ascending cmp n.inorderTraversal →
    Q (n.remove cmp aKey) ∧ (n.remove cmp aKey).inorderTraversal
      = erase cmp aKey n.inorderTraversal

/-- The right child gives up its smallest entry, and `aKey`, which it does not have. -/
def GivesUp (cmp : K → K → Ordering) (aKey : K) (Q : FLLRBNode K V → Prop)
    (n : FLLRBNode K V) : Prop :=
  Below cmp aKey n →
    Q (n.removeMin.remove cmp aKey) ∧ (n.removeMin.remove cmp aKey).inorderTraversal
      = n.inorderTraversal.tail

theorem GivesUp.of_removeMin {n : FLLRBNode K V} {Q : FLLRBNode K V → Prop} {h : Nat}
    {c : FLLRBColor} (hbal : Balanced c h n.removeMin)
    (hes : n.removeMin.inorderTraversal = n.inorderTraversal.tail)
    (hQ : ∀ m, Balanced c h m → Q m) : GivesUp cmp aKey Q n := by
  intro hbelow
  have hbelow' : Below cmp aKey n.removeMin := by
    intro e he
    rw [hes] at he
    exact hbelow e (List.mem_of_mem_tail he)
  obtain ⟨hbal', hes'⟩ := hbal.remove_below hbelow'
  exact ⟨hQ _ hbal', hes'.trans hes⟩

/-- A red tree, and a leaning one, can give up an entry. -/
theorem Balanced.givesUp {h : Nat} {n : FLLRBNode K V} (hn : Balanced .red h n) :
    GivesUp cmp aKey (fun m => ∃ c, Balanced c h m) n := by
  obtain ⟨⟨c, hbal⟩, hes⟩ := hn.removeMin_red
  exact .of_removeMin hbal hes (fun m hm => ⟨c, hm⟩)

theorem Leaning.givesUp {h : Nat} {n : FLLRBNode K V} (hn : Leaning h n) :
    GivesUp cmp aKey (Balanced .black (h + 1)) n := by
  obtain ⟨hbal, hes⟩ := hn.removeMin (fun _ hm => hm.removeMin_red)
  exact .of_removeMin hbal hes (fun _ hm => hm)

/-- A tree of one node. -/
theorem removes_single (k : K) (v : V) (c : FLLRBColor) :
    Removes cmp aKey (fun n => n = emptyNode ∨ n = valueNode k v c emptyNode emptyNode)
      (valueNode k v c emptyNode emptyNode) := by
  intro _
  have hright := beforeRight_of_empty (k := k) (v := v) (c := c) (l := emptyNode) rfl
  cases hcmp : cmp aKey k with
  | lt =>
    rw [remove_step_left hcmp beforeLeft_of_empty, remove_emptyNode, fixUp_of_black rfl rfl]
    exact ⟨.inr rfl, (erase_cons_lt hcmp).symm⟩
  | eq =>
    have heq : (valueNode k v c emptyNode emptyNode).remove cmp aKey = emptyNode := by
      rw [remove, dif_neg (by simp [isEmpty]), if_neg (by simp [key, hcmp]), hright]
      simp [key, hcmp, right, isEmpty]
    rw [heq]
    exact ⟨.inl rfl, (erase_cons_eq hcmp).symm⟩
  | gt =>
    rw [remove_step_right (by simp [hcmp]) hright hcmp, remove_emptyNode,
      fixUp_of_black rfl rfl]
    exact ⟨.inr rfl, by simp [inorderTraversal, erase, hcmp]⟩

section step
variable [Std.TransCmp cmp] {Q : FLLRBNode K V → Prop} {k k' : K} {v v' : V}
  {c c' : FLLRBColor} {l l' r r' : FLLRBNode K V}

/-- A key below the root is removed from the left child. -/
theorem Removes.left (hrec : Removes cmp aKey Q l') (hk : cmp aKey k = .lt)
    (hm : (valueNode k v c l r).beforeLeft = valueNode k' v' c' l' r')
    (hkey : k' = k ∨ (k, v) ∈ l'.inorderTraversal)
    (hasc : Ascending cmp (valueNode k v c l r).inorderTraversal) :
    ∃ m, (valueNode k v c l r).remove cmp aKey = (valueNode k' v' c' m r').fixUp ∧ Q m
      ∧ ((valueNode k v c l r).remove cmp aKey).inorderTraversal
        = erase cmp aKey (valueNode k v c l r).inorderTraversal := by
  have hentries : (valueNode k v c l r).inorderTraversal
      = l'.inorderTraversal ++ (k', v') :: r'.inorderTraversal := by
    rw [← inorderTraversal_beforeLeft, hm, inorderTraversal]
  rw [hentries] at hasc ⊢
  have hsplit := ascending_split.mp hasc
  have hk' : cmp aKey k' = .lt := by
    rcases hkey with rfl | hmem
    · exact hk
    · exact Std.TransCmp.lt_trans hk (hsplit.below _ hmem)
  obtain ⟨hQ, hes⟩ := hrec hsplit.left
  refine ⟨_, remove_step_left hk hm, hQ, ?_⟩
  rw [remove_step_left hk hm, inorderTraversal_fixUp, inorderTraversal, hes,
    erase_append_lt _ _ hk']

/-- A key at or above the root is removed from the right child; at the root, the
    smallest entry of the right child moves up. -/
theorem Removes.right (hrec : Removes cmp aKey Q r') (hup : GivesUp cmp aKey Q r')
    (hr' : r'.isEmpty = false) (hk : cmp aKey k ≠ .lt)
    (hm : (valueNode k v c l r).beforeRight = valueNode k' v' c' l' r')
    (hk' : cmp aKey k' ≠ .lt)
    (hasc : Ascending cmp (valueNode k v c l r).inorderTraversal) :
    ∃ k'' v'' m, (valueNode k v c l r).remove cmp aKey = (valueNode k'' v'' c' l' m).fixUp ∧ Q m
      ∧ ((valueNode k v c l r).remove cmp aKey).inorderTraversal
        = erase cmp aKey (valueNode k v c l r).inorderTraversal := by
  have hentries : (valueNode k v c l r).inorderTraversal
      = l'.inorderTraversal ++ (k', v') :: r'.inorderTraversal := by
    rw [← inorderTraversal_beforeRight, hm, inorderTraversal]
  rw [hentries] at hasc ⊢
  have hsplit := ascending_split.mp hasc
  rw [erase_append_gt _ (hsplit.gt_left hk')]
  cases hcmp : cmp aKey k' with
  | lt => exact absurd hcmp hk'
  | gt =>
    obtain ⟨hQ, hes⟩ := hrec hsplit.right
    refine ⟨_, _, _, remove_step_right hk hm hcmp, hQ, ?_⟩
    rw [remove_step_right hk hm hcmp, inorderTraversal_fixUp, inorderTraversal, hes,
      erase_cons_gt hcmp]
  | eq =>
    obtain ⟨hQ, hes⟩ := hup (hsplit.lt_right (by simp [hcmp]))
    obtain ⟨e, es, hhead, hkey, hvalue⟩ := exists_head hr'
    refine ⟨_, _, _, remove_step_found hk hm hcmp hr', hQ, ?_⟩
    rw [remove_step_found hk hm hcmp hr', inorderTraversal_fixUp, inorderTraversal, hes,
      erase_cons_eq hcmp, hkey, hvalue, hhead]
    rfl

end step

/-! ## Section 2: Whole trees -/

section trees
variable [Std.TransCmp cmp] {h : Nat}

/-- What is proved of red trees of height `h`. -/
def RemovesRed (cmp : K → K → Ordering) (V : Type) (h : Nat) : Prop :=
  ∀ (n : FLLRBNode K V) (aKey : K), Balanced .red h n →
    Removes cmp aKey (fun m => ∃ c, Balanced c h m) n

/-- From a leaning tree: to the left there is the red child, to the right the old
    root, which has become red. -/
theorem RemovesRed.leaning (ih : RemovesRed cmp V h) {n : FLLRBNode K V} (hn : Leaning h n)
    (aKey : K) : Removes cmp aKey (Balanced .black (h + 1)) n := by
  intro hasc
  by_cases hlt : ∃ k, n.key = some k ∧ cmp aKey k = .lt
  · cases hn with
    | @intro l r k v hl hr =>
      obtain ⟨k', hk', hlt⟩ := hlt
      obtain rfl := Option.some.inj hk'
      obtain ⟨m, heq, ⟨c, hm⟩, hes⟩ := (ih l aKey hl).left hlt
        (beforeLeft_of_red hl.isRed_of_red) (.inl rfl) hasc
      refine ⟨?_, hes⟩
      rw [heq]
      exact hm.fixUp_black_right hr
  · obtain ⟨k, v, k', v', l, a, b, rfl, hm, hl, hr⟩ := beforeRight_of_leaning hn
    have hk : cmp aKey k ≠ .lt := fun h => hlt ⟨k, rfl, h⟩
    have hk' : cmp aKey k' ≠ .lt := by
      simp only [inorderTraversal] at hasc
      have hbelow := (ascending_split.mp hasc).below (k', v') (by simp)
      intro hlt'
      exact hk (Std.TransCmp.lt_trans hlt' hbelow)
    obtain ⟨k'', v'', m, heq, ⟨c, hbal⟩, hes⟩ := (ih _ aKey hr).right hr.givesUp rfl hk hm hk' hasc
    refine ⟨?_, hes⟩
    rw [heq]
    exact hl.fixUp_black_left hbal

/-- From the tree with a red right child that `moveRedRight` leaves. -/
theorem RemovesRed.turned (ih : RemovesRed cmp V h) {k : K} {v : V} {l r : FLLRBNode K V}
    (hl : Balanced .black h l) (hr : Balanced .red h r) (hk : cmp aKey k ≠ .lt) :
    Removes cmp aKey (Balanced .black (h + 1)) (valueNode k v .black l r) := by
  intro hasc
  have hm : (valueNode k v .black l r).beforeRight = valueNode k v .black l r := by
    simp [beforeRight, left, right, hl.isRed_of_black, hr.isRed_of_red]
  obtain ⟨k', v', m, heq, ⟨c, hbal⟩, hes⟩ := (ih r aKey hr).right hr.givesUp
    (isEmpty_of_isRed hr.isRed_of_red) hk hm hk hasc
  refine ⟨?_, hes⟩
  rw [heq]
  exact hl.fixUp_black_left hbal

/-- One step of `remove:` from a node with black children, whatever its color. -/
theorem RemovesRed.node (ih : RemovesRed cmp V h) {k : K} {v : V} {c : FLLRBColor}
    {l r : FLLRBNode K V} (hl : Balanced .black (h + 1) l) (hr : Balanced .black (h + 1) r) :
    Removes cmp aKey (fun n => ∃ k' v' l' r', (n = (valueNode k' v' c l' r').fixUp
        ∧ Balanced .black (h + 1) l' ∧ Balanced .black (h + 1) r')
      ∨ (∃ cl cr, n = (valueNode k' v' c.opposite l' r').fixUp ∧ Balanced cl h l'
        ∧ Balanced cr h r')) (valueNode k v c l r) := by
  intro hasc
  by_cases hk : cmp aKey k = .lt
  · obtain ⟨k', v', c', l', r', hm, hkey, hready⟩ := beforeLeft_ready (k := k) (v := v) (c := c)
      hl hr
    cases hready with
    | leaning hl' hr' =>
      obtain ⟨m, heq, hbal, hes⟩ := (ih.leaning hl' aKey).left hk hm hkey hasc
      exact ⟨⟨k', v', m, r', .inl ⟨heq, hbal, hr'⟩⟩, hes⟩
    | lent hl' hr' =>
      obtain ⟨m, heq, ⟨cl, hbal⟩, hes⟩ := (ih l' aKey hl').left hk hm hkey hasc
      exact ⟨⟨k', v', m, r', .inr ⟨cl, .red, heq, hbal, hr'⟩⟩, hes⟩
  · obtain ⟨k', v', c', l', r', hm, hready⟩ := beforeRight_ready (k := k) (v := v) (c := c) hl hr
    cases hready with
    | leaning hl' hr' =>
      obtain ⟨k'', v'', m, heq, hbal, hes⟩ := (ih.leaning hr' aKey).right hr'.givesUp
        (by cases hr'; rfl) hk hm hk hasc
      exact ⟨⟨k'', v'', l', m, .inl ⟨heq, hl', hbal⟩⟩, hes⟩
    | lent hl' hr' =>
      obtain ⟨k'', v'', m, heq, ⟨cr, hbal⟩, hes⟩ := (ih r' aKey hr').right hr'.givesUp
        (isEmpty_of_isRed hr'.isRed_of_red) hk hm hk hasc
      exact ⟨⟨k'', v'', l', m, .inr ⟨.red, cr, heq, hl', hbal⟩⟩, hes⟩
    | @turned _ a b _ hl' ha hb =>
      -- The new root is smaller than the old one, so the key is still to the right.
      have hlt : cmp k' k = .lt := by
        have hentries := (valueNode k v c l r).inorderTraversal_beforeRight
        rw [hm] at hentries
        rw [← hentries, inorderTraversal] at hasc
        exact (ascending_split.mp hasc).above (k, v) (by simp [inorderTraversal])
      have hgt : cmp aKey k' ≠ .lt := fun h => hk (Std.TransCmp.lt_trans h hlt)
      have hup : GivesUp cmp aKey (Balanced .black (h + 1)) (valueNode k v .black a b) :=
        fun hbelow => absurd (hbelow (k, v) (by simp [inorderTraversal])) hk
      obtain ⟨k'', v'', m, heq, hbal, hes⟩ := (ih.turned ha hb hk).right hup rfl hk hm hgt hasc
      exact ⟨⟨k'', v'', l', m, .inl ⟨heq, hl', hbal⟩⟩, hes⟩

/-- By induction on the black height: from a red tree a key is removed within the height. -/
theorem removesRed (h : Nat) : RemovesRed cmp V h := by
  induction h with
  | zero =>
    intro n aKey hn hasc
    cases hn with
    | red k v hl hr =>
      obtain rfl := hl.eq_empty
      obtain rfl := hr.eq_empty
      obtain ⟨heq, hes⟩ := removes_single k v .red hasc
      refine ⟨?_, hes⟩
      rcases heq with heq | heq <;> rw [heq]
      · exact ⟨_, .empty⟩
      · exact ⟨_, .red k v .empty .empty⟩
  | succ h ih =>
    intro n aKey hn hasc
    cases hn with
    | red k v hl hr =>
      obtain ⟨⟨k', v', l', r', hcase⟩, hes⟩ := ih.node (k := k) (v := v) (c := .red) hl hr hasc
      refine ⟨?_, hes⟩
      rcases hcase with ⟨heq, hl', hr'⟩ | ⟨cl, cr, heq, hl', hr'⟩ <;> rw [heq]
      · exact ⟨_, hl'.fixUp_red hr'⟩
      · exact hl'.fixUp_black hr'

/-- The color of the root is set to black after every operation. -/
theorem Balanced.setBlack {c : FLLRBColor} {n : FLLRBNode K V} (hn : Balanced c h n) :
    ∃ h', Balanced .black h' (n.copyWith none none (some .black) none none) := by
  cases hn with
  | empty => exact ⟨_, .empty⟩
  | red k v hl hr => exact ⟨_, .black k v hl hr⟩
  | black k v hl hr => exact ⟨_, .black k v hl hr⟩

/-- A red node above children of any color is repaired by blackening it. -/
theorem Balanced.setBlack_fixUp {cl cr : FLLRBColor} {k : K} {v : V} {l r : FLLRBNode K V}
    (hl : Balanced cl h l) (hr : Balanced cr h r) :
    ∃ h', Balanced .black h'
      ((valueNode k v .red l r).fixUp.copyWith none none (some .black) none none) := by
  cases cr with
  | black =>
    cases cl with
    | black => exact (hl.fixUp_red hr).setBlack
    | red =>
      cases hl with
      | red kl vl hll hlr =>
        rw [fixUp_of_red_left hll.isRed_of_black hr.isRed_of_black]
        exact ⟨_, .black k v (.red kl vl hll hlr) hr⟩
  | red =>
    cases hr with
    | red kr vr hrl hrr =>
      cases cl with
      | black =>
        rw [fixUp_of_red_right hl.isRed_of_black hrr.isRed_of_black]
        exact ⟨_, .black kr vr (.red k v hl hrl) hrr⟩
      | red =>
        cases hl with
        | red kl vl hll hlr =>
          rw [fixUp_of_red_red hll.isRed_of_black]
          exact ⟨_, .black k v (.black kl vl hll hlr) (.black kr vr hrl hrr)⟩

/-- Removal from a whole tree, whose root is black. -/
theorem Balanced.remove_root {n : FLLRBNode K V} (hn : Balanced .black h n) :
    Removes cmp aKey (fun m => ∃ h', Balanced .black h'
      (m.copyWith none none (some .black) none none)) n := by
  intro hasc
  cases hn with
  | empty =>
    rw [remove_emptyNode]
    exact ⟨⟨_, .empty⟩, rfl⟩
  | @black h c l r k v hl hr =>
    cases hl with
    | red kl vl hll hlr =>
      obtain ⟨hbal, hes⟩ := (removesRed h).leaning (.intro k v (.red kl vl hll hlr) hr) aKey hasc
      exact ⟨hbal.setBlack, hes⟩
    | empty =>
      obtain rfl := hr.eq_empty
      obtain ⟨heq, hes⟩ := removes_single k v .black hasc
      refine ⟨?_, hes⟩
      rcases heq with heq | heq <;> rw [heq]
      · exact ⟨_, .empty⟩
      · exact ⟨_, .black k v .empty .empty⟩
    | @black h _ _ _ kl vl hll hlr =>
      obtain ⟨⟨k', v', l', r', hcase⟩, hes⟩ := (removesRed h).node (k := k) (v := v) (c := .black)
        (.black kl vl hll hlr) hr hasc
      refine ⟨?_, hes⟩
      rcases hcase with ⟨heq, hl', hr'⟩ | ⟨cl, cr, heq, hl', hr'⟩ <;> rw [heq]
      · exact (hl'.fixUp_black_right hr').setBlack
      · exact hl'.setBlack_fixUp hr'

end trees

end remove

end FLLRBNode

end MeetupApp.Firebase
