import MeetupApp.Firebase.ShownNode
import MeetupApp.Firebase.ViewSteps

/-! # The event cache shows what it should

    The view processor changes the event cache only where an operation may have changed
    what is shown.  What should be shown is the server's data with the pending writes
    applied, and is known as soon as the server's data is complete or a pending write
    covers the location.

    A view is current but for the paths that a removed write affected; each operation
    of the server brings its path up to date. -/

namespace MeetupApp.Firebase

open SortedEntries FImmutableTree FCompoundWrite FIndexedFilter

namespace FViewProcessor

variable {K V : Type} {cmp scmp : K → K → Ordering}

/-! ## Section 1: Views that are current -/

/-- The server's data is complete, or a pending write covers the location. -/
def Known (cmp scmp : K → K → Ordering) [DecidableEq K] (ref : FWriteTreeRef K V)
    (view : FViewCache K V) : Prop :=
  view.cachedServerSnap.isFullyInitialized = true
    ∨ (ref.shadowingWriteAtPath cmp scmp []).isSome

/-- Once it is known what to show, the view shows it, but for affected paths that no
    pending write covers. -/
structure Current (cmp scmp : K → K → Ordering) [DecidableEq K] (ref : FWriteTreeRef K V)
    (affected : FPath K → Prop) (view : FViewCache K V) : Prop where
  complete : Known cmp scmp ref view → view.cachedEventSnap.isFullyInitialized = true
  leafAt : Known cmp scmp ref view → ∀ path,
    (affected path → (ref.shadowingWriteAtPath cmp scmp path).isSome) →
    view.cachedEventSnap.node.leafAt cmp path
      = (ref.shown cmp scmp view.cachedServerSnap.node).leafAt cmp path

/-- What every operation keeps. -/
structure Kept (cmp scmp : K → K → Ordering) [DecidableEq K] (interior : FPath K → Prop)
    (ref : FWriteTreeRef K V) (affected : FPath K → Prop) (origin : K → FNode K V)
    (r : Tracked K V) : Prop where
  sound : Sound cmp origin r
  fits : Fits cmp interior ref.path r.1.cachedServerSnap.node
  current : Current cmp scmp ref affected r.1

variable {debug : Bool} [DecidableEq K] {interior : FPath K → Prop} {ref : FWriteTreeRef K V}
  {affected affected' : FPath K → Prop} {origin : K → FNode K V} {view : FViewCache K V}
  {accumulator : FChildChangeAccumulator K V} {r : Tracked K V}

theorem Kept.mono (h : Kept cmp scmp interior ref affected origin r)
    (hmono : ∀ path, affected path → affected' path) :
    Kept cmp scmp interior ref affected' origin r :=
  ⟨h.sound, h.fits, h.current.complete,
    fun hknown path hpath => h.current.leafAt hknown path (fun ha => hpath (hmono path ha))⟩

/-- What was affected may all be covered. -/
theorem Kept.of_covered (h : Kept cmp scmp interior ref affected origin r)
    (hcovered : Known cmp scmp ref r.1 → ∀ path, affected path →
      (ref.shadowingWriteAtPath cmp scmp path).isSome) :
    Kept cmp scmp interior ref affected' origin r :=
  ⟨h.sound, h.fits, h.current.complete,
    fun hknown path _ => h.current.leafAt hknown path (hcovered hknown path)⟩

/-- Below a covered path everything is covered. -/
theorem isSome_shadowing_append (hvalid : Valid cmp scmp ref.writeTree.visibleWrites)
    {path : FPath K} (h : (ref.shadowingWriteAtPath cmp scmp path).isSome) (rest : FPath K) :
    (ref.shadowingWriteAtPath cmp scmp (path ++ rest)).isSome := by
  obtain ⟨node, hnode⟩ := Option.isSome_iff_exists.mp h
  have hbelow := completeNodeAtPath_append hvalid hnode rest
  rw [FPath.child, List.append_assoc] at hbelow
  rw [FWriteTreeRef.shadowingWriteAtPath, FPath.child, hbelow]
  rfl

theorem known_of_shadowing_none (hvalid : Valid cmp scmp ref.writeTree.visibleWrites)
    {path : FPath K} (hshadow : ref.shadowingWriteAtPath cmp scmp path = none)
    (hknown : Known cmp scmp ref view) : view.cachedServerSnap.isFullyInitialized = true := by
  refine hknown.resolve_right (fun hroot => ?_)
  have hpath := isSome_shadowing_append hvalid hroot path
  rw [List.nil_append, hshadow] at hpath
  cases hpath

/-- Without the server's data nothing is known, or everything is covered. -/
theorem Kept.of_incomplete (hvalid : Valid cmp scmp ref.writeTree.visibleWrites)
    (h : Kept cmp scmp interior ref affected origin r)
    (hincomplete : r.1.cachedServerSnap.isFullyInitialized = false) :
    Kept cmp scmp interior ref affected' origin r := by
  refine h.of_covered (fun hknown path _ => ?_)
  have hroot := hknown.resolve_left (by rw [hincomplete]; exact Bool.false_ne_true)
  exact isSome_shadowing_append hvalid hroot path

theorem current_of_known (h : Known cmp scmp ref view →
      view.cachedEventSnap = ⟨ref.shown cmp scmp view.cachedServerSnap.node, true⟩) :
    Current cmp scmp ref affected view :=
  ⟨fun hknown => by rw [h hknown], fun hknown path _ => by rw [h hknown]⟩

variable [Std.TransCmp cmp] [Std.TransCmp scmp] [Std.LawfulEqCmp scmp] [Std.LawfulEqCmp cmp]

/-- A current view shows the node that is computed from scratch. -/
theorem Kept.shown_eq (hvalid : Valid cmp scmp ref.writeTree.visibleWrites)
    (h : Kept cmp scmp interior ref (fun _ => False) origin r)
    (hknown : Known cmp scmp ref r.1) :
    r.1.cachedEventSnap = ⟨ref.shown cmp scmp r.1.cachedServerSnap.node, true⟩ := by
  have hnode := h.sound.event.ext_leafAt (FWriteTreeRef.pruned_shown hvalid h.sound.server)
    (fun path => h.current.leafAt hknown path (fun hfalse => hfalse.elim))
  rw [← hnode, ← h.current.complete hknown]

/-! ## Section 2: Operations of the server -/

section server
variable [DecidableEq V] (hvalid : Valid cmp scmp ref.writeTree.visibleWrites)
  (hinside : Inside interior ref.writeTree.visibleWrites.forEach)
include hvalid hinside

/-- After a change of the server's data at a path, the path is up to date. -/
theorem Kept.generate (h : Kept cmp scmp interior ref affected origin (view, accumulator))
    {path : FPath K} {snap : FNode K V} (hsnap : snap.Pruned cmp)
    (hfits : Fits cmp interior (ref.path ++ path) snap) {complete : Bool}
    (hcomplete : complete
      = (view.cachedServerSnap.isFullyInitialized || decide (path = []))) :
    ∃ r, generateEventCacheAfterServerEvent cmp scmp debug
          (view.updateServerSnap (view.cachedServerSnap.node.updateChild cmp path snap) complete)
          path ref accumulator = some r
      ∧ Kept cmp scmp interior ref (fun other => affected other ∧ ¬ path <+: other) origin r
      ∧ r.1.cachedServerSnap.isFullyInitialized = complete := by
  have hserver := h.sound.server
  have hserver' := hserver.updateChild hsnap path
  have hfits' := h.fits.updateChild hserver hfits
  have hopen := h.fits.openIn hinside
  have hopen' := hfits'.openIn hinside
  have hsound : Sound cmp origin (view.updateServerSnap
      (view.cachedServerSnap.node.updateChild cmp path snap) complete, accumulator) :=
    ⟨h.sound.event, hserver', h.sound.tracks⟩
  have hroot : path = [] → (view.updateServerSnap (view.cachedServerSnap.node.updateChild cmp path
      snap) complete).cachedServerSnap.isFullyInitialized = true := by
    intro hnil
    rw [decide_eq_true hnil, Bool.or_true] at hcomplete
    exact hcomplete
  obtain ⟨r, hr, hsoundr, hserverr, hcovered, hshown⟩ :=
    generateEventCacheAfterServerEvent_spec hvalid hsound hroot
  refine ⟨r, hr, ⟨hsoundr, by rw [hserverr]; exact hfits', ?_⟩, by rw [hserverr]; rfl⟩
  cases hshadow : ref.shadowingWriteAtPath cmp scmp path with
  | some node =>
    have hsome : (ref.shadowingWriteAtPath cmp scmp path).isSome := by rw [hshadow]; rfl
    have hsame := FWriteTreeRef.shown_updateChild_of_shadowing hvalid hserver hopen hsnap hopen'
      hsome
    -- If all is known now, it was known before.
    have hbefore : Known cmp scmp ref r.1 → Known cmp scmp ref view := by
      intro hknown
      rcases hknown with hfull | hroot
      · rw [hserverr] at hfull
        change complete = true at hfull
        rw [hcomplete, Bool.or_eq_true, decide_eq_true_iff] at hfull
        rcases hfull with hfull | hnil
        · exact .inl hfull
        · subst hnil
          exact .inr hsome
      · exact .inr hroot
    rw [hcovered hsome] at hbefore ⊢
    refine ⟨fun hknown => h.current.complete (hbefore hknown), ?_⟩
    intro hknown other hother
    have hbelow := h.current.leafAt (hbefore hknown) other (fun ha => by
      by_cases hpre : path <+: other
      · obtain ⟨rest, rfl⟩ := hpre
        exact isSome_shadowing_append hvalid hsome rest
      · exact hother ⟨ha, hpre⟩)
    exact hbelow.trans (by rw [← hsame]; rfl)
  | none =>
    have hevent : Known cmp scmp ref r.1 → r.1.cachedEventSnap
        = ⟨view.cachedEventSnap.node.updateChild cmp path
          ((ref.shown cmp scmp (view.cachedServerSnap.node.updateChild cmp path snap)).getChild cmp
            path), true⟩
        ∧ (Known cmp scmp ref view ∨ path = []) := by
      intro hknown
      have hfull := known_of_shadowing_none hvalid hshadow hknown
      rw [hserverr] at hfull
      have hor : view.cachedServerSnap.isFullyInitialized = true ∨ path = [] := by
        change complete = true at hfull
        rwa [hcomplete, Bool.or_eq_true, decide_eq_true_iff] at hfull
      exact ⟨hshown hshadow hfull (hor.imp_left (fun hs => h.current.complete (.inl hs))) hopen',
        hor.imp_left .inl⟩
    refine ⟨fun hknown => by rw [(hevent hknown).1], ?_⟩
    intro hknown other hother
    obtain ⟨heq, hbefore⟩ := hevent hknown
    have hserverEq : r.1.cachedServerSnap.node
        = view.cachedServerSnap.node.updateChild cmp path snap := by rw [hserverr]; rfl
    rw [heq, hserverEq, FNode.leafAt_updateChild h.sound.event]
    conv_rhs => rw [FWriteTreeRef.shown_updateChild hvalid hserver hopen hsnap hopen' hshadow,
      FNode.leafAt_updateChild (FWriteTreeRef.pruned_shown hvalid hserver)]
    by_cases hpre : path <+: other
    · rw [if_pos hpre, if_pos hpre]
    · rw [if_neg hpre, if_neg hpre]
      have hknownView := hbefore.resolve_right (fun hnil => hpre (by rw [hnil]; simp))
      rw [h.current.leafAt hknownView other (fun ha => hother ⟨ha, hpre⟩)]

theorem Kept.applyServerOverwriteTo
    (h : Kept cmp scmp interior ref affected origin (view, accumulator)) {path : FPath K}
    {snap : FNode K V} (hsnap : snap.Pruned cmp)
    (hfits : Fits cmp interior (ref.path ++ path) snap) :
    ∃ r, FViewProcessor.applyServerOverwriteTo cmp scmp debug view path snap ref accumulator
        = some r
      ∧ Kept cmp scmp interior ref (fun other => affected other ∧ ¬ path <+: other) origin r
      ∧ r.1.cachedServerSnap.isFullyInitialized
        = (view.cachedServerSnap.isFullyInitialized || decide (path = [])) := by
  unfold FViewProcessor.applyServerOverwriteTo
  cases path with
  | nil =>
    obtain ⟨r, hr, hkept, hfull⟩ := h.generate hvalid hinside hsnap hfits rfl
    rw [FNode.updateChild_nil, decide_eq_true rfl, Bool.or_true] at hr
    exact ⟨r, hr, hkept, hfull⟩
  | cons k path =>
    dsimp only
    rw [decide_eq_false (List.cons_ne_nil k path), Bool.or_false]
    by_cases hunknown : (!view.cachedServerSnap.isCompleteForPath cmp (k :: path)
        && decide ((k :: path).length > 1)) = true
    · -- The server's data is not there yet.
      rw [if_pos hunknown]
      refine ⟨_, rfl, h.of_incomplete hvalid ?_, rfl⟩
      rw [Bool.and_eq_true, Bool.not_eq_true', FCacheNode.isCompleteForPath,
        FCacheNode.isCompleteForChild, Bool.or_eq_false_iff] at hunknown
      exact hunknown.1.1
    · have hkeeps := keepsEqual_updateChild h.sound.server hsnap k path
      rw [if_neg hunknown, updateChildIn_none h.sound.server (fun _ => hkeeps),
        updated_eq h.sound.server hsnap]
      simp only [Option.bind_eq_bind, Option.bind_some]
      exact h.generate hvalid hinside hsnap hfits
        (by rw [decide_eq_false (List.cons_ne_nil k path), Bool.or_false])

theorem Kept.listenCompleteOldCache
    (h : Kept cmp scmp interior ref affected origin (view, accumulator)) (path : FPath K) :
    ∃ r, FViewProcessor.listenCompleteOldCache cmp scmp debug view path ref accumulator = some r
      ∧ Kept cmp scmp interior ref (fun other => affected other ∧ ¬ path <+: other) origin r
      ∧ r.1.cachedServerSnap.isFullyInitialized
        = (view.cachedServerSnap.isFullyInitialized || decide (path = [])) := by
  obtain ⟨r, hr, hkept⟩ := h.generate hvalid hinside (h.sound.server.getChild path)
    (h.fits.getChild path) rfl
  rw [FNode.updateChild_getChild h.sound.server] at hr
  exact ⟨r, hr, hkept⟩

/-! ## Section 3: Merges of the server -/

omit [Std.TransCmp cmp] [Std.LawfulEqCmp cmp] [DecidableEq V] hvalid hinside in
/-- A tree that writes below a key has a child there, if it does not write its root. -/
theorem exists_childCompoundWrites {merge : FCompoundWrite K V} (hmerge : Valid cmp scmp merge)
    (hroot : completeNodeAtPath cmp scmp merge [] = none) {k : K} {rest : FPath K}
    (hsome : (completeNodeAtPath cmp scmp merge (k :: rest)).isSome) :
    ∃ e ∈ merge.childCompoundWrites, e.1 = k := by
  cases hmerge with
  | leaf pruned =>
    rw [completeNodeAtPath_leaf] at hroot
    cases hroot
  | @node children ascending valid =>
    rw [completeNodeAtPath_cons, FImmutableTree.child] at hsome
    cases hlookup : lookup scmp k children with
    | none =>
      rw [hlookup, Option.getD_none, completeNodeAtPath_empty] at hsome
      cases hsome
    | some childTree => exact ⟨(k, childTree), (mem_iff_lookup ascending).mpr hlookup, rfl⟩

omit [DecidableEq V] hvalid hinside in
/-- What the merge of the server makes of a child fits there. -/
theorem fits_applyToNode_child {merge : FCompoundWrite K V} (hmerge : Valid cmp scmp merge)
    (hfit : WritesFit cmp scmp interior ref.path merge) {serverSnap : FNode K V}
    (hserver : serverSnap.Pruned cmp) (hserverFits : Fits cmp interior ref.path serverSnap)
    {e : K × FCompoundWrite K V} (he : e ∈ merge.childCompoundWrites) :
    (applyToNode cmp e.2 (serverSnap.getImmediateChild cmp e.1)).Pruned cmp
      ∧ Fits cmp interior (ref.path ++ [e.1])
        (applyToNode cmp e.2 (serverSnap.getImmediateChild cmp e.1)) := by
  have hchild := hserver.getImmediateChild e.1
  cases hmerge with
  | leaf pruned => cases he
  | @node children ascending valid =>
    have hvalidChild := valid e he
    refine ⟨pruned_applyToNode hvalidChild hchild, ?_⟩
    have hfitsChild := hserverFits.getChild [e.1]
    rw [FNode.getChild_cons, FNode.getChild_nil] at hfitsChild
    refine hfitsChild.applyToNode hchild hvalidChild ?_
    intro path node hnode
    rw [List.append_assoc]
    refine hfit (e.1 :: path) node ?_
    rwa [completeNodeAtPath_cons, child_of_mem ascending he]

theorem Kept.applyServerMergeTo
    (h : Kept cmp scmp interior ref affected origin (view, accumulator))
    {order : DictionaryOrder K V} (horder : ∀ l, (order l).Perm l) {path : FPath K}
    {changedChildren merge : FCompoundWrite K V}
    (hactual : (if path = [] then some changedChildren
      else addCompoundWrite cmp scmp emptyWrite changedChildren path) = some merge)
    (hmerge : Valid cmp scmp merge) (hfit : WritesFit cmp scmp interior ref.path merge) :
    ∃ r, FViewProcessor.applyServerMergeTo cmp scmp debug order view path changedChildren ref
          accumulator = some r
      ∧ Kept cmp scmp interior ref
        (fun other => affected other ∧ ∀ e ∈ merge.childCompoundWrites, ¬ [e.1] <+: other)
        origin r
      ∧ r.1.cachedServerSnap.isFullyInitialized = view.cachedServerSnap.isFullyInitialized := by
  unfold FViewProcessor.applyServerMergeTo
  by_cases hnothing : (view.cachedServerSnap.node.isEmpty
      && !view.cachedServerSnap.isFullyInitialized) = true
  · rw [if_pos hnothing]
    rw [Bool.and_eq_true, Bool.not_eq_true'] at hnothing
    exact ⟨_, rfl, h.of_incomplete hvalid hnothing.2, rfl⟩
  have hbranch : ∀ f : FCompoundWrite K V → Option (Tracked K V),
      (if path = [] then (some changedChildren).bind f
        else (addCompoundWrite cmp scmp emptyWrite changedChildren path).bind f) = f merge := by
    intro f
    by_cases hpath : path = []
    · rw [if_pos hpath] at hactual ⊢
      rw [hactual, Option.bind_some]
    · rw [if_neg hpath] at hactual ⊢
      rw [hactual, Option.bind_some]
  rw [if_neg hnothing]
  simp only [Option.bind_eq_bind]
  rw [hbranch]
  have hmem : ∀ e, e ∈ order merge.childCompoundWrites ↔ e ∈ merge.childCompoundWrites :=
    fun e => (horder _).mem_iff
  -- One child after another is brought up to date.
  have happly : ∀ e ∈ order merge.childCompoundWrites, ∀ (cur : Tracked K V)
      (affected : FPath K → Prop), Kept cmp scmp interior ref affected origin cur →
      ∃ r, FViewProcessor.applyServerOverwriteTo cmp scmp debug cur.1 [e.1] (applyToNode cmp e.2
            (view.cachedServerSnap.node.getImmediateChild cmp e.1)) ref cur.2 = some r
        ∧ Kept cmp scmp interior ref (fun other => affected other ∧ ¬ [e.1] <+: other) origin r
        ∧ r.1.cachedServerSnap.isFullyInitialized
          = cur.1.cachedServerSnap.isFullyInitialized := by
    intro e he cur affected hcur
    obtain ⟨hpruned, hfits⟩ := fits_applyToNode_child hmerge hfit h.sound.server h.fits
      ((hmem e).mp he)
    obtain ⟨r, hr, hkept, hfull⟩ := hcur.applyServerOverwriteTo hvalid hinside hpruned hfits
    rw [decide_eq_false (List.cons_ne_nil e.1 []), Bool.or_false] at hfull
    exact ⟨r, hr, hkept, hfull⟩
  let has (e : K × FCompoundWrite K V) : Bool := view.cachedServerSnap.node.hasChild cmp e.1
  let Inv (affected : FPath K → Prop) (kind : Bool) (done : List (K × FCompoundWrite K V))
      (cur : Tracked K V) : Prop :=
    Kept cmp scmp interior ref
        (fun other => affected other ∧ ∀ e ∈ done, has e = kind → ¬ [e.1] <+: other) origin cur
      ∧ cur.1.cachedServerSnap.isFullyInitialized = view.cachedServerSnap.isFullyInitialized
  have hdone : ∀ {affected : FPath K → Prop} {kind : Bool} {done : List (K × FCompoundWrite K V)}
      {e : K × FCompoundWrite K V} {cur : Tracked K V}, has e = kind →
      e ∈ order merge.childCompoundWrites → Inv affected kind done cur →
      ∃ r, FViewProcessor.applyServerOverwriteTo cmp scmp debug cur.1 [e.1] (applyToNode cmp e.2
            (view.cachedServerSnap.node.getImmediateChild cmp e.1)) ref cur.2 = some r
        ∧ Inv affected kind (done ++ [e]) r := by
    intro affected kind done e cur hkind he hinv
    obtain ⟨r, hr, hkept, hfull⟩ := happly e he cur _ hinv.1
    refine ⟨r, hr, hkept.mono ?_, hfull.trans hinv.2⟩
    intro other hother
    refine ⟨hother.1.1, ?_⟩
    intro e' he' hkind'
    rcases List.mem_append.mp he' with he' | he'
    · exact hother.1.2 e' he' hkind'
    · rw [List.mem_singleton.mp he']
      exact hother.2
  have hskipped : ∀ {affected : FPath K → Prop} {kind : Bool}
      {done : List (K × FCompoundWrite K V)} {e : K × FCompoundWrite K V} {cur : Tracked K V},
      has e ≠ kind → Inv affected kind done cur → Inv affected kind (done ++ [e]) cur := by
    intro affected kind done e cur hkind hinv
    refine ⟨hinv.1.mono ?_, hinv.2⟩
    intro other hother
    refine ⟨hother.1, ?_⟩
    intro e' he' hkind'
    rcases List.mem_append.mp he' with he' | he'
    · exact hother.2 e' he' hkind'
    · rw [List.mem_singleton.mp he'] at hkind'
      exact absurd hkind' hkind
  -- First the children that the server's data has.
  obtain ⟨first, hfirst, hinv⟩ := Runs.exists_foldlM
    (fun cur e => if view.cachedServerSnap.node.hasChild cmp e.1 then
      FViewProcessor.applyServerOverwriteTo cmp scmp debug cur.1 [e.1] (applyToNode cmp e.2
        (view.cachedServerSnap.node.getImmediateChild cmp e.1)) ref cur.2
      else some cur) (view, accumulator) (order merge.childCompoundWrites) (Inv affected true) (by
      intro done e cur he hinv
      by_cases hhas : view.cachedServerSnap.node.hasChild cmp e.1 = true
      · obtain ⟨r, hr, hnext⟩ := hdone hhas he hinv
        exact ⟨r, by rw [if_pos hhas, hr], hnext⟩
      · exact ⟨cur, by rw [if_neg hhas], hskipped hhas hinv⟩)
    ⟨h.mono (fun other hother => ⟨hother, by simp⟩), rfl⟩
  -- Then the others, which an incomplete view may not know enough of.
  obtain ⟨r, hsecond, hkept, hfull⟩ := Runs.exists_foldlM
    (fun cur e => if !view.cachedServerSnap.node.hasChild cmp e.1
        && !(!view.cachedServerSnap.isCompleteForChild cmp e.1 && e.2.value.isNone) then
      FViewProcessor.applyServerOverwriteTo cmp scmp debug cur.1 [e.1] (applyToNode cmp e.2
        (view.cachedServerSnap.node.getImmediateChild cmp e.1)) ref cur.2
      else some cur) first (order merge.childCompoundWrites)
    (Inv (fun other => affected other
      ∧ ∀ e ∈ order merge.childCompoundWrites, has e = true → ¬ [e.1] <+: other) false) (by
      intro done e cur he hinv
      by_cases happlied : (!view.cachedServerSnap.node.hasChild cmp e.1
          && !(!view.cachedServerSnap.isCompleteForChild cmp e.1 && e.2.value.isNone)) = true
      · have hhas : has e = false := by
          rw [Bool.and_eq_true, Bool.not_eq_true'] at happlied
          exact happlied.1
        obtain ⟨r, hr, hnext⟩ := hdone hhas he hinv
        exact ⟨r, by rw [if_pos happlied, hr], hnext⟩
      · refine ⟨cur, by rw [if_neg happlied], ?_⟩
        by_cases hhas : has e = false
        · -- The child is not complete, so neither is the server's data.
          have hincomplete : view.cachedServerSnap.isFullyInitialized = false := by
            change view.cachedServerSnap.node.hasChild cmp e.1 = false at hhas
            rw [hhas, FCacheNode.isCompleteForChild, hhas] at happlied
            cases hfull : view.cachedServerSnap.isFullyInitialized with
            | false => rfl
            | true =>
              rw [hfull] at happlied
              exact absurd rfl happlied
          exact ⟨hinv.1.of_incomplete hvalid (hinv.2.trans hincomplete), hinv.2⟩
        · exact hskipped hhas hinv)
    ⟨hinv.1.mono (fun other hother => ⟨hother, by simp⟩), hinv.2⟩
  refine ⟨r, ?_, hkept.mono ?_, hfull⟩
  · rw [hfirst]
    exact hsecond
  · intro other hother
    refine ⟨hother.1.1, ?_⟩
    intro e he
    cases hhas : has e with
    | true => exact hother.1.2 e ((hmem e).mpr he) hhas
    | false => exact hother.2 e ((hmem e).mpr he) hhas

end server

end FViewProcessor

end MeetupApp.Firebase
