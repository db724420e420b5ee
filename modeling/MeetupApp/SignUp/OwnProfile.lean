import Mathlib.Data.String.Basic
import MeetupApp.SignUp.Interleaving

/-! # Whose profile a sign-up writes

    `saveProfile` writes to the profile of whoever is signed in when it runs,
    with what the form shows at that moment.  This module says exactly when that
    is the profile, the email and the name of the sign-up it belongs to. -/

namespace MeetupApp.SignUp

open Firebase

variable {K : Type} [LinearOrder K]

/-! ## Section 1: The property and the condition -/

/-- The value that is set is at the profile of the account that the sign-up created, and
    what it stores is the email and the display name of that account. -/
structure Saved.Consistent (e : Saved K) : Prop where
  set : ∃ object, e.write = .profile e.signUp.uid object ∧
    field (nodeFrom object) "email" = some (.string e.signUp.email) ∧
    field (nodeFrom object) "username" = some (.string e.signUp.displayName)

def LogConsistent (s : State K) : Prop := ∀ e ∈ s.log, e.Consistent

/-- Every write of a sign-up is about its own account, and what other profiles hold,
    their records included, is what they held at first. -/
structure OwnProfileOnly (db₀ : Database K) (s : State K) : Prop where
  consistent : LogConsistent s
  records : ∀ uid, (∀ e ∈ s.log, e.signUp.uid ≠ uid) →
    ∀ id, s.db.record uid id = db₀.record uid id
  fields : ∀ uid, (∀ e ∈ s.log, e.signUp.uid ≠ uid) →
    s.db.profileFields[uid]? = db₀.profileFields[uid]?

/-- When `commitChanges` completes, nobody is signed in, or the new account is and the
    form still shows its email and its name. -/
def Unchanged (s : State K) : Label K → Prop
  | .committed i => ∀ p, s.committing[i]? = some p → s.currentUser = none ∨
      (s.currentUser = some p.uid ∧ s.screen.lblEmail = p.email ∧
        s.screen.lblUserName = p.displayName)
  | _ => True

instance (s : State K) : ∀ l, Decidable (Unchanged s l)
  | .committed i => inferInstanceAs (Decidable (∀ p ∈ s.committing[i]?, s.currentUser = none ∨
      (s.currentUser = some p.uid ∧ s.screen.lblEmail = p.email ∧
        s.screen.lblUserName = p.displayName)))
  | .edit _ _ | .signOut | .signIn _ | .tap | .created _ _ | .refused _ | .accept =>
    isTrue trivial

/-! ## Section 2: The background -/

/-- No write of the log names this profile. -/
def Unnamed (s : State K) (uid : K) : Prop :=
  ∀ e ∈ s.log, ∀ object, e.write ≠ .profile uid object

/-- Writes are logged profile writes, and profiles that none of them names are as they
    were. -/
structure Background (db₀ : Database K) (s : State K) : Prop where
  profile : ∀ e ∈ s.log, ∃ uid object, e.write = .profile uid object
  writes : ∀ w ∈ s.writes, ∃ e ∈ s.log, w = e.write
  records : ∀ uid, Unnamed s uid → ∀ id, s.db.record uid id = db₀.record uid id
  fields : ∀ uid, Unnamed s uid → s.db.profileFields[uid]? = db₀.profileFields[uid]?

theorem background_initial (db : Database K) (accounts : List (Account K))
    (currentUser : Option K) : Background db (State.initial db accounts currentUser) where
  profile e he := by cases he
  writes w hw := by cases hw
  records _ _ _ := rfl
  fields _ _ := rfl

theorem background_step {db₀ : Database K} {s s' : State K} {l : Label K}
    (hb : Background db₀ s) (h : step s l = some s') : Background db₀ s' := by
  rcases step_cases h with ⟨hdb, hw, hlog, -⟩ | ⟨i, p, uid, w, -, -, -, hwrite, hdb, hw, hlog⟩ |
    ⟨w, rest, -, hout, hdb, hw, hlog⟩
  · have hunnamed : ∀ uid, Unnamed s' uid → Unnamed s uid := by
      intro uid hu
      rwa [Unnamed, hlog] at hu
    refine ⟨?_, ?_, ?_, ?_⟩
    · rw [hlog]
      exact hb.profile
    · rw [hw, hlog]
      exact hb.writes
    · rw [hdb]
      exact fun u hu => hb.records u (hunnamed u hu)
    · rw [hdb]
      exact fun u hu => hb.fields u (hunnamed u hu)
  · have hunnamed : ∀ uid, Unnamed s' uid → Unnamed s uid := by
      intro uid hu e he
      exact hu e (by rw [hlog]; exact List.mem_append_left _ he)
    refine ⟨?_, ?_, ?_, ?_⟩
    · intro e he
      rw [hlog] at he
      rcases List.mem_append.mp he with hold | hnew
      · exact hb.profile e hold
      · obtain rfl := List.mem_singleton.mp hnew
        exact ⟨uid, _, hwrite⟩
    · intro v hv
      rw [hw] at hv
      rw [hlog]
      rcases List.mem_append.mp hv with hold | hnew
      · obtain ⟨e, he, rfl⟩ := hb.writes v hold
        exact ⟨e, List.mem_append_left _ he, rfl⟩
      · exact ⟨⟨p, w⟩, by simp, List.mem_singleton.mp hnew⟩
    · rw [hdb]
      exact fun u hu => hb.records u (hunnamed u hu)
    · rw [hdb]
      exact fun u hu => hb.fields u (hunnamed u hu)
  · -- The write that is applied names a uid of the log.
    obtain ⟨e, he, rfl⟩ := hb.writes w (by rw [hout]; simp)
    obtain ⟨uid, object, hprofile⟩ := hb.profile e he
    have hne : ∀ u, Unnamed s' u → uid ≠ u := by
      rintro u hu rfl
      exact hu e (by rwa [hlog]) object hprofile
    have hunnamed : ∀ u, Unnamed s' u → Unnamed s u := by
      intro u hu
      rwa [Unnamed, hlog] at hu
    refine ⟨?_, ?_, ?_, ?_⟩
    · rw [hlog]
      exact hb.profile
    · intro v hv
      rw [hw] at hv
      rw [hlog]
      exact hb.writes v (by rw [hout]; exact List.mem_cons_of_mem _ hv)
    · intro u hu id
      rw [hdb, hprofile, record_apply_profile, if_neg (Ne.symm (hne u hu))]
      exact hb.records u (hunnamed u hu) id
    · intro u hu
      rw [hdb, hprofile, apply_profile_fields, ChildMap.getElem?_put_of_ne _ _ (hne u hu)]
      exact hb.fields u (hunnamed u hu)

/-- With a consistent log, the profiles that writes name are those of their sign-ups. -/
theorem ownProfileOnly_of_consistent {db₀ : Database K} {s : State K} (hb : Background db₀ s)
    (h : LogConsistent s) : OwnProfileOnly db₀ s := by
  have hunnamed : ∀ uid, (∀ e ∈ s.log, e.signUp.uid ≠ uid) → Unnamed s uid := by
    intro uid huid e he object hwrite
    obtain ⟨_, hset, -⟩ := (h e he).set
    rw [hwrite] at hset
    injection hset with hsame
    exact huid e he hsame.symm
  exact ⟨h, fun uid huid => hb.records uid (hunnamed uid huid),
    fun uid huid => hb.fields uid (hunnamed uid huid)⟩

omit [LinearOrder K] in
/-- A write of `saveProfile` is consistent if it went to the new account with what the
    account was created with. -/
theorem consistent_iff (p : Pending K) (uid : K) (userName userEmail : String) :
    (⟨p, .profile uid (profileObject userName userEmail)⟩ : Saved K).Consistent ↔
      uid = p.uid ∧ userEmail = p.email ∧ userName = p.displayName := by
  constructor
  · rintro ⟨object, hwrite, hemail, hname⟩
    injection hwrite with huid hobject
    subst hobject
    have hstored : some (Value.string userEmail) = some (.string p.email) := hemail
    have hshown : some (Value.string userName) = some (.string p.displayName) := hname
    injection hstored with hstored
    injection hshown with hshown
    injection hstored with hstored
    injection hshown with hshown
    exact ⟨huid, hstored, hshown⟩
  · rintro ⟨rfl, rfl, rfl⟩
    exact ⟨_, rfl, rfl, rfl⟩

/-! ## Section 3: Good and bad completions -/

theorem log_mono {s s' : State K} {l : Label K} (h : step s l = some s') {e : Saved K}
    (he : e ∈ s.log) : e ∈ s'.log := by
  rcases step_cases h with ⟨-, -, hlog, -⟩ | ⟨i, p, uid, w, -, -, -, -, -, -, hlog⟩ |
    ⟨w, rest, -, -, -, -, hlog⟩
  · rwa [hlog]
  · rw [hlog]
    exact List.mem_append_left _ he
  · rwa [hlog]

theorem logConsistent_step {s s' : State K} {l : Label K} (hc : LogConsistent s)
    (hun : Unchanged s l) (h : step s l = some s') : LogConsistent s' := by
  unfold LogConsistent at hc ⊢
  rcases step_cases h with ⟨-, -, hlog, -⟩ | ⟨i, p, uid, w, rfl, hp, huser, rfl, -, -, hlog⟩ |
    ⟨w, rest, -, -, -, -, hlog⟩
  · rwa [hlog]
  · intro a ha
    rw [hlog] at ha
    rcases List.mem_append.mp ha with hold | hnew
    -- What was logged before stays consistent.
    · exact hc a hold
    · obtain rfl := List.mem_singleton.mp hnew
      rcases hun p hp with hnone | ⟨hsame, hemail, hname⟩
      · rw [huser] at hnone
        cases hnone
      · rw [huser] at hsame
        exact (consistent_iff p uid _ _).mpr ⟨Option.some.inj hsame, hemail, hname⟩
  · rwa [hlog]

theorem not_logConsistent_of_changed {s s' : State K} {l : Label K} (hun : ¬ Unchanged s l)
    (h : step s l = some s') : ¬ LogConsistent s' := by
  intro hall
  rcases step_cases h with ⟨-, -, -, hnone⟩ | ⟨i, p, uid, w, rfl, hp, huser, rfl, -, -, hlog⟩ |
    ⟨w, rest, rfl, -, -, -, -⟩
  · -- Nothing was logged, so nobody was signed in.
    apply hun
    cases l with
    | committed i =>
      intro p hp
      refine Or.inl (Option.eq_none_iff_forall_ne_some.mpr ?_)
      intro uid huid
      exact hnone i p uid rfl hp huid
    | edit text field => trivial
    | signOut => trivial
    | signIn uid => trivial
    | tap => trivial
    | created i uid => trivial
    | refused i => trivial
    | accept => trivial
  -- The new log entry is consistent, so the session and the form were unchanged.
  · apply hun
    intro q hq
    obtain rfl : p = q := Option.some.inj (hp.symm.trans hq)
    have hcons := hall _ (by rw [hlog]; exact List.mem_append_right _ (List.mem_singleton.mpr rfl))
    obtain ⟨hsame, hemail, hname⟩ := (consistent_iff p uid _ _).mp hcons
    exact Or.inr ⟨huser.trans (congrArg some hsame), hemail, hname⟩
  · exact hun trivial

/-! ## Section 4: The result -/

/-- **Exactly when sign-ups keep to their own profile.**  Over every interleaving of
    sign-ups with edits of the form, sign-outs and sign-ins: all profile writes are
    about the account of their sign-up, and all other profiles are untouched, if and
    only if no completion of `commitChanges` finds a changed session or form. -/
theorem ownProfileOnly_iff_unchanged {db : Database K} {accounts : List (Account K)}
    {currentUser : Option K} {ls : List (Label K)} {s : State K}
    (hrun : Runs.exec step (State.initial db accounts currentUser) ls = some s) :
    OwnProfileOnly db s ↔
      Runs.StepsMeet step Unchanged (State.initial db accounts currentUser) ls :=
  Runs.end_iff_stepsMeet (fun _ _ _ hb h => background_step hb h)
    (fun _ _ _ _ hc hun h => logConsistent_step hc hun h)
    (fun _ hb hc => ownProfileOnly_of_consistent hb hc)
    (fun _ _ _ _ _ hun h hown => not_logConsistent_of_changed hun h hown.consistent)
    (fun _ _ _ hb hnot h hown => hnot (ownProfileOnly_of_consistent hb
      (fun e he => hown.consistent e (log_mono h he))))
    (background_initial db accounts currentUser) (fun e he => by cases he) hrun

/-! ## Section 5: A change of accounts during and after a sign-up -/

/-- Ana signs up, and the completion of `commitChanges` finds Luis signed in. -/
def accountSwitched : List (Label String) :=
  [.edit "ana@mail" .email, .edit "Ana" .userName, .edit "secret" .confirmPassword,
   .edit "secret" .password, .tap, .created 0 "ana", .signOut, .signIn "luis", .committed 0,
   .accept]

/-- The same sign-up, but Luis signs in only after `commitChanges` has completed. -/
def undisturbed : List (Label String) :=
  [.edit "ana@mail" .email, .edit "Ana" .userName, .edit "secret" .confirmPassword,
   .edit "secret" .password, .tap, .created 0 "ana", .committed 0, .signOut, .signIn "luis",
   .edit "luis@mail" .email, .accept]

/-- Luis has one ticket. -/
def luisHasTicket : Database String :=
  Database.empty.apply (.profileEvents "luis" "e1" [("Tickets", .strings ["A1"])])

theorem accountSwitched_ends :
    (Runs.exec step (State.initial luisHasTicket [⟨"luis", "luis@mail"⟩] none)
      accountSwitched).map (fun s => (s.log.map (fun e => e.signUp.uid),
        (s.db.record "luis" "e1").isSome)) = some (["ana"], false) := by
  decide +kernel

theorem accountSwitched_notOwn :
    ∃ s, Runs.exec step (State.initial luisHasTicket [⟨"luis", "luis@mail"⟩] none)
        accountSwitched = some s ∧ ¬ OwnProfileOnly luisHasTicket s := by
  obtain ⟨s, hs, hends⟩ := Option.map_eq_some_iff.mp accountSwitched_ends
  obtain ⟨hlog, hrecord⟩ := Prod.mk.inj hends
  refine ⟨s, hs, ?_⟩
  intro hown
  -- No sign-up was for the account of Luis, and yet his ticket is gone.
  have hother : ∀ e ∈ s.log, e.signUp.uid ≠ "luis" := by
    intro e he
    have huid : e.signUp.uid ∈ ["ana"] := hlog ▸ List.mem_map_of_mem he
    rw [List.mem_singleton.mp huid]
    decide
  rw [hown.records "luis" hother "e1"] at hrecord
  exact absurd hrecord (by decide +kernel)

/-- The equivalence at these two runs: nothing was changed in the first, and one
    completion of the second found a changed session. -/
theorem undisturbed_accountSwitched :
    (∃ s, Runs.exec step (State.initial luisHasTicket [⟨"luis", "luis@mail"⟩] none)
        undisturbed = some s ∧ OwnProfileOnly luisHasTicket s) ∧
    ¬ Runs.StepsMeet step Unchanged (State.initial luisHasTicket [⟨"luis", "luis@mail"⟩] none)
      accountSwitched := by
  constructor
  · have hruns : (Runs.exec step (State.initial luisHasTicket [⟨"luis", "luis@mail"⟩] none)
        undisturbed).isSome := by decide +kernel
    obtain ⟨s, hrun⟩ := Option.isSome_iff_exists.mp hruns
    exact ⟨s, hrun, (ownProfileOnly_iff_unchanged hrun).mpr (by decide +kernel)⟩
  · obtain ⟨s, hrun, hnot⟩ := accountSwitched_notOwn
    exact fun hun => hnot ((ownProfileOnly_iff_unchanged hrun).mpr hun)

/-- **Another account's tickets erased.**  The sign-up of one account replaces the
    profile of another, and the ticket in it is gone. -/
theorem tickets_erased :
    ¬ ∀ (db : Database String) (accounts : List (Account String)) (currentUser : Option String)
        (ls : List (Label String)) (s : State String),
      Runs.exec step (State.initial db accounts currentUser) ls = some s → OwnProfileOnly db s := by
  intro hall
  obtain ⟨s, hrun, hnot⟩ := accountSwitched_notOwn
  exact hnot (hall _ _ _ _ s hrun)

end MeetupApp.SignUp
