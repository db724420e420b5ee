import Mathlib.Data.String.Basic
import MeetupApp.SignUp.Interleaving

/-! # Sign-up attempts whose steps fail

    A sign-up creates an account, commits its display name and sets its
    profile.  When one of the later steps fails, nothing takes back the earlier
    ones: the account exists without a profile, and every further attempt with
    its email is answered with "Your email is In Use".

    The result: accounts and profiles come together if and only if each attempt
    that gets its account also gets its profile.  That each failed attempt can be
    completed as well takes, in addition, equal passwords and an unused email. -/

namespace MeetupApp.SignUp

open Firebase

variable {K : Type}

/-! ## Section 1: Attempts -/

/-- An account, with the user name of the attempt that created it. -/
structure Registered (K : Type) where
  uid : K
  email : String
  userName : String

/-- The accounts and the profiles. -/
structure Service (K : Type) [LinearOrder K] where
  accounts : List (Registered K)
  db : Database K

/-- One attempt: what the form shows throughout, the uid that a new account would get,
    and how the backend answers. -/
structure Attempt (K : Type) where
  screen : SignUpViewController
  uid : K
  /-- the error of `createUser`, if it fails although the email is not in use -/
  createError : Option AuthErrorCode
  commitSucceeds : Bool
  saveSucceeds : Bool

variable [LinearOrder K]

/-- The email has an account. -/
def Service.InUse (s : Service K) (email : String) : Prop :=
  email ∈ s.accounts.map (·.email)

instance (s : Service K) (email : String) : Decidable (s.InUse email) :=
  inferInstanceAs (Decidable (email ∈ s.accounts.map (·.email)))

/-- The answer of `createUser`. -/
def createUser (s : Service K) (a : Attempt K) (email : String) : Option AuthErrorCode :=
  if s.InUse email then some .emailAlreadyInUse else a.createError

/-- The new account. -/
def Service.register (s : Service K) (a : Attempt K) : Service K :=
  { s with accounts := ⟨a.uid, a.screen.lblEmail, a.screen.lblUserName⟩ :: s.accounts }

/-- One attempt, with the form and the session unchanged until it is over: the
    service afterwards, and the alert it ends with. -/
def attempt (s : Service K) (a : Attempt K) : Service K × Option Alert :=
  match signUpButtonTapped a.screen with
  | .inr alert => (s, some alert)
  | .inl (email, _) =>
    match createUser s a email with
    -- The switch over the error code; the fields are left as they are.
    | some code => (s, some (createUserAlert code))
    | none =>
      if a.commitSucceeds then
        -- The new account is current, so the guard of `saveProfile` passes.
        match commitChangesCompleted a.screen (some a.uid) with
        | some w =>
          if a.saveSucceeds then
            ({ s.register a with db := s.db.apply w }, saveProfileCompleted true)
          -- The failed `setValue` has no alert of its own.
          else (s.register a, saveProfileCompleted false)
        | none => (s.register a, none)
      -- The account stays, although its display name could not be stored.
      else (s.register a, some commitChangesAlert)

/-- An attempt is a tap on the enabled button, and a new account gets an unused uid. -/
def attemptStep (s : Service K) (a : Attempt K) : Option (Service K) :=
  if a.screen.signUpButton ∧ ∀ r ∈ s.accounts, r.uid ≠ a.uid then some (attempt s a).1 else none

/-! ## Section 2: How an attempt ends -/

/-- The attempt gets as far as a new account. -/
structure Creates (s : Service K) (a : Attempt K) : Prop where
  passwords : a.screen.lblPassword = a.screen.lblConfirmPassword
  created : createUser s a a.screen.lblEmail = none

/-- The profile write of an attempt. -/
def Attempt.write (a : Attempt K) : Write K :=
  .profile a.uid (profileObject a.screen.lblUserName a.screen.lblEmail)

/-- Without a new account nothing changes, and no such attempt ends with "You are Singed". -/
theorem attempt_of_not_creates {s : Service K} {a : Attempt K} (h : ¬ Creates s a) :
    (attempt s a).1 = s ∧ (attempt s a).2 ≠ some signedAlert := by
  unfold attempt signUpButtonTapped
  by_cases hpass : a.screen.lblPassword = a.screen.lblConfirmPassword
  · rw [if_pos hpass]
    cases hcreate : createUser s a a.screen.lblEmail with
    | none => exact absurd ⟨hpass, hcreate⟩ h
    | some code =>
      simp only [hcreate, true_and]
      cases code <;> decide
  · have hne : passwordsAlert ≠ signedAlert := by decide
    rw [if_neg hpass]
    exact ⟨rfl, fun heq => hne (Option.some.inj heq)⟩

/-- With a new account, the attempt ends in one of three ways. -/
theorem attempt_of_creates {s : Service K} {a : Attempt K} (h : Creates s a) :
    attempt s a =
      if a.commitSucceeds then
        if a.saveSucceeds then
          ({ s.register a with db := s.db.apply a.write }, some signedAlert)
        else (s.register a, none)
      else (s.register a, some commitChangesAlert) := by
  unfold attempt signUpButtonTapped
  rw [if_pos h.passwords]
  simp only [h.created]
  rfl

/-! ## Section 3: All or nothing -/

/-- Every account comes with its profile: the email and the user name it was created
    with. -/
def AllOrNothing (s : Service K) : Prop :=
  ∀ r ∈ s.accounts, HoldsProfile s.db r.uid r.userName r.email

/-- No profile without an account. -/
def NoStray (s : Service K) : Prop :=
  ∀ uid, uid ∉ s.accounts.map (·.uid) → s.db.profileFields[uid]? = none

/-- An attempt that gets its account also gets its profile. -/
def Completes (s : Service K) (a : Attempt K) : Prop :=
  Creates s a → a.commitSucceeds = true ∧ a.saveSucceeds = true

/-- The same data, once the backend works. -/
def Attempt.retry (a : Attempt K) (uid : K) : Attempt K :=
  { a with uid := uid, createError := none, commitSucceeds := true, saveSucceeds := true }

/-- If an attempt does not end with "You are Singed", then a further attempt with the same
    data does once the backend works. -/
def Completable (s : Service K) (a : Attempt K) : Prop :=
  (attempt s a).2 ≠ some signedAlert →
    ∀ uid, (attempt (attempt s a).1 (a.retry uid)).2 = some signedAlert

/-- The attempt could succeed, and if it gets its account it does. -/
structure Sound (s : Service K) (a : Attempt K) : Prop where
  passwords : a.screen.lblPassword = a.screen.lblConfirmPassword
  unused : ¬ s.InUse a.screen.lblEmail
  completes : a.createError = none → a.commitSucceeds = true ∧ a.saveSucceeds = true

instance (s : Service K) (a : Attempt K) : Decidable (Sound s a) :=
  decidable_of_iff (a.screen.lblPassword = a.screen.lblConfirmPassword ∧
    ¬ s.InUse a.screen.lblEmail ∧
    (a.createError = none → a.commitSucceeds = true ∧ a.saveSucceeds = true))
    ⟨fun h => ⟨h.1, h.2.1, h.2.2⟩, fun h => ⟨h.passwords, h.unused, h.completes⟩⟩

theorem attemptStep_eq_some {s s' : Service K} {a : Attempt K} (h : attemptStep s a = some s') :
    (a.screen.signUpButton = true ∧ a.uid ∉ s.accounts.map (·.uid)) ∧ s' = (attempt s a).1 := by
  unfold attemptStep at h
  split at h
  · next hen =>
    refine ⟨⟨hen.1, ?_⟩, (Option.some.inj h).symm⟩
    intro hmem
    obtain ⟨r, hr, huid⟩ := List.mem_map.mp hmem
    exact hen.2 r hr huid
  · cases h

/-- What an attempt leaves behind: nothing, a new account, or a new account with its
    profile. -/
theorem attempt_cases (s : Service K) (a : Attempt K) :
    (¬ Creates s a ∧ (attempt s a).1 = s) ∨
    (Creates s a ∧ ¬ (a.commitSucceeds = true ∧ a.saveSucceeds = true) ∧
      (attempt s a).1 = s.register a) ∨
    (Creates s a ∧ (a.commitSucceeds = true ∧ a.saveSucceeds = true) ∧
      (attempt s a).1 = { s.register a with db := s.db.apply a.write }) := by
  by_cases hc : Creates s a
  · rw [attempt_of_creates hc]
    by_cases hcommit : a.commitSucceeds = true <;> by_cases hsave : a.saveSucceeds = true <;>
      simp [hc, hcommit, hsave]
  · exact Or.inl ⟨hc, (attempt_of_not_creates hc).1⟩

theorem mem_register {s : Service K} {a : Attempt K} {r : Registered K} :
    r ∈ (s.register a).accounts ↔
      r = ⟨a.uid, a.screen.lblEmail, a.screen.lblUserName⟩ ∨ r ∈ s.accounts :=
  List.mem_cons

theorem uid_ne_of_fresh {s : Service K} {uid : K} (hfresh : uid ∉ s.accounts.map (·.uid))
    {r : Registered K} (hr : r ∈ s.accounts) : uid ≠ r.uid := by
  intro heq
  exact hfresh (heq ▸ List.mem_map_of_mem hr)

theorem noStray_step {s s' : Service K} {a : Attempt K} (hj : NoStray s)
    (h : attemptStep s a = some s') : NoStray s' := by
  obtain ⟨⟨-, hfresh⟩, rfl⟩ := attemptStep_eq_some h
  rcases attempt_cases s a with ⟨-, heq⟩ | ⟨-, -, heq⟩ | ⟨-, -, heq⟩ <;> rw [heq]
  · exact hj
  · intro uid huid
    exact hj uid (fun hmem => huid (List.mem_cons_of_mem _ hmem))
  · intro uid huid
    have hne : a.uid ≠ uid := by
      intro heq
      exact huid (heq ▸ List.mem_cons_self)
    show (s.db.apply a.write).profileFields[uid]? = none
    rw [Attempt.write, profileFields_saved, if_neg hne]
    exact hj uid (fun hmem => huid (List.mem_cons_of_mem _ hmem))

/-- A profile that was there before an attempt is there afterwards, and only then. -/
theorem holdsProfile_attempt {s s' : Service K} {a : Attempt K} (h : attemptStep s a = some s')
    {r : Registered K} (hr : r ∈ s.accounts) :
    r ∈ s'.accounts ∧
      (HoldsProfile s'.db r.uid r.userName r.email ↔
        HoldsProfile s.db r.uid r.userName r.email) := by
  obtain ⟨⟨-, hfresh⟩, rfl⟩ := attemptStep_eq_some h
  rcases attempt_cases s a with ⟨-, heq⟩ | ⟨-, -, heq⟩ | ⟨-, -, heq⟩ <;> rw [heq]
  · exact ⟨hr, Iff.rfl⟩
  · exact ⟨mem_register.mpr (Or.inr hr), Iff.rfl⟩
  · exact ⟨mem_register.mpr (Or.inr hr),
      holdsProfile_saved_other s.db (uid_ne_of_fresh hfresh hr) _ _ _ _⟩

theorem allOrNothing_step {s s' : Service K} {a : Attempt K} (hall : AllOrNothing s)
    (hc : Completes s a) (h : attemptStep s a = some s') : AllOrNothing s' := by
  intro r hr
  by_cases hold : r ∈ s.accounts
  · exact (holdsProfile_attempt h hold).2.mpr (hall r hold)
  · obtain ⟨-, rfl⟩ := attemptStep_eq_some h
    rcases attempt_cases s a with ⟨-, heq⟩ | ⟨hcr, hnot, -⟩ | ⟨-, -, heq⟩
    · rw [heq] at hr
      exact absurd hr hold
    · exact absurd (hc hcr) hnot
    · -- The new account has just been given its profile.
      rw [heq] at hr ⊢
      rcases mem_register.mp hr with rfl | hr
      · exact holdsProfile_saved s.db _ _ _
      · exact absurd hr hold

theorem not_allOrNothing_of_incomplete {s s' : Service K} {a : Attempt K} (hj : NoStray s)
    (hc : ¬ Completes s a) (h : attemptStep s a = some s') : ¬ AllOrNothing s' := by
  obtain ⟨⟨-, hfresh⟩, rfl⟩ := attemptStep_eq_some h
  unfold Completes at hc
  rw [Classical.not_imp] at hc
  rcases attempt_cases s a with ⟨hno, -⟩ | ⟨-, -, heq⟩ | ⟨-, hyes, -⟩
  · exact absurd hc.1 hno
  · intro hall
    rw [heq] at hall
    -- The new uid had no profile, and this attempt did not write one.
    have hprofile := (hall _ (mem_register.mpr (Or.inl rfl))).1
    have hnone : s.db.profileFields[a.uid]? = none := hj a.uid hfresh
    rw [show (s.register a).db = s.db from rfl, hnone] at hprofile
    cases hprofile
  · exact absurd hyes hc.2

/-- An account without its profile stays without it. -/
theorem not_allOrNothing_step {s s' : Service K} {a : Attempt K} (hnot : ¬ AllOrNothing s)
    (h : attemptStep s a = some s') : ¬ AllOrNothing s' := by
  intro hall
  apply hnot
  intro r hr
  obtain ⟨hmem, hiff⟩ := holdsProfile_attempt h hr
  exact hiff.mp (hall r hmem)

/-! ## Section 4: Trying again -/

/-- The email of an attempt that gets its account is not in use, and `createUser` has
    answered without an error. -/
theorem creates_iff {s : Service K} {a : Attempt K} :
    Creates s a ↔ a.screen.lblPassword = a.screen.lblConfirmPassword ∧
      ¬ s.InUse a.screen.lblEmail ∧ a.createError = none := by
  constructor
  · rintro ⟨hpass, hcreated⟩
    unfold createUser at hcreated
    split at hcreated
    · cases hcreated
    · next hunused => exact ⟨hpass, hunused, hcreated⟩
  · rintro ⟨hpass, hunused, herror⟩
    exact ⟨hpass, by rw [createUser, if_neg hunused, herror]⟩

theorem Sound.completes_of {s : Service K} {a : Attempt K} (h : Sound s a) : Completes s a :=
  fun hcreates => h.completes (creates_iff.mp hcreates).2.2

/-- Once the backend works, a repeated attempt succeeds exactly while the passwords are
    equal and the email is unused. -/
theorem retry_succeeds_iff (s : Service K) (a : Attempt K) (uid : K) :
    (attempt s (a.retry uid)).2 = some signedAlert ↔
      a.screen.lblPassword = a.screen.lblConfirmPassword ∧ ¬ s.InUse a.screen.lblEmail := by
  have hcreates : Creates s (a.retry uid) ↔
      a.screen.lblPassword = a.screen.lblConfirmPassword ∧ ¬ s.InUse a.screen.lblEmail := by
    rw [creates_iff]
    exact and_congr_right fun _ => and_iff_left rfl
  rw [← hcreates]
  constructor
  · intro hsigned
    by_contra hnot
    exact (attempt_of_not_creates hnot).2 hsigned
  · intro hc
    rw [attempt_of_creates hc]
    rfl

/-- Where every account gets its profile, a failed attempt can be repeated. -/
theorem completable_of_sound {s : Service K} {a : Attempt K} (h : Sound s a) :
    Completable s a := by
  intro hfailed uid
  rcases attempt_cases s a with ⟨-, heq⟩ | ⟨hcr, hnot, -⟩ | ⟨hcr, hyes, -⟩
  · rw [heq]
    exact (retry_succeeds_iff s a uid).mpr ⟨h.passwords, h.unused⟩
  · exact absurd (h.completes_of hcr) hnot
  · rw [attempt_of_creates hcr, if_pos hyes.1, if_pos hyes.2] at hfailed
    exact absurd rfl hfailed

/-- An attempt that keeps accounts and profiles together and can be completed is sound. -/
theorem sound_of_completable {s : Service K} {a : Attempt K} (hc : Completes s a)
    (h : Completable s a) : Sound s a := by
  by_cases hcr : Creates s a
  · obtain ⟨hpass, hunused, -⟩ := creates_iff.mp hcr
    exact ⟨hpass, hunused, fun _ => hc hcr⟩
  · -- The attempt failed and changed nothing, so its repetition is told the same.
    obtain ⟨heq, hfailed⟩ := attempt_of_not_creates hcr
    have hretry := h hfailed a.uid
    rw [heq] at hretry
    obtain ⟨hpass, hunused⟩ := (retry_succeeds_iff s a a.uid).mp hretry
    exact ⟨hpass, hunused, fun herror => absurd (creates_iff.mpr ⟨hpass, hunused, herror⟩) hcr⟩

/-! ## Section 5: The result -/

/-- Accounts and profiles come together in every state of a run if and only if each
    attempt that gets its account also gets its profile. -/
theorem alongRun_iff_completes {s₀ s : Service K} {as : List (Attempt K)}
    (hstray : NoStray s₀) (hall : AllOrNothing s₀)
    (hrun : Runs.exec attemptStep s₀ as = some s) :
    Runs.AlongRun attemptStep AllOrNothing s₀ as ↔ Runs.StepsMeet attemptStep Completes s₀ as := by
  have hJ : ∀ (s : Service K) a s', NoStray s → attemptStep s a = some s' → NoStray s' :=
    fun _ _ _ hj h => noStray_step hj h
  have hlast : ∀ (s : Service K) a s', NoStray s → ¬ AllOrNothing s →
      attemptStep s a = some s' → ¬ AllOrNothing s' :=
    fun _ _ _ _ hnot h => not_allOrNothing_step hnot h
  rw [Runs.alongRun_iff_end hJ hlast hstray hrun]
  exact Runs.end_iff_stepsMeet hJ (fun _ _ _ _ ha hc h => allOrNothing_step ha hc h)
    (fun _ _ ha => ha) (fun _ _ _ hj _ hc h => not_allOrNothing_of_incomplete hj hc h) hlast
    hstray hall hrun

/-- **Exactly when sign-up is all or nothing.**  Over every sequence of attempts: every
    account has its profile after each attempt, and every attempt that did not end with
    "You are Singed" can be completed by another one, if and only if in each attempt the
    passwords are equal, the email is not in use, and the account, if it is created, gets
    its profile. -/
theorem allOrNothing_iff_sound {s₀ s : Service K} {as : List (Attempt K)}
    (hstray : NoStray s₀) (hall : AllOrNothing s₀)
    (hrun : Runs.exec attemptStep s₀ as = some s) :
    (Runs.AlongRun attemptStep AllOrNothing s₀ as ∧
      Runs.StepsMeet attemptStep Completable s₀ as) ↔
    Runs.StepsMeet attemptStep Sound s₀ as := by
  rw [alongRun_iff_completes hstray hall hrun]
  constructor
  · rintro ⟨hcompletes, hcompletable⟩
    exact (hcompletes.and hcompletable).mono (fun _ _ h => sound_of_completable h.1 h.2)
  · intro h
    exact ⟨h.mono (fun _ _ hs => hs.completes_of), h.mono (fun _ _ hs => completable_of_sound hs)⟩

/-! ## Section 6: Attempts as runs of the machine -/

/-- No sign-up is under way. -/
structure Idle (s : State K) : Prop where
  creating : s.creating = []
  committing : s.committing = []
  writes : s.writes = []

/-- The machine after an undisturbed sign-up with the form it shows. -/
def State.signedUp (s : State K) (uid : K) : State K :=
  { s with
    currentUser := some uid
    accounts := s.accounts ++ [⟨uid, s.screen.lblEmail⟩]
    creating := []
    committing := []
    writes := []
    db := s.db.apply (.profile uid (profileObject s.screen.lblUserName s.screen.lblEmail))
    log := s.log ++ [⟨⟨uid, s.screen.lblEmail, s.screen.lblUserName⟩,
      .profile uid (profileObject s.screen.lblUserName s.screen.lblEmail)⟩] }

/-- A tap and its three completions, with nothing in between. -/
theorem exec_signUp {s : State K} {uid : K} (hidle : Idle s)
    (hbutton : s.screen.signUpButton = true)
    (hpass : s.screen.lblPassword = s.screen.lblConfirmPassword)
    (huid : uid ∉ s.accounts.map (·.uid))
    (hemail : s.screen.lblEmail ∉ s.accounts.map (·.email)) :
    Runs.exec step s [.tap, .created 0 uid, .committed 0, .accept] = some (s.signedUp uid) := by
  let s₁ : State K := { s with creating := [(s.screen.lblEmail, s.screen.lblPassword)] }
  let s₂ : State K := s₁.create 0 uid s.screen.lblEmail
  let p : Pending K := ⟨uid, s.screen.lblEmail, s.screen.lblUserName⟩
  have htap : step s .tap = some s₁ := by
    have htapped : signUpButtonTapped s.screen = .inl (s.screen.lblEmail, s.screen.lblPassword) :=
      if_pos hpass
    simp only [step, hbutton, htapped, hidle.creating, if_pos]
    rfl
  have hcreated : step s₁ (.created 0 uid) = some s₂ := if_pos ⟨huid, hemail⟩
  have hcommitting : s₂.committing = [p] := by
    show s.committing ++ [p] = [p]
    rw [hidle.committing]
    rfl
  have hcommitted : step s₂ (.committed 0) = some (s₂.commit 0 p) := by
    simp only [step, hcommitting]
    rfl
  -- The completion of `commitChanges` finds the new account signed in, and the old form.
  have hwrites : (s₂.commit 0 p).writes
      = [.profile uid (profileObject s.screen.lblUserName s.screen.lblEmail)] := by
    show s.writes ++ [_] = [_]
    rw [hidle.writes]
    rfl
  have haccept : step (s₂.commit 0 p) .accept = some (s.signedUp uid) := by
    have hnone : s₂.committing.eraseIdx 0 = [] := by
      rw [hcommitting]
      rfl
    simp only [step, hwrites]
    show some ({ s.signedUp uid with committing := s₂.committing.eraseIdx 0 } : State K) = _
    rw [hnone]
    rfl
  rw [Runs.exec_cons, htap, Option.bind_some, Runs.exec_cons, hcreated, Option.bind_some,
    Runs.exec_cons, hcommitted, Option.bind_some, Runs.exec_cons, haccept, Option.bind_some,
    Runs.exec_nil]

/-- The machine of the interleavings holds the same accounts and the same database. -/
structure SameService (s : State K) (service : Service K) : Prop where
  db : s.db = service.db
  uids : ∀ uid, uid ∈ s.accounts.map (·.uid) ↔ uid ∈ service.accounts.map (·.uid)
  emails : ∀ email, email ∈ s.accounts.map (·.email) ↔ email ∈ service.accounts.map (·.email)

theorem sameService_signedUp {s : State K} {service : Service K} {a : Attempt K}
    (hsame : SameService s service) (hscreen : s.screen = a.screen) :
    SameService (s.signedUp a.uid)
      { service.register a with db := service.db.apply a.write } := by
  refine ⟨?_, ?_, ?_⟩
  · show s.db.apply (.profile a.uid (profileObject s.screen.lblUserName s.screen.lblEmail)) = _
    rw [hsame.db, hscreen]
    rfl
  · intro uid
    show uid ∈ (s.accounts ++ [(⟨a.uid, s.screen.lblEmail⟩ : Account K)]).map (·.uid) ↔
      uid ∈ a.uid :: service.accounts.map (·.uid)
    rw [List.map_append, List.mem_append, hsame.uids, List.mem_cons]
    simp [or_comm]
  · intro email
    show email ∈ (s.accounts ++ [(⟨a.uid, s.screen.lblEmail⟩ : Account K)]).map (·.email) ↔
      email ∈ a.screen.lblEmail :: service.accounts.map (·.email)
    rw [List.map_append, List.mem_append, hsame.emails, List.mem_cons, hscreen]
    simp [or_comm]

/-- An attempt in which nothing fails is a run of the machine of the interleavings. -/
theorem exec_attempt {s : State K} {service service' : Service K} {a : Attempt K}
    (hidle : Idle s) (hsame : SameService s service) (hscreen : s.screen = a.screen)
    (hstep : attemptStep service a = some service') (hcreates : Creates service a)
    (hsucceeds : a.commitSucceeds = true ∧ a.saveSucceeds = true) :
    ∃ s', Runs.exec step s [.tap, .created 0 a.uid, .committed 0, .accept] = some s' ∧
      Idle s' ∧ SameService s' service' := by
  obtain ⟨⟨hbutton, hfresh⟩, rfl⟩ := attemptStep_eq_some hstep
  have huid : a.uid ∉ s.accounts.map (·.uid) := fun h => hfresh ((hsame.uids _).mp h)
  have hemail : s.screen.lblEmail ∉ s.accounts.map (·.email) := by
    rw [hscreen]
    exact fun h => (creates_iff.mp hcreates).2.1 ((hsame.emails _).mp h)
  refine ⟨s.signedUp a.uid, ?_, ⟨rfl, rfl, rfl⟩, ?_⟩
  · exact exec_signUp hidle (by rw [hscreen, hbutton]) (by rw [hscreen, hcreates.passwords]) huid
      hemail
  · rw [attempt_of_creates hcreates, if_pos hsucceeds.1, if_pos hsucceeds.2]
    exact sameService_signedUp hsame hscreen

/-! ## Section 7: Attempts on an empty service -/

def Service.empty : Service K := ⟨[], Database.empty⟩

theorem noStray_empty : NoStray (Service.empty : Service K) := by
  intro uid _
  show (∅ : ChildMap K Value)[uid]? = none
  rw [Std.ExtTreeMap.getElem?_empty]

theorem allOrNothing_empty : AllOrNothing (Service.empty : Service K) := by
  intro r hr
  cases hr

/-- Ana's attempt, with the answers of the backend. -/
def anaAttempt (createError : Option AuthErrorCode) (commitSucceeds saveSucceeds : Bool) :
    Attempt String where
  screen := ⟨"Ana", "ana@mail", "secret", "secret", true⟩
  uid := "ana"
  createError := createError
  commitSucceeds := commitSucceeds
  saveSucceeds := saveSucceeds

/-- Luis' attempt, in which nothing fails. -/
def luisAttempt : Attempt String where
  screen := ⟨"Luis", "luis@mail", "qwerty", "qwerty", true⟩
  uid := "luis"
  createError := none
  commitSucceeds := true
  saveSucceeds := true

/-- Ana is offline at first, Luis signs up, and Ana tries again. -/
def offlineFirst : List (Attempt String) :=
  [anaAttempt (some .networkError) true true, luisAttempt, anaAttempt none true true]

/-- Luis signs up, and then again. -/
def luisTwice : List (Attempt String) :=
  [luisAttempt, { luisAttempt with uid := "luis2" }]

/-- The equivalence at both runs: his second attempt finds the email in use, and cannot be
    completed. -/
theorem offlineFirst_allOrNothing :
    (∃ s, Runs.exec attemptStep Service.empty offlineFirst = some s ∧
      Runs.AlongRun attemptStep AllOrNothing Service.empty offlineFirst ∧
      Runs.StepsMeet attemptStep Completable Service.empty offlineFirst) ∧
    ¬ (Runs.AlongRun attemptStep AllOrNothing Service.empty luisTwice ∧
      Runs.StepsMeet attemptStep Completable Service.empty luisTwice) := by
  constructor
  · have hruns : (Runs.exec attemptStep Service.empty offlineFirst).isSome := by decide +kernel
    obtain ⟨s, hrun⟩ := Option.isSome_iff_exists.mp hruns
    exact ⟨s, hrun, (allOrNothing_iff_sound noStray_empty allOrNothing_empty hrun).mpr
      (by decide +kernel)⟩
  · have hruns : (Runs.exec attemptStep Service.empty luisTwice).isSome := by decide +kernel
    obtain ⟨s, hrun⟩ := Option.isSome_iff_exists.mp hruns
    rw [allOrNothing_iff_sound noStray_empty allOrNothing_empty hrun]
    decide +kernel

/-- **An account without a profile.**  `commitChanges` fails once: the account exists
    and its profile does not. -/
theorem account_without_profile :
    ¬ ∀ (as : List (Attempt String)) (s : Service String),
      Runs.exec attemptStep Service.empty as = some s → AllOrNothing s := by
  intro hall
  have hrun : Runs.exec attemptStep Service.empty [anaAttempt none false true]
      = some (attempt Service.empty (anaAttempt none false true)).1 := rfl
  have hprofile := (hall _ _ hrun ⟨"ana", "ana@mail", "Ana"⟩ (List.mem_singleton.mpr rfl)).1
  have hnone : (∅ : ChildMap String Value)["ana"]? = none := Std.ExtTreeMap.getElem?_empty
  change field (∅ : ChildMap String Value)["ana"]? "email" = _ at hprofile
  rw [hnone] at hprofile
  cases hprofile

/-- The next attempt with the same data is told that the email is in use. -/
example : (attempt (attempt Service.empty (anaAttempt none false true)).1
    { anaAttempt none true true with uid := "ana2" }).2
      = some (createUserAlert .emailAlreadyInUse) := by
  decide

end MeetupApp.SignUp
