import MeetupApp.Controllers.LogIn

/-! # Submit buttons and complete forms

    Each handler of a form looks at the other fields only, and leaves the button
    alone if one of them is empty.  No stale button remains all the same: that the
    button tells whether the form is complete is an invariant of the edits. -/

namespace MeetupApp.Forms

/-! ## Section 1: One handler -/

/-- No text of the list is empty. -/
def allFilled (texts : List String) : Bool :=
  texts.all (fun text => !text.isEmpty)

theorem allFilled_iff {texts : List String} :
    allFilled texts = true ↔ ∀ text ∈ texts, text ≠ "" := by
  simp [allFilled]

/-- The order of the fields does not matter. -/
theorem allFilled_perm {texts texts' : List String} (h : texts.Perm texts') :
    allFilled texts = allFilled texts' :=
  h.all_eq

/-- **One edit.**  If the button told before whether the form was complete, it does after
    the handler of the edited field, whatever that field held before. -/
theorem textChanged_eq {others : List String} {before sender : String} {button : Bool}
    {texts texts' : List String} (hbefore : texts.Perm (before :: others))
    (hafter : texts'.Perm (sender :: others)) (h : button = allFilled texts) :
    textChanged others sender button = allFilled texts' := by
  have hsplit : ∀ text, allFilled (text :: others) = (!text.isEmpty && allFilled others) :=
    fun _ => rfl
  rw [allFilled_perm hafter, hsplit]
  rw [allFilled_perm hbefore, hsplit] at h
  show (if allFilled others then !sender.isEmpty else button) = _
  by_cases hothers : allFilled others = true
  · rw [if_pos hothers, hothers, Bool.and_true]
  · -- Another field is empty: the button was off and stays off.
    rw [Bool.not_eq_true] at hothers
    rw [hothers, Bool.and_false] at h
    simp [hothers, h]

/-! ## Section 2: The two forms -/

def logInTexts (form : LogInViewController) : List String :=
  [form.txtEmail, form.txtPassword]

def signUpTexts (form : SignUpViewController) : List String :=
  [form.lblUserName, form.lblEmail, form.lblPassword, form.lblConfirmPassword]

/-- The button of the log-in form tells whether the form is complete, edit by edit. -/
theorem logIn_edit {form : LogInViewController}
    (h : form.loginButton = allFilled (logInTexts form)) (text : String) (field : LogInField) :
    (form.edit text field).loginButton = allFilled (logInTexts (form.edit text field)) := by
  cases field with
  | email => exact textChanged_eq (.refl _) (.refl _) h
  | password => exact textChanged_eq (.swap _ _ _) (.swap _ _ _) h

theorem signUp_edit {form : SignUpViewController}
    (h : form.signUpButton = allFilled (signUpTexts form)) (text : String) (field : SignUpField) :
    (form.edit text field).signUpButton = allFilled (signUpTexts (form.edit text field)) := by
  -- Each handler lists the other three fields in an order of its own.
  have hthird : ∀ a b c d : String, [a, b, c, d].Perm [c, b, a, d] := by grind
  have hlast : ∀ a b c d : String, [a, b, c, d].Perm [d, b, a, c] := by grind
  cases field with
  | userName => exact textChanged_eq (.refl _) (.refl _) h
  | email => exact textChanged_eq (.swap _ _ _) (.swap _ _ _) h
  | password => exact textChanged_eq (hthird _ _ _ _) (hthird _ _ _ _) h
  | confirmPassword => exact textChanged_eq (hlast _ _ _ _) (hlast _ _ _ _) h

/-! ## Section 3: The result -/

/-- The log-in form after some edits. -/
def logInAfter (edits : List (String × LogInField)) : LogInViewController :=
  edits.foldl (fun form edit => form.edit edit.1 edit.2) .viewDidLoad

/-- The sign-up form after some edits. -/
def signUpAfter (edits : List (String × SignUpField)) : SignUpViewController :=
  edits.foldl (fun form edit => form.edit edit.1 edit.2) .viewDidLoad

theorem logInAfter_tracks (edits : List (String × LogInField)) :
    (logInAfter edits).loginButton = allFilled (logInTexts (logInAfter edits)) :=
  List.foldlRecOn (motive := fun form => form.loginButton = allFilled (logInTexts form)) edits _ rfl
    (fun _ h edit _ => logIn_edit h edit.1 edit.2)

theorem signUpAfter_tracks (edits : List (String × SignUpField)) :
    (signUpAfter edits).signUpButton = allFilled (signUpTexts (signUpAfter edits)) :=
  List.foldlRecOn (motive := fun form => form.signUpButton = allFilled (signUpTexts form)) edits _
    rfl (fun _ h edit _ => signUp_edit h edit.1 edit.2)

/-- **Submit buttons track completeness.**  After any edits of either form, its button
    reacts exactly when none of its fields is empty. -/
theorem submit_iff_complete :
    (∀ edits : List (String × LogInField), (logInAfter edits).loginButton = true ↔
      (logInAfter edits).txtEmail ≠ "" ∧ (logInAfter edits).txtPassword ≠ "") ∧
    (∀ edits : List (String × SignUpField), (signUpAfter edits).signUpButton = true ↔
      (signUpAfter edits).lblUserName ≠ "" ∧ (signUpAfter edits).lblEmail ≠ "" ∧
        (signUpAfter edits).lblPassword ≠ "" ∧ (signUpAfter edits).lblConfirmPassword ≠ "") := by
  constructor
  · intro edits
    rw [logInAfter_tracks, allFilled_iff]
    simp [logInTexts]
  · intro edits
    rw [signUpAfter_tracks, allFilled_iff]
    simp [signUpTexts]

end MeetupApp.Forms
