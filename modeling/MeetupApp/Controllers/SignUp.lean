import MeetupApp.Firebase.Database

/-! # Controllers/SignUpViewController.swift

    The sign-up form, and `signUpButtonTapped` cut at its asynchronous calls:
    the tap calls `createUser`, its completion reads the user name and commits
    it as the display name, the completion of that reads the user name and the
    email again and calls `saveProfile`, which reads the current user. -/

namespace MeetupApp

open Firebase

/-! ## Section 1: The form -/

/-- The four fields, and whether the button reacts to touches. -/
structure SignUpViewController where
  lblUserName : String
  lblEmail : String
  lblPassword : String
  lblConfirmPassword : String
  signUpButton : Bool

/-- `viewDidLoad` -/
def SignUpViewController.viewDidLoad : SignUpViewController where
  lblUserName := ""
  lblEmail := ""
  lblPassword := ""
  lblConfirmPassword := ""
  signUpButton := false

/-- The body of the four editing-changed handlers: if the other fields are not
    empty, the button follows the sender. -/
def textChanged (others : List String) (sender : String) (signUpButton : Bool) : Bool :=
  if others.all (fun text => !text.isEmpty) then !sender.isEmpty else signUpButton

def SignUpViewController.emailChanged (self : SignUpViewController) : SignUpViewController :=
  { self with
    signUpButton := textChanged [self.lblUserName, self.lblPassword, self.lblConfirmPassword]
      self.lblEmail self.signUpButton }

def SignUpViewController.usernameChanged (self : SignUpViewController) : SignUpViewController :=
  { self with
    signUpButton := textChanged [self.lblEmail, self.lblPassword, self.lblConfirmPassword]
      self.lblUserName self.signUpButton }

def SignUpViewController.passwordChanged (self : SignUpViewController) : SignUpViewController :=
  { self with
    signUpButton := textChanged [self.lblEmail, self.lblUserName, self.lblConfirmPassword]
      self.lblPassword self.signUpButton }

def SignUpViewController.confirmationChanged (self : SignUpViewController) :
    SignUpViewController :=
  { self with
    signUpButton := textChanged [self.lblEmail, self.lblUserName, self.lblPassword]
      self.lblConfirmPassword self.signUpButton }

inductive SignUpField where
  | userName
  | email
  | password
  | confirmPassword
  deriving DecidableEq

/-- A field is edited and fires the handler that the storyboard connects to it. -/
def SignUpViewController.edit (self : SignUpViewController) (text : String) :
    SignUpField → SignUpViewController
  | .userName => usernameChanged { self with lblUserName := text }
  | .email => emailChanged { self with lblEmail := text }
  | .password => passwordChanged { self with lblPassword := text }
  | .confirmPassword => confirmationChanged { self with lblConfirmPassword := text }

/-! ## Section 2: Alerts -/

structure Alert where
  title : String
  message : String
  deriving DecidableEq

/-- The codes that the switch of the failure branch names; `other` is its default. -/
inductive AuthErrorCode where
  | emailAlreadyInUse
  | invalidEmail
  | userDisabled
  | wrongPassword
  | weakPassword
  | userNotFound
  | networkError
  | other
  deriving DecidableEq

/-- The alert for an error of `createUser`. -/
def createUserAlert : AuthErrorCode → Alert
  | .emailAlreadyInUse => ⟨"Error", "Your email is In Use"⟩
  | .invalidEmail => ⟨"Error", "Your format email is incorrect"⟩
  | .userDisabled => ⟨"Error", "Your user has been disable \n Try contact us"⟩
  | .wrongPassword => ⟨"Error", "Your datas are incorrects"⟩
  | .weakPassword => ⟨"Error", "Your datas are incorrects"⟩
  | .userNotFound => ⟨"Error", "Your datas are incorrects"⟩
  | .networkError => ⟨"Error", "You are not connect on Internet"⟩
  | .other => ⟨"Error", "You have a error \n Try Try contact us"⟩

def passwordsAlert : Alert := ⟨"Error", "Your passwords are not equals"⟩

def commitChangesAlert : Alert := ⟨"Error", "Your datas are incorrects"⟩

def signedAlert : Alert := ⟨"Congratulations", "You are Singed"⟩

/-! ## Section 3: signUpButtonTapped -/

/-- The tap: the arguments of `createUser`, or an alert. -/
def signUpButtonTapped (self : SignUpViewController) : (String × String) ⊕ Alert :=
  if self.lblPassword = self.lblConfirmPassword then .inl (self.lblEmail, self.lblPassword)
  else .inr passwordsAlert

/-- `userObject` of `saveProfile`. -/
def profileObject (userName userEmail : String) : Object :=
  [("email", .string userEmail), ("username", .string userName)]

variable {K : Type}

/-- `saveProfile`: the write it issues, or nothing when the guard fails. -/
def saveProfile (currentUser : Option K) (userName userEmail : String) : Option (Write K) :=
  match currentUser with
  | some uid => some (.profile uid (profileObject userName userEmail))
  | none => none

/-- The completion of `createUser` without error: the display name it commits. -/
def createUserCompleted (self : SignUpViewController) : String :=
  self.lblUserName

/-- The completion of `commitChanges` without error. -/
def commitChangesCompleted (self : SignUpViewController) (currentUser : Option K) :
    Option (Write K) :=
  saveProfile currentUser self.lblUserName self.lblEmail

/-- The completion passed to `saveProfile`; there is no branch for a failed write. -/
def saveProfileCompleted (success : Bool) : Option Alert :=
  if success then some signedAlert else none

/-! ## Section 4: What a profile holds -/

/-- `users/profile/<uid>` holds this email and this user name. -/
def HoldsProfile [LinearOrder K] (db : Database K) (uid : K) (userName email : String) : Prop :=
  field db.profileFields[uid]? "email" = some (.string email) ∧
    field db.profileFields[uid]? "username" = some (.string userName)

/-- `saveProfile` writes both names at the node of the uid and at no other. -/
theorem profileFields_saved [LinearOrder K] (db : Database K) (uid : K)
    (userName userEmail : String) (u : K) :
    (db.apply (.profile uid (profileObject userName userEmail))).profileFields[u]?
      = if uid = u then nodeFrom (profileObject userName userEmail) else db.profileFields[u]? := by
  rw [apply_profile_fields, ChildMap.getElem?_put]

theorem holdsProfile_saved [LinearOrder K] (db : Database K) (uid : K)
    (userName userEmail : String) :
    HoldsProfile (db.apply (.profile uid (profileObject userName userEmail))) uid userName
      userEmail := by
  unfold HoldsProfile
  rw [profileFields_saved, if_pos rfl]
  exact ⟨rfl, rfl⟩

theorem holdsProfile_saved_other [LinearOrder K] (db : Database K) {uid u : K} (h : uid ≠ u)
    (userName userEmail name email : String) :
    HoldsProfile (db.apply (.profile uid (profileObject userName userEmail))) u name email
      ↔ HoldsProfile db u name email := by
  unfold HoldsProfile
  rw [profileFields_saved, if_neg h]

end MeetupApp
