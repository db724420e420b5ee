import MeetupApp.Controllers.SignUp

/-! # Controllers/LogInViewController.swift

    The log-in form and its editing-changed handlers. -/

namespace MeetupApp

/-- The two fields, and whether the button reacts to touches. -/
structure LogInViewController where
  txtEmail : String
  txtPassword : String
  loginButton : Bool

/-- `viewDidLoad` -/
def LogInViewController.viewDidLoad : LogInViewController where
  txtEmail := ""
  txtPassword := ""
  loginButton := false

def LogInViewController.emailChanged (self : LogInViewController) : LogInViewController :=
  { self with loginButton := textChanged [self.txtPassword] self.txtEmail self.loginButton }

def LogInViewController.passwordChanged (self : LogInViewController) : LogInViewController :=
  { self with loginButton := textChanged [self.txtEmail] self.txtPassword self.loginButton }

inductive LogInField where
  | email
  | password
  deriving DecidableEq

/-- A field is edited and fires the handler that the storyboard connects to it. -/
def LogInViewController.edit (self : LogInViewController) (text : String) :
    LogInField → LogInViewController
  | .email => emailChanged { self with txtEmail := text }
  | .password => passwordChanged { self with txtPassword := text }

end MeetupApp
