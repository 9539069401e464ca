import Kpr.Lib.Machine

namespace LibSig

structure Sigaction where
  sa_handler   : Nat
  sa_sigaction : Nat
  SA_SIGINFO   : Bool
  deriving DecidableEq

def NSIG : Nat := 65
def SIGKILL : Nat := 9
def SIGSEGV : Nat := 11
def SIGALRM : Nat := 14
def SIGSTOP : Nat := 19

-- `(sighandler_t) -1`
def SIG_ERR : Nat := 2 ^ 32 - 1

def EINVAL : Int := 22

-- `sa_handler` and `sa_sigaction` may share their storage. This is up to the C library.
def Sigaction.setHandler (a : Sigaction) (shared : Bool) (handler : Nat) : Sigaction :=
  { a with sa_handler := handler, sa_sigaction := if shared then handler else a.sa_sigaction }

-- The array has `NSIG` elements.
abbrev Sigactions := Nat → Sigaction

namespace Sigactions

-- A static object is filled with zeros.
def boot : Sigactions :=
  fun _ => { sa_handler := 0, sa_sigaction := 0, SA_SIGINFO := false }

variable (s : Sigactions)

def getHandler (signum : Nat) : Nat :=
  if signum ≥ NSIG then 0
  else
    let a := s signum
    if a.SA_SIGINFO ∧ a.sa_sigaction ≠ 0 then a.sa_sigaction
    else if a.sa_handler ≠ 0 then a.sa_handler
    else 0

-- Signals are signed numbers, and there is no result if the access is in front of the array.
def signal (shared : Bool) (signum : Int) (handler : Nat) : Option (Nat × Sigactions) :=
  if signum < NSIG then
    match signum with
    | .negSucc _ => none
    | .ofNat n   => some ((s n).sa_handler, Function.update s n ((s n).setHandler shared handler))
  else some (SIG_ERR, s)

-- The member function, which returns its result together with what is written to `oldact`. The latter
-- and `act` may be null.
def sigaction' (signum : Int) (act : Option Sigaction) (oldact : Bool) :
    Option (Int × Option Sigaction × Sigactions) :=
  if signum = SIGKILL ∨ signum = SIGSTOP then some (-EINVAL, none, s)
  else if signum < NSIG then
    match signum with
    | .negSucc _ => none
    | .ofNat n   =>
      let old := if oldact then some (s n) else none
      match act with
      | none   => some (0, old, s)
      | some a => some (0, old, Function.update s n a)
  else some (-EINVAL, none, s)

-- The function of the C library, which also sets `errno`.
def sigaction (signum : Int) (act : Option Sigaction) (oldact : Bool) (errno : Int) :
    Option (Int × Int × Option Sigaction × Sigactions) := do
  let (err, old, s) ← s.sigaction' signum act oldact
  if err < 0 then return (-1, -err, old, s)
  else return (err, errno, old, s)

end Sigactions
end LibSig
