/-! How commands end. -/
namespace LivePreview.Shell

/-- How a command has ended. -/
inductive Ending where
  | exit (status : Nat)
  | signal (number : Nat)
deriving DecidableEq, Repr

namespace Ending

def isSuccess : Ending → Bool
  | exit 0 => true
  | _ => false

/-- The names of signals, by their numbers from 1. -/
def signalNames : List String :=
  ["SIGHUP", "SIGINT", "SIGQUIT", "SIGILL", "SIGTRAP", "SIGABRT", "SIGBUS", "SIGFPE", "SIGKILL", "SIGUSR1",
    "SIGSEGV", "SIGUSR2", "SIGPIPE", "SIGALRM", "SIGTERM", "SIGSTKFLT", "SIGCHLD", "SIGCONT", "SIGSTOP", "SIGTSTP",
    "SIGTTIN", "SIGTTOU", "SIGURG", "SIGXCPU", "SIGXFSZ", "SIGVTALRM", "SIGPROF", "SIGWINCH", "SIGIO", "SIGPWR",
    "SIGSYS"]

def message : Ending → String
  | exit status => "exit status: " ++ toString status
  | signal number =>
    "signal: " ++ toString number ++
      match if number = 0 then none else signalNames[number - 1]? with
      | some name => " (" ++ name ++ ")"
      | none => ""

end Ending

/-- A command that has ended, with what it wrote and how long it took. -/
structure Finished where
  ending : Ending
  output : ByteArray := .empty
  errors : ByteArray := .empty
  milliseconds : Nat := 0

end LivePreview.Shell
