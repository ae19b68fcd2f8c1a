import Mathlib.Data.Nat.Notation

/-!
# Return statuses of the base DB

`Status` is the code and the two message parts of a `rocksdb::Status`. Fallible functions of the
source that hand back a value as well become `Except Status`.
-/

namespace AegonKV

inductive Code
  | ok | notFound | corruption | notSupported | invalidArgument | ioError | incomplete
  | shutdownInProgress | aborted | busy
  deriving DecidableEq, Repr

structure Status where
  code : Code
  msg : String := ""
  msg2 : String := ""
  deriving DecidableEq, Repr

namespace Status

def ok : Status := { code := .ok }

def isOk (s : Status) : Bool := s.code == .ok

def notFound (msg : String := "") : Status := { code := .notFound, msg := msg }

def corruption (msg : String) (msg2 : String := "") : Status :=
  { code := .corruption, msg := msg, msg2 := msg2 }

def invalidArgument (msg : String) : Status := { code := .invalidArgument, msg := msg }

def aborted (msg : String) : Status := { code := .aborted, msg := msg }

def busy (msg : String := "") : Status := { code := .busy, msg := msg }

def shutdownInProgress : Status := { code := .shutdownInProgress }

/-- `s.ToString()` of a corruption nested inside another status. -/
def toString (s : Status) : String :=
  match s.code with
  | .ok => "OK"
  | .corruption => "Corruption: " ++ s.msg ++ (if s.msg2 = "" then "" else ": " ++ s.msg2)
  | _ => s.msg

@[simp] theorem isOk_ok : ok.isOk = true := rfl

@[simp] theorem isOk_corruption (m m2 : String) : (corruption m m2).isOk = false := rfl

end Status
end AegonKV
