import Msgbus.Core

/-!
# gRPC status

The status a handler answers with.  `statusFromError` is the map every handler
applies to an error of its store.
-/

namespace Msgbus

inductive Code where
  | ok
  | cancelled
  | unknown
  | invalidArgument
  | deadlineExceeded
  | notFound
  | alreadyExists
  | permissionDenied
  | resourceExhausted
  | failedPrecondition
  | aborted
  | outOfRange
  | unimplemented
  | internal
  | unavailable
  | dataLoss
  | unauthenticated
  deriving DecidableEq

structure Status where
  code : Code
  message : String
  deriving DecidableEq

namespace Status

def invalidArgument (message : String) : Status := ⟨.invalidArgument, message⟩

def notFound (message : String) : Status := ⟨.notFound, message⟩

def permissionDenied (message : String) : Status := ⟨.permissionDenied, message⟩

def unavailable (message : String) : Status := ⟨.unavailable, message⟩

end Status

def statusFromError : MsgbusError → Status
  | .invalidArgument message => ⟨.invalidArgument, message⟩
  | .notFound message => ⟨.notFound, message⟩
  | .conflict message => ⟨.failedPrecondition, message⟩
  | .storage message => ⟨.internal, message⟩
  | .serialization message => ⟨.internal, message⟩

end Msgbus
