/-!
# Faults

Why an instruction can fail. An output that fails says why with an `OutputFault`.
-/

namespace NestLang

/-- Why a value could not be printed. -/
inductive OutputFault
  | addressInUse | addressNotAvailable | alreadyExists | argumentListTooLong | brokenPipe
  | connectionAborted | connectionRefused | connectionReset | crossesDevices | deadlock
  | directoryNotEmpty | executableFileBusy | fileTooLarge | filesystemLoop | hostUnreachable
  | inProgress | interrupted | invalidData | invalidFilename | invalidInput | isDirectory
  | networkDown | networkUnreachable | notDirectory | notConnected | notFound | notSeekable
  | other | outOfMemory | permissionDenied | quotaExceeded | readOnly | resourceBusy
  | staleFileHandle | storageFull | timedOut | tooManyLinks | uncategorized | unexpectedEnd
  | unsupported | wouldBlock | writeZero
  deriving DecidableEq

/-- Why an instruction failed, or why none was executed. -/
inductive Fault
  /-- A value was needed and the stack was empty. -/
  | stackUnderflow
  /-- No slot of the stack has this address, or the address was out of range. -/
  | invalidAddress (address : Int)
  /-- The divisor was `0`. -/
  | divisionByZero
  /-- The output refused a value. -/
  | output (cause : OutputFault)
  /-- The machine has already ended. -/
  | notReady
  deriving DecidableEq

/-- A fault, with the address of the instruction that failed. -/
structure RuntimeError where
  fault : Fault
  address : Nat
  deriving DecidableEq

/-- The text of an output fault. -/
def OutputFault.message : OutputFault → String
  | .addressInUse => "address in use"
  | .addressNotAvailable => "address not available"
  | .alreadyExists => "entity already exists"
  | .argumentListTooLong => "argument list too long"
  | .brokenPipe => "broken pipe"
  | .connectionAborted => "connection aborted"
  | .connectionRefused => "connection refused"
  | .connectionReset => "connection reset"
  | .crossesDevices => "cross-device link or rename"
  | .deadlock => "deadlock"
  | .directoryNotEmpty => "directory not empty"
  | .executableFileBusy => "executable file busy"
  | .fileTooLarge => "file too large"
  | .filesystemLoop => "filesystem loop or indirection limit (e.g. symlink loop)"
  | .hostUnreachable => "host unreachable"
  | .inProgress => "in progress"
  | .interrupted => "operation interrupted"
  | .invalidData => "invalid data"
  | .invalidFilename => "invalid filename"
  | .invalidInput => "invalid input parameter"
  | .isDirectory => "is a directory"
  | .networkDown => "network down"
  | .networkUnreachable => "network unreachable"
  | .notDirectory => "not a directory"
  | .notConnected => "not connected"
  | .notFound => "entity not found"
  | .notSeekable => "seek on unseekable file"
  | .other => "other error"
  | .outOfMemory => "out of memory"
  | .permissionDenied => "permission denied"
  | .quotaExceeded => "quota exceeded"
  | .readOnly => "read-only filesystem or storage medium"
  | .resourceBusy => "resource busy"
  | .staleFileHandle => "stale network file handle"
  | .storageFull => "no storage space"
  | .timedOut => "timed out"
  | .tooManyLinks => "too many links"
  | .uncategorized => "uncategorized error"
  | .unexpectedEnd => "unexpected end of file"
  | .unsupported => "unsupported"
  | .wouldBlock => "operation would block"
  | .writeZero => "write zero"

/-- The text of a fault. -/
def Fault.message : Fault → String
  | .stackUnderflow => "stack underflow"
  | .invalidAddress address => "invalid stack address " ++ toString address
  | .divisionByZero => "division by zero"
  | .output cause => "output failed: " ++ cause.message
  | .notReady => "VM state is not ready"

/-- The text of a runtime error. -/
def RuntimeError.message (e : RuntimeError) : String :=
  e.fault.message ++ " at instruction " ++ toString e.address

end NestLang
