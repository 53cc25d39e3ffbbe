import Triliteral.Fault

/-!
Failures of a whole command: what went wrong, how it reads, and the exit code it ends with.
The exit codes follow the convention of `sysexits.h`.
-/

namespace Triliteral

inductive Access where
  | readRoots (path : String)
  | read (path : String)
  | createParent (path : String)
  | write (path : String)
  deriving DecidableEq, Repr

namespace Access

def description : Access → String
  | .readRoots path => "read roots file " ++ path
  | .read path => "read " ++ path
  | .createParent path => "create parent of " ++ path
  | .write path => "write " ++ path

end Access

inductive ConfigFault where
  | placeholders (fault : Fault)
  | missingFile (path : String)
  /-- A file whose name does not end as one of the format does. -/
  | unknownFormat (path : String)
  | malformedFile (path : String)
  | invalidValue (key : String)
  | unwritableValue (key : String)
  deriving DecidableEq, Repr

namespace ConfigFault

def message : ConfigFault → String
  | .placeholders fault => "placeholders: " ++ fault.message
  | .missingFile path => "configuration file not found: " ++ path
  | .unknownFormat path => "not a configuration file of a known format: " ++ path
  | .malformedFile path => "malformed configuration file: " ++ path
  | .invalidValue key => "invalid value for " ++ key
  | .unwritableValue key => "value out of range: " ++ key

end ConfigFault

inductive SnapshotFault where
  | malformed (path : String)
  | unwritable
  deriving DecidableEq, Repr

namespace SnapshotFault

def message : SnapshotFault → String
  | .malformed path => "parse " ++ path
  | .unwritable => "serialize: usage out of range"

end SnapshotFault

inductive Failure where
  | refused (fault : Fault)
  | config (fault : ConfigFault)
  | io (access : Access)
  | snapshot (fault : SnapshotFault)
  | usage (message : String)
  deriving DecidableEq, Repr

namespace Failure

def message : Failure → String
  | .refused fault => fault.message
  | .config fault => "config error: " ++ fault.message
  | .io access => "I/O error: " ++ access.description
  | .snapshot fault => "snapshot error: " ++ fault.message
  | .usage message => message

end Failure

namespace Fault

/-- Unknown names count as missing input, all other faults but one as bad data. -/
def exitCode : Fault → Nat
  | .rootNotFound _ | .schemeNotFound _ => 66
  | .generationFailure .. => 70
  | _ => 65

end Fault

namespace Failure

def exitCode : Failure → Nat
  | .refused fault => fault.exitCode
  | .config _ => 78
  | .io _ => 74
  | .snapshot _ => 65
  | .usage _ => 64

end Failure

end Triliteral
