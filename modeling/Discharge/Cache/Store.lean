import Discharge.Result
import Discharge.Text.Part

namespace Discharge.Cache

structure Store where
  entries : List (Text × Result) := []
  deriving DecidableEq, Repr, Inhabited

namespace Store

def get? (s : Store) (key : Text) : Option Result := s.entries.lookup key

def size (s : Store) : Nat := s.entries.length

def keeps (r : Result) : Bool := r.status.isTerminal && !r.skipped

def kept (r : Result) : Result :=
  { r with
    explanation := r.explanation.repaired
    location.file := r.location.file.repaired
    trace := r.trace.repaired }

def set (s : Store) (key : Text) (r : Result) : Store :=
  if keeps r then ⟨(key, kept r) :: s.entries.filter fun e => e.1 != key⟩ else s

end Store

end Discharge.Cache
