/-! The reasons for which an operation refuses. A fault names the object by its address. -/

namespace CountedHeap

/-- Objects and blocks are named by their address, which the system hands out once. -/
abbrev Addr := Nat

inductive Fault where
  | invalidArgument (reason : String)
  | outOfMemory (bytes : Nat)
  | invalidObject (object : Addr)
  | doubleRelease (object : Addr)
  | countOverflow (object : Addr)
  | slotOutOfBounds (slot bytes : Nat)
  | duplicateType (type : Nat)
  | registrationFailure
  deriving DecidableEq, Repr

def hexAddress (object : Addr) : String :=
  "0x" ++ String.ofList (Nat.toDigits 16 object)

namespace Fault

def message (spell : Addr → String) : Fault → String
  | invalidArgument reason => s!"invalid argument: {reason}"
  | outOfMemory bytes => s!"out of memory allocating {bytes} bytes"
  | invalidObject object => s!"object at {spell object} is not a live ARC object"
  | doubleRelease object => s!"object at {spell object} released more times than it was retained"
  | countOverflow object => s!"reference count overflow on object at {spell object}"
  | slotOutOfBounds slot bytes =>
      s!"reference slot {slot} is out of bounds for a {bytes}-byte payload"
  | duplicateType type => s!"type {type} already has a registered tracer"
  | registrationFailure => "cycle candidate could not be registered"

end Fault

end CountedHeap
