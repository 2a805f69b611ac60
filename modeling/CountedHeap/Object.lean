import CountedHeap.CountWord
import CountedHeap.Pool

/-!
An object is a header and a payload in one block. A payload is a row of slots that hold references,
or plain bytes: a slot holds an address as a number, and zero when it is empty.
-/

namespace CountedHeap

structure Payload where
  slots : Array (Option Addr)
  /-- The bytes behind the slots up to the end of the block; those not listed are zero. -/
  tail : List UInt8 := []
  deriving DecidableEq, Repr, Inhabited

namespace Payload

def slotBytes : Nat := 8

def blank (size : Nat) (beyond : List UInt8) : Payload :=
  { slots := Array.replicate (size / slotBytes) none
    tail := List.replicate (size % slotBytes) 0 ++ beyond }

def load (p : Payload) (slot : Nat) : Option Addr := (p.slots[slot]?).join

def store (p : Payload) (slot : Nat) (value : Option Addr) : Payload :=
  { p with slots := p.slots.setIfInBounds slot value }

/-! Bytes -/

def bytes (p : Payload) : List UInt8 :=
  p.slots.toList.flatMap (fun slot => leastFirst slotBytes (slot.getD 0)) ++ p.tail

def slotOf (bytes : List UInt8) : Option Addr :=
  if spelled bytes = 0 then none else some (spelled bytes)

def slotsOf : (count : Nat) → (bytes : List UInt8) → List (Option Addr)
  | 0, _ => []
  | count + 1, bytes => slotOf (bytes.take slotBytes) :: slotsOf count (bytes.drop slotBytes)

def ofBytes (count : Nat) (bytes : List UInt8) : Payload :=
  { slots := (slotsOf count bytes).toArray, tail := bytes.drop (slotBytes * count) }

def write (p : Payload) (offset : Nat) (new : List UInt8) : Payload :=
  ofBytes p.slots.size (overlay p.bytes offset new)

def read (p : Payload) (offset count : Nat) : List UInt8 := stretch p.bytes offset count

def clear (p : Payload) (size : Nat) : Payload := blank size (p.bytes.drop size)

end Payload

structure Object where
  /-- The magic number in a live object, zero in a dead one. -/
  mark : UInt32
  word : CountWord := ⟨1⟩
  /-- The type had a tracer when the object was made. -/
  traced : Bool
  claimed : Bool := false
  weak : Bool := false
  /-- The flag bits above those three, which mean nothing. -/
  spare : Nat := 0
  type : Nat
  size : Nat
  /-- The destructor to run, by the number its owner knows it under. Taken once. -/
  destructor : Option Nat
  keep : List UInt8 := List.replicate 24 0
  payload : Payload
  deriving DecidableEq, Repr, Inhabited

namespace Object

def headerBytes : Nat := 48

def magic : UInt32 := 0x41524330

def valid (o : Object) : Bool := o.mark == magic

def create (size type : Nat) (destructor : Option Nat) (traced : Bool) (beyond : List UInt8) :
    Object :=
  { mark := magic, traced, type, size, destructor, payload := .blank size beyond }

def count (o : Object) : Nat := o.word.count.toNat

def buffered (o : Object) : Bool := o.word.buffered

def totalBytes (o : Object) : Nat := headerBytes + o.size

def isLarge (o : Object) : Bool := SizeClass.largest < o.totalBytes

def slotCount (o : Object) : Nat := o.payload.slots.size

/-! The image -/

def flags (o : Object) : Nat :=
  o.traced.toNat + 2 * o.claimed.toNat + 4 * o.weak.toNat + 8 * o.spare

def image (o : Object) : List UInt8 :=
  leastFirst 4 o.mark.toNat ++ leastFirst 4 o.word.bits.toNat ++ leastFirst 4 o.flags ++
    leastFirst 4 o.type ++ leastFirst 8 o.size ++ o.keep ++ o.payload.bytes

/-- No more slots than the largest block has, whatever the size says. -/
def ofImage (image : List UInt8) (destructor : Option Nat) : Object :=
  let number (offset count : Nat) := spelled (stretch image offset count)
  let flags := number 8 4
  let size := number 16 8
  { mark := (number 0 4).toUInt32
    word := ⟨(number 4 4).toUInt32⟩
    traced := flags.testBit 0
    claimed := flags.testBit 1
    weak := flags.testBit 2
    spare := flags / 8
    type := number 12 4
    size
    destructor
    keep := stretch image 24 24
    payload := .ofBytes (min size SizeClass.largest / Payload.slotBytes)
      (image.drop headerBytes) }

/-- Bytes over the destructor lose it. -/
def overwrite (o : Object) (offset : Nat) (bytes : List UInt8) : Object :=
  let lost := max offset 24 < min (offset + bytes.length) 40
  ofImage (overlay o.image offset bytes) (if lost then none else o.destructor)

end Object

end CountedHeap
