import CountedHeap.Heap

/-!
Reference slots. The new object is retained first, so that a refusal leaves the slot as it was; the
reference that made way is handed to the caller, with its count.
-/

namespace CountedHeap.Heap

def slotted (h : Heap) (a : Addr) (slot : Nat) : Except Fault Payload :=
  match h.valid a with
  | .error fault => .error fault
  | .ok o =>
      if slot < o.slotCount then .ok o.payload else .error (.slotOutOfBounds slot o.size)

def loadRef (h : Heap) (a : Addr) (slot : Nat) : Except Fault (Option Addr) :=
  (h.slotted a slot).map fun p => p.load slot

def storeRef (h : Heap) (a : Addr) (slot : Nat) (value : Option Addr) : Heap :=
  h.update a fun o => { o with payload := o.payload.store slot value }

def takeRef (h : Heap) (a : Addr) (slot : Nat) : Except Fault (Option Addr × Heap) :=
  (h.slotted a slot).map fun p => (p.load slot, h.storeRef a slot none)

/-- Retains `value` and puts it into the slot. The answer is the reference that was there, which
the caller has to release. -/
def exchangeRef (h : Heap) (a : Addr) (slot : Nat) (value : Option Addr) :
    Except Fault (Option Addr × Heap) :=
  match h.slotted a slot with
  | .error fault => .error fault
  | .ok p =>
      match value.elim (.ok h) h.tryRetain with
      | .error fault => .error fault
      | .ok h => .ok (p.load slot, h.storeRef a slot value)

/-! Raw bytes -/

def writePayload (h : Heap) (a : Addr) (offset : Nat) (bytes : List UInt8) : Heap :=
  h.update a fun o => { o with payload := o.payload.write offset bytes }

def readPayload (h : Heap) (a : Addr) (offset count : Nat) : List UInt8 :=
  (h.objects[a]?).elim [] fun o => o.payload.read offset count

def clearPayload (h : Heap) (a : Addr) : Heap :=
  h.update a fun o => { o with payload := o.payload.clear o.size }

end CountedHeap.Heap
