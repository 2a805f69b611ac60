import CountedHeap.Heap

namespace CountedHeap.Heap

def downgrade (h : Heap) (a : Addr) : Except Fault (SlotId × Heap) :=
  match h.valid a with
  | .error fault => .error fault
  | .ok o =>
      if o.count = 0 ∨ o.claimed then .error (.invalidObject a) else
      let (slot, weak) := h.weak.insert a
      .ok (slot, { h.update a ({ · with weak := true }) with weak })

def downgradeBatch (h : Heap) : List Addr → List (Option SlotId) × Heap
  | [] => ([], h)
  | a :: rest =>
      match h.downgrade a with
      | .ok (slot, h) =>
          let (slots, h) := h.downgradeBatch rest
          (some slot :: slots, h)
      | .error _ =>
          let (slots, h) := h.downgradeBatch rest
          (none :: slots, h)

def upgrade (h : Heap) (slot : SlotId) : Option Addr × Heap :=
  match h.weak.target? slot with
  | none => (none, h)
  | some a =>
      match h.objects[a]? with
      | none => (none, h)
      | some o =>
          let (granted, word) := o.word.upgrade o.claimed
          (if granted then some a else none, h.update a ({ · with word }))

/-- The object of a handle, without a reference to it. -/
def weakTarget? (h : Heap) (slot : SlotId) : Option Addr :=
  (h.weak.target? slot).filter fun a =>
    (h.objects[a]?).any fun o => 0 < o.count && !o.claimed

def isAlive (h : Heap) (slot : SlotId) : Bool := (h.weakTarget? slot).isSome

def cloneHandle (h : Heap) (slot : SlotId) : Heap := { h with weak := h.weak.clone slot }

def dropHandle (h : Heap) (slot : SlotId) : Heap := { h with weak := h.weak.drop slot }

end CountedHeap.Heap
