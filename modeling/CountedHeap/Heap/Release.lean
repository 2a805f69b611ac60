import CountedHeap.Heap.Registry

/-!
Releases and the stages of a destruction. Exactly one caller wins the claim on an object, and
with it the right to destroy it.
-/

namespace CountedHeap.Heap

def tryClaim (h : Heap) (a : Addr) : Bool × Heap :=
  match h.objects[a]? with
  | none => (false, h)
  | some o => (!o.claimed, h.update a ({ · with claimed := true }))

def unclaim (h : Heap) (a : Addr) : Heap := h.update a ({ · with claimed := false })

/-- Claims an object whose last reference went. A traced object leaves the registry with it. -/
def condemn (h : Heap) (a : Addr) : Bool × Heap :=
  match h.tryClaim a with
  | (false, h) => (false, h)
  | (true, h) => (true, if (h.objects[a]?).any Object.traced then h.forget a else h)

/-- Drops one reference and tells whether the object is to be destroyed now. A traced survivor
that was not registered is registered, if that is asked for and the registry can grow. -/
def lower (h : Heap) (a : Addr) : Except Fault (Bool × Heap) :=
  match h.valid a with
  | .error fault => .error fault
  | .ok o =>
      match o.word.decrementBuffered.getD o.word.decrement with
      | .error _ => .error (.doubleRelease a)
      | .ok (previous, word) =>
          let h := h.update a ({ · with word })
          if previous = 1 then .ok (h.condemn a)
          else if !o.buffered && h.autoRegister && o.traced then
            match h.register a with
            | .ok (_, h) => .ok (false, h)
            | .error _ => .ok (false, h)
          else .ok (false, h)

def detachWeak (h : Heap) (a : Addr) : Heap :=
  if (h.objects[a]?).any Object.weak then { h with weak := h.weak.detach a } else h

def takeDestructor (h : Heap) (a : Addr) : Option Nat × Heap :=
  ((h.objects[a]?).bind Object.destructor, h.update a ({ · with destructor := none }))

def reclaim (h : Heap) (a : Addr) : Heap :=
  match h.objects[a]? with
  | none => h
  | some o =>
      let h := h.update a ({ · with mark := 0 })
      { h with
        large := if o.isLarge then h.large.erase a else h.large
        books := h.books.recordDealloc o.totalBytes
        pool := h.pool.free a o.totalBytes }

end CountedHeap.Heap
