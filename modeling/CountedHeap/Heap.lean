import CountedHeap.Collector
import CountedHeap.Object
import CountedHeap.ObjectStats
import CountedHeap.Settings.Environment
import CountedHeap.Tracer
import CountedHeap.WeakTable
import Std.Data.TreeSet

/-!
A heap of counted objects. An address keeps the last object placed there, and a handle is an
address: one to a reclaimed object reads as invalid until its block holds a new object.
-/

namespace CountedHeap

structure Heap where
  pool : Pool := {}
  objects : Std.TreeMap Addr Object := {}
  /-- Large objects not reclaimed. Their memory leaves the pool's care when they are freed. -/
  large : Std.TreeSet Addr := {}
  types : Std.TreeMap Nat Tracer := {}
  collector : Collector
  weak : WeakTable := {}
  books : ObjectStats := {}
  autoRegister : Bool := true
  deriving Inhabited

namespace Heap

/-- A heap under settings whose check was passed. `entropy` seeds the draws if no seed is set. -/
def create (settings : Settings) (entropy : UInt64) : Except Fault Heap :=
  match settings.collector.validate with
  | .error fault => .error fault
  | .ok () =>
      .ok {
        collector :=
          { settings := settings.collector
            draws := .seeded (settings.seed.getD entropy) }
        autoRegister := settings.autoRegister }

def ofEnvironment (env : Settings.Environment) (entropy : UInt64) : Except Fault Heap :=
  create (.ofEnvironment env) entropy

def update (h : Heap) (a : Addr) (change : Object → Object) : Heap :=
  { h with objects := h.objects.modify a change }

theorem getElem?_update (h : Heap) (a b : Addr) (change : Object → Object) :
    (h.update a change).objects[b]? =
      if a = b then (h.objects[b]?).map change else h.objects[b]? := by
  by_cases same : a = b
  · subst same
    simp [update]
  · simp [update, Std.TreeMap.getElem?_modify, same]

def valid (h : Heap) (a : Addr) : Except Fault Object :=
  match h.objects[a]? with
  | some o => if o.valid then .ok o else .error (.invalidObject a)
  | none => .error (.invalidObject a)

/-! Types and children -/

/-- Declares how objects of a type hold references. Objects made earlier stay untraced. -/
def registerType (h : Heap) (type : Nat) (tracer : Tracer) : Except Fault Heap :=
  if h.types.contains type then .error (.duplicateType type)
  else .ok { h with types := h.types.insert type tracer }

def tracer? (h : Heap) (a : Addr) : Option Tracer :=
  (h.objects[a]?).bind fun o => h.types[o.type]?

def children (h : Heap) (a : Addr) : List Addr :=
  match h.objects[a]?, h.tracer? a with
  | some o, some tracer => tracer.children o.payload
  | _, _ => []

def memoryAt (h : Heap) (a : Addr) : List UInt8 :=
  (h.objects[a]?).elim (h.pool.written a) Object.image

/-! Making, retaining and probing -/

def sizeLimit : Nat := UInt64.size

/-- A new object with an empty payload and a count of one. Only the payload is cleared: what else
stood in the block stays behind it. -/
def alloc (h : Heap) (size type : Nat) (destructor : Option Nat) : Except Fault (Addr × Heap) :=
  let total := Object.headerBytes + size
  if size = 0 then .error (.invalidArgument "object payload size must be non-zero")
  else if sizeLimit ≤ total then .error (.outOfMemory size)
  else
    match h.pool.alloc total with
    | .error fault => .error fault
    | .ok (a, pool) =>
        let beyond := (h.memoryAt a).drop total
        let o := Object.create size type destructor (h.types.contains type) beyond
        .ok (a,
          { h with
            pool := pool.forgetContents a
            objects := h.objects.insert a o
            large := if o.isLarge then h.large.insert a else h.large
            books := h.books.recordAlloc total })

def tryRetain (h : Heap) (a : Addr) : Except Fault Heap :=
  match h.valid a with
  | .error fault => .error fault
  | .ok o =>
      match o.word.increment with
      | .ok (_, word) => .ok (h.update a ({ · with word }))
      | .error refused => .error (if refused = 0 then .invalidObject a else .countOverflow a)

def absorb (h : Heap) : Heap := { h with books := { h.books with misuse := h.books.misuse + 1 } }

def retain (h : Heap) (a : Addr) : Heap :=
  match h.tryRetain a with
  | .ok h => h
  | .error _ => h.absorb

def retainBatch (h : Heap) (objects : List Addr) : Heap := objects.foldl retain h

/-- The live object at an address whose memory is still this heap's to read. -/
def probe? (h : Heap) (a : Addr) : Option Object :=
  if h.pool.owns a || h.large.contains a then (h.objects[a]?).filter Object.valid else none

def isValid (h : Heap) (a : Addr) : Bool := (h.probe? a).isSome

def refCount (h : Heap) (a : Addr) : Nat := (h.probe? a).elim 0 Object.count

def typeOf? (h : Heap) (a : Addr) : Option Nat := (h.probe? a).map Object.type

def sizeOf? (h : Heap) (a : Addr) : Option Nat := (h.probe? a).map Object.size

def dataOffset? (h : Heap) (a : Addr) : Option Nat := (h.probe? a).map fun _ => Object.headerBytes

end Heap

end CountedHeap
