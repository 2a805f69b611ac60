import CountedHeap.Bytes
import CountedHeap.Fault
import CountedHeap.SizeClass
import Std.Data.TreeMap

/-!
A pool of memory blocks. A request is served from the free list of its size class, the block freed
last first, and by carving when that is empty; larger ones go to the system each time.
-/

namespace CountedHeap

def blockAlignment : Nat := 16

/-- Where memory comes from: the address handed out next, and the number of bytes from which a
request is refused, at most those of an address space. No address is handed out twice, and none is
zero. -/
structure System where
  next : Addr := 0x6b7000000000
  limit : Nat := 0x800000000000
  deriving DecidableEq, Repr, Inhabited

namespace System

def grants (s : System) (bytes : Nat) : Bool := bytes < s.limit

def advance (s : System) (bytes : Nat) : System :=
  { s with next := s.next + blockAlignment * (bytes / blockAlignment + 1) }

end System

structure Shelf where
  head : Option Addr := none
  totalBlocks : Nat := 0
  freeBlocks : Nat := 0
  allocations : Nat := 0
  deallocations : Nat := 0
  deriving DecidableEq, Repr, Inhabited

structure Carving where
  serial : Nat
  sizeClass : SizeClass
  deriving DecidableEq, Repr

structure Pool where
  system : System := {}
  shelves : Vector Shelf 16 := Vector.replicate 16 {}
  carved : Std.TreeMap Addr Carving := {}
  links : Std.TreeMap Addr (Option Addr) := {}
  largeAllocations : Nat := 0
  largeDeallocations : Nat := 0
  memory : Nat := 0
  peakMemory : Nat := 0
  /-- The bytes written at the front of each block since it was carved or held an object. -/
  contents : Std.TreeMap Addr (List UInt8) := {}
  deriving Inhabited

namespace Pool

def linkBytes : Nat := 16

def shelf (p : Pool) (c : SizeClass) : Shelf := p.shelves.get c

def setShelf (p : Pool) (c : SizeClass) (s : Shelf) : Pool :=
  { p with shelves := p.shelves.setIfInBounds c.val s }

theorem shelf_setShelf (p : Pool) (c d : SizeClass) (s : Shelf) :
    (p.setShelf c s).shelf d = if c = d then s else p.shelf d := by
  have read : ∀ shelves : Vector Shelf 16, shelves.get d = shelves[d.val] := fun _ => rfl
  simp only [shelf, setShelf, read, Vector.getElem_setIfInBounds, Fin.ext_iff]

def grow (p : Pool) (bytes : Nat) : Pool :=
  { p with memory := p.memory + bytes, peakMemory := max p.peakMemory (p.memory + bytes) }

def request (p : Pool) (bytes : Nat) : Except Fault (Addr × Pool) :=
  if p.system.grants bytes then
    .ok (p.system.next, { p with system := p.system.advance bytes })
  else .error (.outOfMemory bytes)

def link (p : Pool) (block : Addr) : Option Addr := (p.links[block]?).join

def chain (p : Pool) : (count : Nat) → (block : Option Addr) → List Addr
  | count + 1, some block => block :: p.chain count (p.link block)
  | _, _ => []

/-- The free list of a class, which is no longer than the list of all carved blocks. -/
def freeList (p : Pool) (c : SizeClass) : List Addr := p.chain p.carved.size (p.shelf c).head

def carve (p : Pool) (c : SizeClass) : Except Fault (Addr × Pool) :=
  let bytes := linkBytes + SizeClass.bytes c
  match p.request bytes with
  | .error fault => .error fault
  | .ok (block, p) =>
      let s := p.shelf c
      let p := { p with carved := p.carved.insert block ⟨p.carved.size, c⟩ }
      .ok (block, (p.grow bytes).setShelf c
        { s with totalBlocks := s.totalBlocks + 1, allocations := s.allocations + 1 })

def allocLarge (p : Pool) (bytes : Nat) : Except Fault (Addr × Pool) :=
  match p.request bytes with
  | .error fault => .error fault
  | .ok (block, p) => .ok (block, { p with largeAllocations := p.largeAllocations + 1 }.grow bytes)

def alloc (p : Pool) (bytes : Nat) : Except Fault (Addr × Pool) :=
  match SizeClass.fit? bytes with
  | none => p.allocLarge bytes
  | some c =>
      let s := p.shelf c
      match s.head with
      | none => p.carve c
      | some block =>
          .ok (block, p.setShelf c
            { s with
              head := p.link block
              freeBlocks := s.freeBlocks - 1
              allocations := s.allocations + 1 })

/-- Takes back a block that was requested with the same number of bytes. -/
def free (p : Pool) (block : Addr) (bytes : Nat) : Pool :=
  match SizeClass.fit? bytes with
  | none =>
      { p with largeDeallocations := p.largeDeallocations + 1, memory := p.memory - bytes }
  | some c =>
      let s := p.shelf c
      { p with links := p.links.insert block s.head }.setShelf c
        { s with
          head := some block
          freeBlocks := s.freeBlocks + 1
          deallocations := s.deallocations + 1 }

def owns (p : Pool) (block : Addr) : Bool := p.carved.contains block

def allocBatch (p : Pool) : List Nat → List (Option Addr) × Pool
  | [] => ([], p)
  | bytes :: rest =>
      match p.alloc bytes with
      | .ok (block, p) =>
          let (blocks, p) := p.allocBatch rest
          (some block :: blocks, p)
      | .error _ =>
          let (blocks, p) := p.allocBatch rest
          (none :: blocks, p)

/-- Frees every block that has a size beside it, and empties its entry. Entries beyond the list
of sizes stay as they are. -/
def freeBatch (p : Pool) : List (Option Addr) → List Nat → List (Option Addr) × Pool
  | some block :: rest, bytes :: sizes =>
      let (left, p) := (p.free block bytes).freeBatch rest sizes
      (none :: left, p)
  | none :: rest, _ :: sizes =>
      let (left, p) := p.freeBatch rest sizes
      (none :: left, p)
  | blocks, _ => (blocks, p)

/-- Zeroes the operation counters. Block counts and byte totals are state, and stay. -/
def resetStats (p : Pool) : Pool :=
  { p with
    shelves := p.shelves.map fun s => { s with allocations := 0, deallocations := 0 }
    largeAllocations := 0
    largeDeallocations := 0 }

def written (p : Pool) (block : Addr) : List UInt8 := p.contents.getD block []

def write (p : Pool) (block : Addr) (offset : Nat) (bytes : List UInt8) : Pool :=
  { p with contents := p.contents.insert block (overlay (p.written block) offset bytes) }

def read (p : Pool) (block : Addr) (offset count : Nat) : List UInt8 :=
  stretch (p.written block) offset count

def forgetContents (p : Pool) (block : Addr) : Pool :=
  { p with contents := p.contents.erase block }

end Pool

end CountedHeap
