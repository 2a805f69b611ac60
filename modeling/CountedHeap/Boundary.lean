import CountedHeap.Machine
import CountedHeap.Pool.Stats

/-!
The entry points for callers that may pass null. A null argument makes a call do nothing and answer
its neutral value; faults become null or false.
-/

namespace CountedHeap.Boundary

def onMachine {α : Type} (neutral : α) (host : Option Machine) (call : Machine → α × Machine) :
    α × Option Machine :=
  match host with
  | none => (neutral, none)
  | some m =>
      let (answer, m) := call m
      (answer, some m)

def onObject {α : Type} (neutral : α) (host : Option Machine) (object : Option Addr)
    (call : Machine → Addr → α × Machine) : α × Option Machine :=
  match object with
  | none => (neutral, host)
  | some a => onMachine neutral host fun m => call m a

def ask {α : Type} (neutral : α) (host : Option Machine) (object : Option Addr)
    (question : Heap → Addr → α) : α :=
  match host, object with
  | some m, some a => question m.heap a
  | _, _ => neutral

def create (env : Settings.Environment) (entropy : UInt64) : Option Machine :=
  match Heap.ofEnvironment env entropy with
  | .ok heap => some { heap }
  | .error _ => none

/-! Pool -/

def poolAlloc (host : Option Machine) (bytes : Nat) : Option Addr × Option Machine :=
  onMachine none host fun m =>
    match m.heap.pool.alloc bytes with
    | .ok (block, pool) => (some block, m.onHeap ({ · with pool }))
    | .error _ => (none, m)

def poolFree (host : Option Machine) (block : Option Addr) (bytes : Nat) : Option Machine :=
  (onObject () host block fun m a => ((), m.onHeap fun h => { h with pool := h.pool.free a bytes })).2

def poolStats (host : Option Machine) : PoolStats := host.elim {} (·.heap.pool.stats)

def poolResetStats (host : Option Machine) : Option Machine :=
  host.map fun m => m.onHeap fun h => { h with pool := h.pool.resetStats }

/-! Objects -/

def alloc (host : Option Machine) (size type : Nat) (destructor : Option Nat) :
    Option Addr × Option Machine :=
  onMachine none host fun m =>
    match m.heap.alloc size type destructor with
    | .ok (a, heap) => (some a, { m with heap })
    | .error _ => (none, m)

def retain (host : Option Machine) (object : Option Addr) : Option Addr × Option Machine :=
  onObject none host object fun m a => (some a, m.onHeap (·.retain a))

def release (host : Option Machine) (object : Option Addr) : Option Machine :=
  (onObject () host object fun m a => ((), m.release a)).2

def refCount (host : Option Machine) (object : Option Addr) : Nat :=
  ask 0 host object Heap.refCount

def typeOf (host : Option Machine) (object : Option Addr) : Nat :=
  ask 0 host object fun h a => (h.typeOf? a).getD 0

def sizeOf (host : Option Machine) (object : Option Addr) : Nat :=
  ask 0 host object fun h a => (h.sizeOf? a).getD 0

def dataOffset? (host : Option Machine) (object : Option Addr) : Option Nat :=
  ask none host object Heap.dataOffset?

def isValid (host : Option Machine) (object : Option Addr) : Bool :=
  ask false host object Heap.isValid

/-- Hands over the reference in a variable and leaves null behind. No count changes. -/
def move (cell : Option (Option Addr)) : Option Addr × Option (Option Addr) :=
  match cell with
  | none => (none, none)
  | some held => (held, some none)

/-! Weak handles -/

def weakCreate (host : Option Machine) (object : Option Addr) : Option SlotId × Option Machine :=
  onObject none host object fun m a =>
    match m.heap.downgrade a with
    | .ok (handle, heap) => (some handle, { m with heap })
    | .error _ => (none, m)

def weakAccess (host : Option Machine) (handle : Option SlotId) : Option Addr :=
  ask none host handle Heap.weakTarget?

def weakPromote (host : Option Machine) (handle : Option SlotId) : Option Addr × Option Machine :=
  onObject none host handle fun m slot =>
    let (object, heap) := m.heap.upgrade slot
    (object, { m with heap })

def weakIsValid (host : Option Machine) (handle : Option SlotId) : Bool :=
  ask false host handle Heap.isAlive

def weakDestroy (host : Option Machine) (handle : Option SlotId) : Option Machine :=
  (onObject () host handle fun m slot => ((), m.onHeap (·.dropHandle slot))).2

def weakFill (host : Option Machine) : List (Option Addr) → List (Option SlotId) →
    List (Option SlotId) × Option Machine
  | object :: objects, _ :: row =>
      let (handle, host) := weakCreate host object
      let (row, host) := weakFill host objects row
      (handle :: row, host)
  | _, row => (row, host)

/-- Handles for the objects at the front of one array, written to the front of another. Entries
beyond the shorter array, or beyond `count`, keep what they hold; a null array is an empty one. -/
def weakCreateBatch (host : Option Machine) (objects : Option (List (Option Addr)))
    (handles : Option (List (Option SlotId))) (count : Nat) :
    Option (List (Option SlotId)) × Option Machine :=
  match handles with
  | none => (none, host)
  | some row =>
      let (row, host) := weakFill host ((objects.getD []).take count) row
      (some row, host)

def weakDestroyBatch (host : Option Machine) (handles : Option (List (Option SlotId))) :
    Option (List (Option SlotId)) × Option Machine :=
  (handles.map fun row => row.map fun _ => none, (handles.getD []).foldl weakDestroy host)

/-! Cycle collection -/

def addCandidate (host : Option Machine) (object : Option Addr) : Bool × Option Machine :=
  onObject false host object fun m a =>
    let (added, heap) := m.heap.addCandidate a
    (added, { m with heap })

/-- Starts a pass; its result is there once the machine has run to its end. -/
def collect (host : Option Machine) : Option Machine := host.map Machine.collect

def reclaimed (host : Option Machine) : Nat := host.elim 0 Machine.reclaimed

def trigger (host : Option Machine) : Bool × Option Machine := onMachine false host Machine.trigger

/-- Installs settings. Invalid or null ones leave the present ones in place. -/
def configure (host : Option Machine) (settings : Option CollectorSettings) :
    Bool × Option Machine :=
  match settings with
  | none => (false, host)
  | some s =>
      onMachine false host fun m =>
        match m.heap.collector.configure s with
        | .ok collector => (true, m.onHeap ({ · with collector }))
        | .error _ => (false, m)

def settings (host : Option Machine) : CollectorSettings :=
  host.elim {} (·.heap.collector.settings)

def cycleStats (host : Option Machine) : CycleStats := host.elim {} (·.heap.collector.stats)

def resetCycleStats (host : Option Machine) : Option Machine :=
  host.map fun m => m.onHeap fun h => { h with collector := h.collector.resetStats }

end CountedHeap.Boundary
