import CountedHeap.Heap.Handles
import CountedHeap.Heap.Slots
import CountedHeap.Pass

/-!
A heap at work. What a release or a pass sets off is a list of tasks, the most urgent first, and
a step carries out one of them; so the state in the middle of a cascade is a value.

One kind of task stands for the client's own code, a destructor or a tracer. While it is the most
urgent task the client may use every operation; a step from there is its return.
-/

namespace CountedHeap

inductive Callback where
  /-- The destructor known as `number`, run on an object. -/
  | destructor (object : Addr) (number : Nat)
  | tracer (object : Addr)
  deriving DecidableEq, Repr

inductive Task where
  | release (object : Addr)
  | detach (object : Addr)
  | finalize (object : Addr)
  | callback (code : Callback)
  /-- Release what the payload owns, if the object is traced. -/
  | unload (object : Addr)
  | releaseChildren (object : Addr)
  | reclaim (object : Addr)
  | search (pass : Pass)
  | expand (pass : Pass) (object : Addr)
  | answer (reclaimed : Nat)
  deriving Inhabited

namespace Task

def destruction (a : Addr) : List Task := [detach a, finalize a, unload a, reclaim a]

/-- The destruction of a pass's garbage: each stage is over for all before the next begins, so
that a destructor may still read the neighbours of its object. -/
def disposal (garbage : List Addr) : List Task :=
  garbage.map detach ++ garbage.map finalize ++ garbage.map unload ++ garbage.map reclaim

end Task

structure Machine where
  heap : Heap
  tasks : List Task := []
  reclaimed : Nat := 0
  deriving Inhabited

namespace Machine

def push (m : Machine) (tasks : List Task) : Machine := { m with tasks := tasks ++ m.tasks }

def onHeap (m : Machine) (change : Heap → Heap) : Machine := { m with heap := change m.heap }

/-! Operations that leave work behind -/

def tryRelease (m : Machine) (a : Addr) : Except Fault Machine :=
  match m.heap.lower a with
  | .error fault => .error fault
  | .ok (last, heap) => .ok ({ m with heap }.push (if last then Task.destruction a else []))

def release (m : Machine) (a : Addr) : Machine :=
  match m.tryRelease a with
  | .ok m => m
  | .error _ => m.onHeap Heap.absorb

def releaseBatch (m : Machine) (objects : List Addr) : Machine := m.push (objects.map Task.release)

/-- Stores a reference in a slot: the new one is retained, then the one it replaces released. -/
def assignRef (m : Machine) (a : Addr) (slot : Nat) (value : Option Addr) :
    Except Fault Machine :=
  match m.heap.exchangeRef a slot value with
  | .error fault => .error fault
  | .ok (previous, heap) => .ok ({ m with heap }.push (previous.toList.map Task.release))

def collect (m : Machine) : Machine :=
  let (pass, heap) := m.heap.startPass
  { m with heap }.push [.search pass]

def trigger (m : Machine) : Bool × Machine :=
  let (due, collector) := m.heap.collector.noteAllocation
  let m := m.onHeap ({ · with collector })
  (due, if due then m.collect else m)

/-! Steps -/

def tracing (m : Machine) (a : Addr) : List Task :=
  if (m.heap.tracer? a).isSome then [.callback (.tracer a)] else []

def advance (m : Machine) (pass : Pass) : Machine :=
  match pass.walk.asks? with
  | some a => m.push (m.tracing a ++ [.expand pass a])
  | none =>
      if pass.walk.finished then
        let (garbage, heap) := m.heap.finishPass pass
        { m with heap }.push (Task.disposal garbage ++ [Task.answer garbage.length])
      else m.push [.search { pass with walk := pass.walk.turn m.heap.look }]

def perform (m : Machine) : Task → Machine
  | .release a => m.release a
  | .detach a => m.onHeap (·.detachWeak a)
  | .finalize a =>
      let (destructor, heap) := m.heap.takeDestructor a
      { m with heap }.push (destructor.toList.map fun number => .callback (.destructor a number))
  | .callback _ => m
  | .unload a =>
      if (m.heap.objects[a]?).any Object.traced
      then m.push (m.tracing a ++ [.releaseChildren a]) else m
  | .releaseChildren a => m.push ((m.heap.children a).map Task.release)
  | .reclaim a => m.onHeap (·.reclaim a)
  | .search pass => m.advance pass
  | .expand pass a =>
      m.push [.search
        { pass with walk := pass.walk.expand m.heap.look (m.heap.children a) }]
  | .answer reclaimed => { m with reclaimed }

def step (m : Machine) : Machine :=
  match m.tasks with
  | [] => m
  | task :: rest => { m with tasks := rest }.perform task

/-- The machine after `n` steps in which every callback returns at once. -/
def steps : Nat → Machine → Machine
  | 0, m => m
  | n + 1, m => m.step.steps n

def callback? (m : Machine) : Option Callback :=
  match m.tasks with
  | .callback code :: _ => some code
  | _ => none

def idle (m : Machine) : Bool := m.tasks.isEmpty

end Machine

end CountedHeap
