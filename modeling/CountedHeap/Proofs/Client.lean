import CountedHeap.Machine
import CountedHeap.Proofs.References

/-!
A client that keeps a ledger: for each object the number of references it owns. Making an object,
retaining or upgrading one, and taking one out of a slot each give it a reference; a release takes
one, and only a reference that is owned may be released.

What the surroundings do stands beside the calls: how much memory there is, whether the registry
may grow, and in which order it is read.
-/

namespace CountedHeap

inductive Call where
  | declare (type : Nat) (tracer : Tracer)
  | alloc (size type : Nat) (destructor : Option Nat)
  | retain (object : Addr)
  | release (object : Addr)
  | tryRelease (object : Addr)
  | assign (object : Addr) (slot : Nat) (value : Option Addr)
  | load (object : Addr) (slot : Nat)
  | take (object : Addr) (slot : Nat)
  | addCandidate (object : Addr)
  | downgrade (object : Addr)
  | upgrade (handle : SlotId)
  | cloneHandle (handle : SlotId)
  | dropHandle (handle : SlotId)
  | configure (settings : CollectorSettings)
  | collect
  | trigger
  | memory (limit : Nat)
  | room (canGrow : Bool)
  | reorder (registry : Registry)

structure Client where
  machine : Machine
  owned : Addr → Nat := fun _ => 0

namespace Client

def gain (owned : Addr → Nat) (a : Addr) : Addr → Nat := Function.update owned a (owned a + 1)

def lose (owned : Addr → Nat) (a : Addr) : Addr → Nat := Function.update owned a (owned a - 1)

@[simp] theorem gain_self (owned : Addr → Nat) (a : Addr) : gain owned a a = owned a + 1 :=
  Function.update_self ..

@[simp] theorem lose_self (owned : Addr → Nat) (a : Addr) : lose owned a a = owned a - 1 :=
  Function.update_self ..

theorem gain_of_ne (owned : Addr → Nat) {a b : Addr} (apart : b ≠ a) : gain owned a b = owned b :=
  Function.update_of_ne apart ..

theorem lose_of_ne (owned : Addr → Nat) {a b : Addr} (apart : b ≠ a) : lose owned a b = owned b :=
  Function.update_of_ne apart ..

def onHeap (c : Client) (heap : Heap) : Client := { c with machine := { c.machine with heap } }

/-- What a call makes of machine and ledger. A call that is refused changes neither. -/
def call (c : Client) : Call → Client
  | .declare type tracer =>
      match c.machine.heap.registerType type tracer with
      | .ok heap => c.onHeap heap
      | .error _ => c
  | .alloc size type destructor =>
      match c.machine.heap.alloc size type destructor with
      | .ok (a, heap) => { c.onHeap heap with owned := gain c.owned a }
      | .error _ => c
  | .retain a =>
      match c.machine.heap.tryRetain a with
      | .ok heap => { c.onHeap heap with owned := gain c.owned a }
      | .error _ => c
  | .release a => { machine := c.machine.release a, owned := lose c.owned a }
  | .tryRelease a =>
      match c.machine.tryRelease a with
      | .ok machine => { machine, owned := lose c.owned a }
      | .error _ => c
  | .assign a slot value =>
      match c.machine.assignRef a slot value with
      | .ok machine => { c with machine }
      | .error _ => c
  | .load _ _ => c
  | .take a slot =>
      match c.machine.heap.takeRef a slot with
      | .ok (found, heap) => { c.onHeap heap with owned := found.elim c.owned (gain c.owned) }
      | .error _ => c
  | .addCandidate a => c.onHeap (c.machine.heap.addCandidate a).2
  | .downgrade a =>
      match c.machine.heap.downgrade a with
      | .ok (_, heap) => c.onHeap heap
      | .error _ => c
  | .upgrade handle =>
      let (found, heap) := c.machine.heap.upgrade handle
      { c.onHeap heap with owned := found.elim c.owned (gain c.owned) }
  | .cloneHandle handle => c.onHeap (c.machine.heap.cloneHandle handle)
  | .dropHandle handle => c.onHeap (c.machine.heap.dropHandle handle)
  | .configure settings =>
      match c.machine.heap.collector.configure settings with
      | .ok collector => c.onHeap { c.machine.heap with collector }
      | .error _ => c
  | .collect => { c with machine := c.machine.collect }
  | .trigger => { c with machine := c.machine.trigger.2 }
  | .memory limit =>
      let pool := c.machine.heap.pool
      c.onHeap { c.machine.heap with pool := { pool with system := { pool.system with limit } } }
  | .room canGrow =>
      c.onHeap { c.machine.heap with collector := { c.machine.heap.collector with canGrow } }
  | .reorder registry =>
      c.onHeap { c.machine.heap with collector := { c.machine.heap.collector with registry } }

def step (c : Client) : Client := { c with machine := c.machine.step }

def fresh (heap : Heap) : Client := { machine := { heap } }

end Client

def Heap.Reports (h : Heap) (a : Addr) (slot : Nat) : Prop :=
  ∃ o t, h.objects[a]? = some o ∧ o.traced = true ∧ h.types[o.type]? = some t ∧
    slot ∈ t.slots o.payload.slots.size

instance (h : Heap) (a : Addr) (slot : Nat) : Decidable (h.Reports a slot) :=
  decidable_of_iff ((h.objects[a]?).any (fun o => o.traced &&
      (h.types[o.type]?).any fun t => decide (slot ∈ t.slots o.payload.slots.size)) = true) (by
    simp only [Option.any_eq_true, Bool.and_eq_true, decide_eq_true_eq, Heap.Reports]
    constructor
    · rintro ⟨o, there, traced, t, type, reported⟩
      exact ⟨o, t, there, traced, type, reported⟩
    · rintro ⟨o, t, there, traced, type, reported⟩
      exact ⟨o, there, traced, t, type, reported⟩)

/-- What a client and its surroundings keep to. -/
structure Rule where
  /-- References are stored only where the tracer of their owner reports them. -/
  reporting : Prop
  roomy : Prop
  /-- When a pass may start. -/
  passes : Heap → Prop

namespace Rule

/-- Nothing is asked but that releases are of owned references. -/
def lax : Rule := { reporting := False, roomy := False, passes := fun _ => True }

/-- The registry misses no candidate, and no pass leaves garbage for its size. -/
def thorough : Rule :=
  { reporting := True
    roomy := True
    passes := fun h =>
      h.collector.settings.minimum = 1 ∧ h.live.card ≤ h.collector.settings.budget }

def Permits (rule : Rule) (c : Client) : Call → Prop
  | .release a | .tryRelease a => 0 < c.owned a
  | .assign a slot value =>
      rule.reporting → value.isSome = true → c.machine.heap.Reports a slot
  | .collect => rule.passes c.machine.heap
  | .trigger =>
      let (due, collector) := c.machine.heap.collector.noteAllocation
      due = true → rule.passes { c.machine.heap with collector }
  | .room canGrow => rule.roomy → canGrow = true
  | .reorder registry => registry.Perm c.machine.heap.collector.registry
  | _ => True

def AtRest (rule : Rule) (c : Client) (call : Call) : Prop :=
  c.machine.idle = true ∧ rule.Permits c call

end Rule

/-- The clients that calls and steps lead to. -/
inductive Client.Run (may : Client → Call → Prop) (c : Client) : Client → Prop where
  | start : Run may c c
  | call {d : Client} (call : Call) (run : Run may c d) (permitted : may d call) :
      Run may c (d.call call)
  | step {d : Client} (run : Run may c d) : Run may c d.step

namespace Rule

variable (rule : Rule) [Decidable rule.reporting] [Decidable rule.roomy]
  [DecidablePred rule.passes] (c : Client)

instance : (request : Call) → Decidable (rule.Permits c request)
  | .release a | .tryRelease a => inferInstanceAs (Decidable (0 < c.owned a))
  | .assign a slot value => inferInstanceAs (Decidable
      (rule.reporting → value.isSome = true → c.machine.heap.Reports a slot))
  | .collect => inferInstanceAs (Decidable (rule.passes c.machine.heap))
  | .trigger => inferInstanceAs (Decidable
      (c.machine.heap.collector.noteAllocation.1 = true → rule.passes
        { c.machine.heap with collector := c.machine.heap.collector.noteAllocation.2 }))
  | .room canGrow => inferInstanceAs (Decidable (rule.roomy → canGrow = true))
  | .reorder registry =>
      inferInstanceAs (Decidable (registry.Perm c.machine.heap.collector.registry))
  | .declare _ _ | .alloc _ _ _ | .retain _ | .load _ _ | .take _ _ | .addCandidate _
  | .downgrade _ | .upgrade _ | .cloneHandle _ | .dropHandle _ | .configure _ | .memory _ =>
      inferInstanceAs (Decidable True)

instance (request : Call) : Decidable (rule.AtRest c request) :=
  inferInstanceAs (Decidable (c.machine.idle = true ∧ rule.Permits c request))

instance : Decidable lax.reporting := inferInstanceAs (Decidable False)

instance : Decidable lax.roomy := inferInstanceAs (Decidable False)

instance : DecidablePred lax.passes := fun _ => inferInstanceAs (Decidable True)

instance : Decidable thorough.reporting := inferInstanceAs (Decidable True)

instance : Decidable thorough.roomy := inferInstanceAs (Decidable True)

instance : DecidablePred thorough.passes := fun h =>
  inferInstanceAs (Decidable (h.collector.settings.minimum = 1 ∧
    h.live.card ≤ h.collector.settings.budget))

end Rule

namespace Client

variable {may : Client → Call → Prop}

def steps : Nat → Client → Client
  | 0, c => c
  | n + 1, c => c.step.steps n

def session (c : Client) : List (Call × Nat) → Client
  | [] => c
  | (request, n) :: rest => ((c.call request).steps n).session rest

def Follows (may : Client → Call → Prop) (c : Client) : List (Call × Nat) → Prop
  | [] => True
  | (request, n) :: rest => may c request ∧ Follows may ((c.call request).steps n) rest

instance decidableFollows [∀ c request, Decidable (may c request)] (c : Client) :
    (script : List (Call × Nat)) → Decidable (Follows may c script)
  | [] => inferInstanceAs (Decidable True)
  | (request, n) :: rest =>
      let _ := decidableFollows ((c.call request).steps n) rest
      inferInstanceAs (Decidable (_ ∧ _))

theorem machine_steps (c : Client) (n : Nat) :
    (c.steps n).machine = c.machine.steps n ∧ (c.steps n).owned = c.owned := by
  induction n generalizing c with
  | zero => exact ⟨rfl, rfl⟩
  | succ n ih => exact ih c.step

theorem Run.steps {c d : Client} (run : Run may c d) (n : Nat) : Run may c (d.steps n) := by
  induction n generalizing d with
  | zero => exact run
  | succ n ih => exact ih run.step

theorem Run.session {c d : Client} (run : Run may c d) (script : List (Call × Nat))
    (follows : Follows may d script) : Run may c (d.session script) := by
  induction script generalizing d with
  | nil => exact run
  | cons first rest ih => exact ih ((run.call first.1 follows.1).steps first.2) follows.2

end Client

end CountedHeap
