import CountedHeap.Proofs.ActiveHandles
import CountedHeap.Proofs.Transparency

/-!
The entry points against the operations behind them. Each call that passes a machine and an object
is one operation or question with its answer put into the caller's terms; a batch is one for each
entry that is not null. A call that passes null is none at all and answers its neutral value. So a
script of calls leaves the machine as the script of operations does, and answers as it does.

Arrays and variables of the caller are lists and cells that are handed in and handed back.
-/

namespace CountedHeap

namespace Boundary

inductive Call where
  | poolAlloc (bytes : Nat)
  | poolFree (block : Option Addr) (bytes : Nat)
  | poolStats
  | resetPool
  | alloc (size type : Nat) (destructor : Option Nat)
  | retain (object : Option Addr)
  | release (object : Option Addr)
  | refCount (object : Option Addr)
  | typeOf (object : Option Addr)
  | sizeOf (object : Option Addr)
  | dataOffset (object : Option Addr)
  | isValid (object : Option Addr)
  | move (cell : Option (Option Addr))
  | weakCreate (object : Option Addr)
  | weakAccess (handle : Option SlotId)
  | weakPromote (handle : Option SlotId)
  | weakIsValid (handle : Option SlotId)
  | weakDestroy (handle : Option SlotId)
  | weakCreateBatch (objects : Option (List (Option Addr))) (handles : Option (List (Option SlotId)))
      (count : Nat)
  | weakDestroyBatch (handles : Option (List (Option SlotId)))
  | addCandidate (object : Option Addr)
  | collect
  | reclaimed
  | trigger
  | configure (settings : Option CollectorSettings)
  | settings
  | cycleStats
  | resetCycleStats

/-- What a call answers. A batch and a move answer with what they leave in the caller's memory. -/
inductive Answer where
  | done
  | address (found : Option Addr)
  | offset (found : Option Nat)
  | number (found : Nat)
  | flag (yes : Bool)
  | handle (slot : Option SlotId)
  | handles (row : Option (List (Option SlotId)))
  | moved (object : Option Addr) (cell : Option (Option Addr))
  | poolStats (stats : PoolStats)
  | cycleStats (stats : CycleStats)
  | settings (settings : CollectorSettings)
  deriving DecidableEq

def Answer.slot? : Answer → Option SlotId
  | .handle slot => slot
  | _ => none

def perform (host : Option Machine) : Call → Answer × Option Machine
  | .poolAlloc bytes => (Boundary.poolAlloc host bytes).map .address id
  | .poolFree block bytes => (.done, Boundary.poolFree host block bytes)
  | .poolStats => (.poolStats (Boundary.poolStats host), host)
  | .resetPool => (.done, poolResetStats host)
  | .alloc size type destructor => (Boundary.alloc host size type destructor).map .address id
  | .retain object => (Boundary.retain host object).map .address id
  | .release object => (.done, Boundary.release host object)
  | .refCount object => (.number (Boundary.refCount host object), host)
  | .typeOf object => (.number (Boundary.typeOf host object), host)
  | .sizeOf object => (.number (Boundary.sizeOf host object), host)
  | .dataOffset object => (.offset (dataOffset? host object), host)
  | .isValid object => (.flag (Boundary.isValid host object), host)
  | .move cell => (.moved (Boundary.move cell).1 (Boundary.move cell).2, host)
  | .weakCreate object => (Boundary.weakCreate host object).map .handle id
  | .weakAccess handle => (.address (Boundary.weakAccess host handle), host)
  | .weakPromote handle => (Boundary.weakPromote host handle).map .address id
  | .weakIsValid handle => (.flag (Boundary.weakIsValid host handle), host)
  | .weakDestroy handle => (.done, Boundary.weakDestroy host handle)
  | .weakCreateBatch objects handles count =>
      (Boundary.weakCreateBatch host objects handles count).map .handles id
  | .weakDestroyBatch handles => (Boundary.weakDestroyBatch host handles).map .handles id
  | .addCandidate object => (Boundary.addCandidate host object).map .flag id
  | .collect => (.done, Boundary.collect host)
  | .reclaimed => (.number (Boundary.reclaimed host), host)
  | .trigger => (Boundary.trigger host).map .flag id
  | .configure settings => (Boundary.configure host settings).map .flag id
  | .settings => (.settings (Boundary.settings host), host)
  | .cycleStats => (.cycleStats (Boundary.cycleStats host), host)
  | .resetCycleStats => (.done, Boundary.resetCycleStats host)

def play (host : Option Machine) : List (Call × Nat) → List Answer × Option Machine
  | [] => ([], host)
  | (call, n) :: rest =>
      let (answer, next) := perform host call
      let (answers, last) := play (next.map (·.steps n)) rest
      (answer :: answers, last)

end Boundary

/-! What stands behind the entry points -/

/-- An operation of a machine, of its pool or of its counters. -/
inductive Native where
  | operate (operation : Operation)
  | ask (question : Question)
  | poolAlloc (bytes : Nat)
  | poolFree (block : Addr) (bytes : Nat)
  | reclaimed
  | cycleStats

inductive Outcome where
  | reply (reply : Reply)
  | block (served : Except Fault Addr)
  | reclaimed (count : Nat)
  | cycleStats (stats : CycleStats)

namespace Machine

def serve (m : Machine) : Native → Outcome × Machine
  | .operate operation => (.reply (m.answer operation), m.operate operation)
  | .ask question => (.reply (m.heap.reply question), m)
  | .poolAlloc bytes =>
      match m.heap.pool.alloc bytes with
      | .ok (block, pool) => (.block (.ok block), m.onHeap ({ · with pool }))
      | .error fault => (.block (.error fault), m)
  | .poolFree block bytes =>
      (.reply .done, m.onHeap fun h => { h with pool := h.pool.free block bytes })
  | .reclaimed => (.reclaimed m.reclaimed, m)
  | .cycleStats => (.cycleStats m.heap.collector.stats, m)

def serves (m : Machine) : List Native → List Outcome × Machine
  | [] => ([], m)
  | native :: rest =>
      let (outcome, n) := m.serve native
      let (outcomes, last) := n.serves rest
      (outcome :: outcomes, last)

def converse (m : Machine) : List (List Native × Nat) → List (List Outcome) × Machine
  | [] => ([], m)
  | (natives, n) :: rest =>
      let (outcomes, next) := m.serves natives
      let (others, last) := (next.steps n).converse rest
      (outcomes :: others, last)

end Machine

namespace Boundary

variable {host : Option Machine} {m : Machine}

def Call.natives : Call → List Native
  | .poolAlloc bytes => [.poolAlloc bytes]
  | .poolFree block bytes => block.toList.map (.poolFree · bytes)
  | .poolStats => [.ask .pool]
  | .resetPool => [.operate .resetPool]
  | .alloc size type destructor => [.operate (.call (.alloc size type destructor))]
  | .retain object => object.toList.map fun a => .operate (.retain a)
  | .release object => object.toList.map fun a => .operate (.call (.release a))
  | .refCount object => object.toList.map fun a => .ask (.count a)
  | .typeOf object => object.toList.map fun a => .ask (.type a)
  | .sizeOf object => object.toList.map fun a => .ask (.size a)
  | .dataOffset object => object.toList.map fun a => .ask (.data a)
  | .isValid object => object.toList.map fun a => .ask (.valid a)
  | .move _ => []
  | .weakCreate object => object.toList.map fun a => .operate (.call (.downgrade a))
  | .weakAccess handle => handle.toList.map fun s => .ask (.target s)
  | .weakPromote handle => handle.toList.map fun s => .operate (.call (.upgrade s))
  | .weakIsValid handle => handle.toList.map fun s => .ask (.alive s)
  | .weakDestroy handle => handle.toList.map fun s => .operate (.call (.dropHandle s))
  | .weakCreateBatch objects handles count =>
      (((objects.getD []).take count).take (handles.getD []).length).reduceOption.map fun a =>
        .operate (.call (.downgrade a))
  | .weakDestroyBatch handles =>
      (handles.getD []).reduceOption.map fun s => .operate (.call (.dropHandle s))
  | .addCandidate object => object.toList.map fun a => .operate (.call (.addCandidate a))
  | .collect => [.operate (.call .collect)]
  | .reclaimed => [.reclaimed]
  | .trigger => [.operate (.call .trigger)]
  | .configure chosen => chosen.toList.map fun s => .operate (.call (.configure s))
  | .settings => [.ask .settings]
  | .cycleStats => [.cycleStats]
  | .resetCycleStats => [.operate .resetCollector]

/-- What the entries of an array hold after a batch, as the operations behind it came out. A null
object takes none of them. -/
def Call.written : List (Option Addr) → List (Option SlotId) → List Outcome → List (Option SlotId)
  | none :: objects, _ :: row, outcomes => none :: written objects row outcomes
  | some _ :: objects, _ :: row, .reply (.handle slot) :: outcomes =>
      some slot :: written objects row outcomes
  | some _ :: objects, _ :: row, outcomes => none :: written objects row outcomes.tail
  | _, row, _ => row

/-- What a call answers that reaches no machine: null, zero, false, empty statistics and the default
settings. -/
def Call.neutral : Call → Answer
  | .poolAlloc _ | .alloc _ _ _ | .retain _ | .weakAccess _ | .weakPromote _ => .address none
  | .poolFree _ _ | .resetPool | .release _ | .weakDestroy _ | .collect | .resetCycleStats => .done
  | .refCount _ | .typeOf _ | .sizeOf _ | .reclaimed => .number 0
  | .dataOffset _ => .offset none
  | .isValid _ | .weakIsValid _ | .addCandidate _ | .trigger | .configure _ => .flag false
  | .weakCreate _ => .handle none
  | .poolStats => .poolStats {}
  | .cycleStats => .cycleStats {}
  | .settings => .settings {}
  | .move cell => .moved (Boundary.move cell).1 (Boundary.move cell).2
  | .weakCreateBatch objects handles count =>
      .handles (handles.map fun row => Call.written ((objects.getD []).take count) row [])
  | .weakDestroyBatch handles => .handles (handles.map fun row => row.map fun _ => none)

/-- An outcome in the terms of the caller. A fault becomes the neutral value. -/
def Call.decode (call : Call) : Outcome → Answer
  | .reply (.object found) => .address found
  | .reply (.handle slot) => .handle (some slot)
  | .reply (.flag yes) => .flag yes
  | .reply (.poolStats stats) => .poolStats stats
  | .reply (.settings found) => .settings found
  | .reply (.number found) =>
      match call with
      | .dataOffset _ => .offset found
      | _ => .number (found.getD 0)
  | .reply .done =>
      match call with
      | .retain object => .address object
      | .configure _ => .flag true
      | _ => .done
  | .block served => .address served.toOption
  | .reclaimed count => .number count
  | .cycleStats stats => .cycleStats stats
  | _ => call.neutral

def Call.answer : Call → List Outcome → Answer
  | .weakCreateBatch objects handles count, outcomes =>
      .handles (handles.map fun row => Call.written ((objects.getD []).take count) row outcomes)
  | .weakDestroyBatch handles, _ => .handles (handles.map fun row => row.map fun _ => none)
  | call, outcome :: _ => call.decode outcome
  | call, [] => call.neutral

theorem weakFill_none (objects : List (Option Addr)) (row : List (Option SlotId)) :
    weakFill none objects row = (Call.written objects row [], none) := by
  induction objects generalizing row with
  | nil => simp [weakFill, Call.written]
  | cons object objects ih =>
      cases row with
      | nil => cases object <;> simp [weakFill, Call.written]
      | cons entry row =>
          cases object <;>
            simp [weakFill, Call.written, weakCreate, onObject, onMachine, ih]

theorem weakDestroy_none (row : List (Option SlotId)) :
    row.foldl Boundary.weakDestroy none = none := by
  induction row with
  | nil => rfl
  | cons handle rest ih => cases handle <;> exact ih

theorem perform_none (call : Call) : perform none call = (call.neutral, none) := by
  cases call with
  | weakCreateBatch objects handles count =>
      cases handles with
      | none => rfl
      | some row =>
          simp only [perform, Boundary.weakCreateBatch, weakFill_none]
          rfl
  | weakDestroyBatch handles =>
      simp only [perform, Boundary.weakDestroyBatch, weakDestroy_none]
      rfl
  | poolFree object _ | retain object | release object | refCount object | typeOf object
  | sizeOf object | dataOffset object | isValid object | weakCreate object | weakAccess object
  | weakPromote object | weakIsValid object | weakDestroy object | addCandidate object
  | configure object => cases object <;> rfl
  | _ => rfl

theorem weakFill_some (m : Machine) (objects : List (Option Addr)) (row : List (Option SlotId)) :
    let natives := (objects.take row.length).reduceOption.map fun a =>
      Native.operate (.call (.downgrade a))
    weakFill (some m) objects row =
      (Call.written objects row (m.serves natives).1, some (m.serves natives).2) := by
  induction objects generalizing m row with
  | nil => simp [weakFill, Call.written, Machine.serves]
  | cons object objects ih =>
      cases row with
      | nil => cases object <;> simp [weakFill, Call.written, Machine.serves]
      | cons entry row =>
          cases object with
          | none =>
              simp [weakFill, Call.written, weakCreate, onObject, ih m row]
          | some a =>
              cases done : m.heap.downgrade a with
              | error fault =>
                  simp [weakFill, Call.written, weakCreate, onObject, onMachine, ih, done,
                    Machine.serves, Machine.serve, Machine.answer, Machine.operate, Reply.of,
                    Client.call]
              | ok made =>
                  simp [weakFill, Call.written, weakCreate, onObject, onMachine, ih, done,
                    Machine.serves, Machine.serve, Machine.answer, Machine.operate, Reply.of,
                    Client.call, Client.onHeap]

theorem weakDestroy_some (m : Machine) (row : List (Option SlotId)) :
    row.foldl Boundary.weakDestroy (some m) = some (m.serves
      (row.reduceOption.map fun s => Native.operate (.call (.dropHandle s)))).2 := by
  induction row generalizing m with
  | nil => rfl
  | cons handle rest ih =>
      cases handle with
      | none => exact ih m
      | some s => exact ih (m.onHeap (·.dropHandle s))

/-- A call on a machine is the operations behind it. -/
theorem perform_some (m : Machine) (call : Call) : perform (some m) call =
    (call.answer (m.serves call.natives).1, some (m.serves call.natives).2) := by
  cases call with
  | weakCreateBatch objects handles count =>
      cases handles with
      | none => simp [perform, Boundary.weakCreateBatch, Call.answer, Call.natives, Machine.serves]
      | some row =>
          simp only [perform, Boundary.weakCreateBatch, weakFill_some, Call.answer, Call.natives]
          rfl
  | weakDestroyBatch handles =>
      simp only [perform, Boundary.weakDestroyBatch, weakDestroy_some, Call.answer, Call.natives]
      rfl
  | poolAlloc bytes =>
      simp only [perform, Boundary.poolAlloc, onMachine, Call.natives, Machine.serves, Machine.serve]
      cases m.heap.pool.alloc bytes <;> rfl
  | alloc size type destructor =>
      simp only [perform, Boundary.alloc, onMachine, Call.natives, Machine.serves, Machine.serve,
        Machine.answer, Machine.operate, Client.call]
      cases m.heap.alloc size type destructor <;> rfl
  | weakCreate object =>
      cases object with
      | none => rfl
      | some a =>
          simp only [perform, Boundary.weakCreate, onObject, onMachine, Call.natives,
            Option.toList_some, List.map_cons, List.map_nil, Machine.serves, Machine.serve,
            Machine.answer, Machine.operate, Client.call]
          cases m.heap.downgrade a <;> rfl
  | configure chosen =>
      cases chosen with
      | none => rfl
      | some s =>
          simp only [perform, Boundary.configure, onMachine, Call.natives, Option.toList_some,
            List.map_cons, List.map_nil, Machine.serves, Machine.serve, Machine.answer,
            Machine.operate, Client.call]
          cases m.heap.collector.configure s <;> rfl
  | poolFree object _ | retain object | release object | refCount object | typeOf object
  | sizeOf object | dataOffset object | isValid object | weakAccess object | weakPromote object
  | weakIsValid object | weakDestroy object | addCandidate object => cases object <;> rfl
  | _ => rfl

/-! Scripts -/

theorem play_none (script : List (Call × Nat)) :
    play none script = (script.map (·.1.neutral), none) := by
  induction script with
  | nil => rfl
  | cons first rest ih => simp [play, perform_none, ih]

theorem play_some (m : Machine) (script : List (Call × Nat)) :
    let behind := m.converse (script.map fun entry => (entry.1.natives, entry.2))
    play (some m) script =
      (List.zipWith (fun entry outcomes => entry.1.answer outcomes) script behind.1, some behind.2) := by
  induction script generalizing m with
  | nil => rfl
  | cons first rest ih =>
      simp [play, perform_some, ih, Machine.converse]

/-! Batches entry by entry -/

theorem steps_zero (host : Option Machine) : host.map (·.steps 0) = host := by
  cases host <;> rfl

theorem weakFill_entries (host : Option Machine) (objects : List (Option Addr))
    (row : List (Option SlotId)) :
    let singles := List.zipWith (fun object _ => (Call.weakCreate object, 0)) objects row
    weakFill host objects row =
      ((play host singles).1.map Answer.slot? ++ row.drop singles.length, (play host singles).2) := by
  induction objects generalizing host row with
  | nil => simp [weakFill, play]
  | cons object objects ih =>
      cases row with
      | nil => simp [weakFill, play]
      | cons entry row =>
          simp [weakFill, play, perform, ih, steps_zero, Answer.slot?, Prod.map]

theorem weakDestroy_entries (host : Option Machine) (row : List (Option SlotId)) :
    row.foldl Boundary.weakDestroy host =
      (play host (row.map fun handle => (.weakDestroy handle, 0))).2 := by
  induction row generalizing host with
  | nil => rfl
  | cons handle rest ih =>
      simp [play, perform, ih, steps_zero]

/-! Handles along a script -/

theorem serve_orderly (orderly : m.heap.weak.Orderly) (native : Native)
    (other : ∀ handle, native ≠ .operate (.call (.cloneHandle handle))) :
    (m.serve native).2.heap.weak.Orderly := by
  cases native with
  | operate operation =>
      have turn := Machine.Turn.operate m operation fun handle same =>
        other handle (congrArg Native.operate same)
      exact turn.lasting WeakTable.orderly_lasting orderly
  | poolAlloc bytes =>
      simp only [Machine.serve]
      split <;> exact orderly
  | ask _ | poolFree _ _ | reclaimed | cycleStats => exact orderly

theorem serves_orderly (orderly : m.heap.weak.Orderly) (natives : List Native)
    (other : ∀ native ∈ natives, ∀ handle, native ≠ .operate (.call (.cloneHandle handle))) :
    (m.serves natives).2.heap.weak.Orderly := by
  induction natives generalizing m with
  | nil => exact orderly
  | cons native rest ih =>
      exact ih (serve_orderly orderly native (other native List.mem_cons_self))
        fun later member => other later (List.mem_cons_of_mem native member)

theorem natives_copy (call : Call) : ∀ native ∈ call.natives,
    ∀ handle, native ≠ .operate (.call (.cloneHandle handle)) := by
  have mapped : ∀ {α : Type} (row : List α) (make : α → Native),
      (∀ x handle, make x ≠ .operate (.call (.cloneHandle handle))) →
      ∀ native ∈ row.map make, ∀ handle, native ≠ .operate (.call (.cloneHandle handle)) := by
    intro α row make never native member handle
    obtain ⟨x, _, rfl⟩ := List.mem_map.mp member
    exact never x handle
  have single : ∀ one : Native, (∀ handle, one ≠ .operate (.call (.cloneHandle handle))) →
      ∀ native ∈ [one], ∀ handle, native ≠ .operate (.call (.cloneHandle handle)) := by
    intro one never native member
    rw [List.mem_singleton.mp member]
    exact never
  cases call with
  | move cell => exact fun native member => absurd member List.not_mem_nil
  | poolAlloc _ | poolStats | resetPool | alloc _ _ _ | collect | reclaimed | trigger | settings
  | cycleStats | resetCycleStats => exact single _ fun handle same => by cases same
  | _ => exact mapped _ _ fun x handle same => by cases same

theorem play_orderly (orderly : m.heap.weak.Orderly) (script : List (Call × Nat)) (n : Machine)
    (played : (play (some m) script).2 = some n) : n.heap.weak.Orderly := by
  induction script generalizing m with
  | nil =>
      cases played
      exact orderly
  | cons first rest ih =>
      rw [play, perform_some] at played
      exact ih (Machine.orderly_steps (serves_orderly orderly _ (natives_copy first.1)) first.2) played

/-! The entry points as a whole -/

def Call.passesNull : Call → Bool
  | .poolFree none _ | .retain none | .release none | .refCount none | .typeOf none | .sizeOf none
  | .dataOffset none | .isValid none | .move none | .weakCreate none | .weakAccess none
  | .weakPromote none | .weakIsValid none | .weakDestroy none | .addCandidate none
  | .configure none => true
  | _ => false

theorem null_dropped (host : Option Machine) (call : Call) (null : call.passesNull = true) :
    call.natives = [] ∧ perform host call = (call.neutral, host) := by
  cases call with
  | poolFree object _ | retain object | release object | refCount object | typeOf object
  | sizeOf object | dataOffset object | isValid object | move object | weakCreate object
  | weakAccess object | weakPromote object | weakIsValid object | weakDestroy object
  | addCandidate object | configure object =>
      cases object with
      | none => cases host <;> exact ⟨rfl, rfl⟩
      | some _ => cases null
  | _ => cases null

/-- What the calls at the entry points of a machine amount to. -/
structure Simulates (m : Machine) : Prop where
  nowhere : ∀ script, play none script = (script.map (·.1.neutral), none)
  dropped : ∀ host call, call.passesNull = true →
    call.natives = [] ∧ perform host call = (call.neutral, host)
  /-- The machine and the answers are those of the operations behind the calls. -/
  simulated : ∀ script,
    let behind := m.converse (script.map fun entry => (entry.1.natives, entry.2))
    play (some m) script =
      (List.zipWith (fun entry outcomes => entry.1.answer outcomes) script behind.1, some behind.2)
  /-- What is refused changes nothing and answers null or false. -/
  refused : ∀ (n : Machine) (fault : Fault),
    (∀ size type destructor, n.heap.alloc size type destructor = .error fault →
      perform (some n) (.alloc size type destructor) = (.address none, some n)) ∧
    (∀ a, n.heap.downgrade a = .error fault →
      perform (some n) (.weakCreate (some a)) = (.handle none, some n)) ∧
    ∀ chosen, n.heap.collector.configure chosen = .error fault →
      perform (some n) (.configure (some chosen)) = (.flag false, some n)
  /-- A batch is its entries, one call after the other. Entries that the objects do not reach stay. -/
  created : ∀ host objects row count,
    let singles := List.zipWith (fun object _ => (Call.weakCreate object, 0)) (objects.take count) row
    perform host (.weakCreateBatch (some objects) (some row) count) =
      (.handles (some ((play host singles).1.map Answer.slot? ++ row.drop singles.length)),
        (play host singles).2)
  destroyed : ∀ host row, perform host (.weakDestroyBatch (some row)) =
    (.handles (some (row.map fun _ => none)),
      (play host (row.map fun handle => (.weakDestroy handle, 0))).2)
  arrayless : ∀ host objects handles count,
    perform host (.weakCreateBatch none handles count) = (.handles handles, host) ∧
    perform host (.weakCreateBatch objects none count) = (.handles none, host) ∧
    perform host (.weakDestroyBatch none) = (.handles none, host)
  /-- A batch that is made and destroyed leaves as many slots in use as there were, but for handles
  in entries that it did not write. -/
  restored : ∀ script n, (play (some m) script).2 = some n → ∀ objects row count,
    (∀ s, some s ∈ row.drop (objects.take count).length → s ∈ n.heap.weak.slots) →
    ∃ created k l r,
      perform (some n) (.weakCreateBatch (some objects) (some row) count) =
        (.handles (some created), some k) ∧
      perform (some k) (.weakDestroyBatch (some created)) =
        (.handles (some (created.map fun _ => none)), some l) ∧
      Boundary.weakDestroyBatch (some n) (some (row.drop (objects.take count).length)) =
        (some ((row.drop (objects.take count).length).map fun _ => none), some r) ∧
      l.heap.weak.stats.active = r.heap.weak.stats.active ∧
      ((∀ handle ∈ row.drop (objects.take count).length, handle = none) →
        l.heap.weak.stats.active = n.heap.weak.stats.active)
  /-- A move changes no machine, and a second one of the same cell finds null. -/
  moved : ∀ host object, perform host (.move (some object)) = (.moved object (some none), host) ∧
    perform host (.move (some none)) = (.moved none (some none), host)
  zeroed : ({} : PoolStats).fragmentation = .zero ∧ ({} : PoolStats).utilization = .zero ∧
    ({} : CycleStats).efficiency = .zero

theorem destroy_nulls (host : Option Machine) (row : List (Option SlotId))
    (nulls : ∀ handle ∈ row, handle = none) : row.foldl Boundary.weakDestroy host = host := by
  induction row with
  | nil => rfl
  | cons handle rest ih =>
      rw [nulls handle List.mem_cons_self]
      exact ih fun later member => nulls later (List.mem_cons_of_mem handle member)

/-- The entry points simulate the operations behind them, on every machine that operations lead to. -/
theorem entry_points_simulate (settings : Settings) (entropy : UInt64) (heap : Heap)
    (made : Heap.create settings entropy = .ok heap) (log : List Event) (m : Machine)
    (under : Machine.RunUnder Machine.Copies { heap } log m) : Simulates m := by
  obtain rfl := Heap.create_initial made
  have empty : Heap.Named (.initial settings entropy) [] :=
    ⟨WeakTable.orderly_empty, fun a s listed => by cases listed⟩
  have orderly := (under.named (Machine.Told.initial settings entropy) empty).table
  constructor
  case nowhere => exact play_none
  case dropped => exact null_dropped
  case simulated => exact play_some m
  case refused =>
    intro n fault
    refine ⟨fun size type destructor refused => ?_, fun a refused => ?_, fun chosen refused => ?_⟩
    · simp [perform, Boundary.alloc, onMachine, refused]
    · simp [perform, Boundary.weakCreate, onObject, onMachine, refused]
    · simp [perform, Boundary.configure, onMachine, refused]
  case created =>
    intro host objects row count
    simp only [perform, Boundary.weakCreateBatch, Option.getD_some, weakFill_entries]
    rfl
  case destroyed =>
    intro host row
    simp only [perform, Boundary.weakDestroyBatch, Option.getD_some, weakDestroy_entries]
    rfl
  case arrayless =>
    intro host objects handles count
    refine ⟨?_, rfl, rfl⟩
    cases handles with
    | none => rfl
    | some row => simp [perform, Boundary.weakCreateBatch, weakFill]
  case restored =>
    intro script n played objects row count known
    obtain ⟨created, k, l, r, made, destroyed, rest, same⟩ :=
      batch_restores (play_orderly orderly script n played) objects row count known
    refine ⟨created, k, l, r, by simp [perform, made], ?_, Prod.ext rfl rest, same, fun nulls => ?_⟩
    · simp only [perform, Prod.map, destroyed, id]
      rfl
    · have untouched := destroy_nulls (some n) _ nulls
      rw [same]
      simp only [Boundary.weakDestroyBatch, Option.getD_some, untouched, Option.some.injEq] at rest
      rw [rest]
  case moved => exact fun host object => ⟨rfl, rfl⟩
  case zeroed => exact ⟨rfl, rfl, rfl⟩

def entryScript : List (Operation × Nat) :=
  [(.call (.alloc 16 0 none), 0), (.call (.downgrade 0x6b7000000000), 0)]

theorem entry_points_simulate_batch :
    let start : Machine := { heap := .initial {} 0 }
    let m := (start.play entryScript).2
    let objects := [some 0x6b7000000000, none, some 0x6b7000000060, some 0x6b7000000000]
    start.PlaysUnder Machine.Copies entryScript ∧ m.heap.weak.stats.active = 1 ∧
      (play (some m) [(.weakCreateBatch (some objects) (some [some 0, none, none, none]) 4, 0)]).1 =
        [.handles (some [some 1, none, none, some 2])] ∧
      ∃ created k l,
        perform (some m) (.weakCreateBatch (some objects) (some [some 0, none, none, none]) 4) =
          (.handles (some created), some k) ∧
        perform (some k) (.weakDestroyBatch (some created)) =
          (.handles (some (created.map fun _ => none)), some l) ∧
        l.heap.weak.stats.active = 1 := by
  intro start m objects
  have made : Heap.create {} 0 = .ok start.heap := Heap.create_valid {} 0 (by decide +kernel)
  have plays : start.PlaysUnder Machine.Copies entryScript := by decide +kernel
  have one : m.heap.weak.stats.active = 1 := by decide +kernel
  have simulates := entry_points_simulate {} 0 start.heap made _ m
    (Machine.RunUnder.start.play entryScript plays)
  obtain ⟨created, k, l, r, first, second, _, _, same⟩ :=
    simulates.restored [] m rfl objects [some 0, none, none, none] 4 (by simp [objects])
  refine ⟨plays, one, ?_, created, k, l, first, second, ?_⟩
  · decide +kernel
  · rw [same (by simp [objects]), one]

end Boundary

end CountedHeap
