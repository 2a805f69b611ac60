import CountedHeap.Proofs.Client

/-!
A client that keeps no ledger. It retains and releases what it likes, as often as it likes, through
any handle it ever had; and it does so between operations, in destructors and in tracers. What it
does not do is take a block raw: headers are written by the heap alone.

Its runs are told as a row of events: which objects were made, whose destructors were called and
finished, and whose blocks were given back.
-/

namespace CountedHeap

/-- What a client may ask of a machine, beside questions that change nothing. -/
inductive Operation where
  | call (request : Call)
  | retain (object : Addr)
  | retainBatch (objects : List Addr)
  | releaseBatch (objects : List Addr)
  | downgradeBatch (objects : List Addr)
  | write (object : Addr) (offset : Nat) (bytes : List UInt8)
  | clear (object : Addr)
  | resetObjects
  | resetPool
  | resetCollector
  | resetHandles

/-- What can be told of an object: that it was made, with a destructor or without, that its
destructor was called and came back, and that its block was given back. -/
inductive Event where
  | made (object : Addr) (destructor : Option Nat)
  | called (object : Addr) (number : Nat)
  | finished (object : Addr) (number : Nat)
  | returned (object : Addr)
  deriving DecidableEq, Repr

namespace Machine

def operate (m : Machine) : Operation → Machine
  | .call request => ({ machine := m : Client }.call request).machine
  | .retain a => m.onHeap (·.retain a)
  | .retainBatch objects => m.onHeap (·.retainBatch objects)
  | .releaseBatch objects => m.releaseBatch objects
  | .downgradeBatch objects => m.onHeap fun h => (h.downgradeBatch objects).2
  | .write a offset bytes => m.onHeap (·.writePayload a offset bytes)
  | .clear a => m.onHeap (·.clearPayload a)
  | .resetObjects => m.onHeap fun h => { h with books := h.books.reset }
  | .resetPool => m.onHeap fun h => { h with pool := h.pool.resetStats }
  | .resetCollector => m.onHeap fun h => { h with collector := h.collector.resetStats }
  | .resetHandles => m.onHeap fun h => { h with weak := h.weak.resetStats }

/-- The client is in control: every operation has run to its end, or code of the client is called. -/
def listens (m : Machine) : Bool := m.idle || m.callback?.isSome

theorem callback_tasks {m : Machine} {code : Callback} (called : m.callback? = some code) :
    ∃ rest, m.tasks = .callback code :: rest := by
  unfold callback? at called
  split at called
  · rename_i other rest tasks
    cases called
    exact ⟨rest, tasks⟩
  · cases called

/-- When an operation may come. The surroundings may act at any time. -/
def May (m : Machine) : Operation → Prop
  | .call (.memory _) | .call (.room _) => True
  | .call (.reorder registry) => registry.Perm m.heap.collector.registry
  | _ => m.listens = true

def told (m : Machine) : Operation → List Event
  | .call (.alloc size type destructor) =>
      match m.heap.alloc size type destructor with
      | .ok (a, _) => [.made a destructor]
      | .error _ => []
  | _ => []

def tells (m : Machine) : List Event :=
  match m.tasks with
  | .finalize a :: _ => (((m.heap.objects[a]?).bind Object.destructor).toList).map (.called a)
  | .callback (.destructor a number) :: _ => [.finished a number]
  | .reclaim a :: _ => [.returned a]
  | _ => []

/-- The machines that operations and steps lead to, with what was told on the way. -/
inductive Run (m : Machine) : List Event → Machine → Prop where
  | start : Run m [] m
  | operate {log : List Event} {n : Machine} (operation : Operation) (run : Run m log n)
      (may : n.May operation) : Run m (log ++ n.told operation) (n.operate operation)
  | step {log : List Event} {n : Machine} (run : Run m log n) : Run m (log ++ n.tells) n.step

instance (m : Machine) : (operation : Operation) → Decidable (m.May operation)
  | .call request =>
      match request with
      | .memory _ | .room _ => inferInstanceAs (Decidable True)
      | .reorder registry =>
          inferInstanceAs (Decidable (registry.Perm m.heap.collector.registry))
      | .declare _ _ | .alloc _ _ _ | .retain _ | .release _ | .tryRelease _ | .assign _ _ _
      | .load _ _ | .take _ _ | .addCandidate _ | .downgrade _ | .upgrade _ | .cloneHandle _
      | .dropHandle _ | .configure _ | .collect | .trigger =>
          inferInstanceAs (Decidable (m.listens = true))
  | .retain _ | .retainBatch _ | .releaseBatch _ | .downgradeBatch _ | .write _ _ _ | .clear _
  | .resetObjects | .resetPool | .resetCollector | .resetHandles =>
      inferInstanceAs (Decidable (m.listens = true))

def story : Nat → Machine → List Event
  | 0, _ => []
  | n + 1, m => m.tells ++ m.step.story n

def play (m : Machine) : List (Operation × Nat) → List Event × Machine
  | [] => ([], m)
  | (operation, n) :: rest =>
      let (log, last) := ((m.operate operation).steps n).play rest
      (m.told operation ++ (m.operate operation).story n ++ log, last)

def Plays (m : Machine) : List (Operation × Nat) → Prop
  | [] => True
  | (operation, n) :: rest => m.May operation ∧ ((m.operate operation).steps n).Plays rest

instance decidablePlays (m : Machine) : (script : List (Operation × Nat)) → Decidable (m.Plays script)
  | [] => inferInstanceAs (Decidable True)
  | (operation, n) :: rest =>
      let _ := decidablePlays ((m.operate operation).steps n) rest
      inferInstanceAs (Decidable (_ ∧ _))

namespace Run

variable {m n : Machine} {log : List Event}

theorem steps (run : Run m log n) (k : Nat) : Run m (log ++ n.story k) (n.steps k) := by
  induction k generalizing n log with
  | zero => simpa [story, Machine.steps] using run
  | succ k ih => simpa [story, Machine.steps] using ih run.step

theorem play (run : Run m log n) (script : List (Operation × Nat)) (plays : n.Plays script) :
    Run m (log ++ (n.play script).1) (n.play script).2 := by
  induction script generalizing n log with
  | nil => simpa [Machine.play] using run
  | cons first rest ih =>
      have done := ih ((run.operate first.1 plays.1).steps first.2) plays.2
      simpa [Machine.play] using done

end Run

end Machine

/-! A client with a ledger is one of these -/

namespace Client

variable {c d : Client}

theorem call_operates (c : Client) (request : Call) :
    (c.call request).machine = c.machine.operate (.call request) := by
  cases request <;> simp only [Machine.operate, call, onHeap] <;> split <;> rfl

theorem Run.operates {rule : Rule} (run : Run rule.AtRest c d) :
    ∃ log, c.machine.Run log d.machine := by
  induction run with
  | start => exact ⟨[], .start⟩
  | call request run permitted ih =>
      rename_i e
      obtain ⟨log, before⟩ := ih
      have listens : e.machine.listens = true := by
        rw [Machine.listens, permitted.1, Bool.true_or]
      rw [call_operates]
      refine ⟨_, before.operate _ ?_⟩
      -- The surroundings ask for less than rest.
      cases request with
      | memory limit | room canGrow => trivial
      | reorder registry => exact permitted.2
      | _ => exact listens
  | step run ih =>
      obtain ⟨log, before⟩ := ih
      exact ⟨_, before.step⟩

end Client

end CountedHeap
