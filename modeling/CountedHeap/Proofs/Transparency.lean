import CountedHeap.Pool.Stats
import CountedHeap.Proofs.Operations
import CountedHeap.Proofs.Safety
import CountedHeap.Proofs.Twins

/-!
The registration of candidates seen from outside. A client that never asks for a pass, and names no
candidate itself, cannot tell whether releases register what survives them, nor which of these
registrations found no room: it gets the same answers, its destructors are called in the same order,
and the heaps it leaves are twins.

Acts are taken in any order, in destructors and elsewhere, and misuse is allowed.
-/

namespace CountedHeap

inductive Question where
  | valid (object : Addr)
  | count (object : Addr)
  | type (object : Addr)
  | size (object : Addr)
  | data (object : Addr)
  | payload (object : Addr) (offset count : Nat)
  | target (handle : SlotId)
  | alive (handle : SlotId)
  | objects
  | pool
  | freeList (sizeClass : SizeClass)
  | handles
  | settings

inductive Reply where
  | done
  | refused (fault : Fault)
  | object (found : Option Addr)
  | handle (slot : SlotId)
  | handles (row : List (Option SlotId))
  | flag (yes : Bool)
  | number (found : Option Nat)
  | bytes (row : List UInt8)
  | blocks (row : List Addr)
  | objectStats (stats : ObjectStats)
  | poolStats (stats : PoolStats)
  | weakStats (stats : WeakStats)
  | settings (settings : CollectorSettings)
  deriving DecidableEq

inductive Act where
  | operate (operation : Operation)
  | ask (question : Question)
  | step

/-- The operation starts no pass and names no candidate. -/
def Operation.plain : Operation → Bool
  | .call .collect | .call .trigger | .call (.addCandidate _) => false
  | _ => true

def Act.plain : Act → Bool
  | .operate operation => operation.plain
  | _ => true

def Reply.of {α : Type} (outcome : Except Fault α) (reply : α → Reply) : Reply :=
  match outcome with
  | .error fault => .refused fault
  | .ok x => reply x

theorem Reply.of_both {α β : Type} {related : α → β → Prop} {left : Except Fault α}
    {right : Except Fault β} (both : Both related left right) (reply : α → Reply) (reply' : β → Reply)
    (same : ∀ x y, related x y → reply x = reply' y) : of left reply = of right reply' := by
  cases both with
  | refused reason => rfl
  | granted results => exact same _ _ results

namespace Heap

def reply (h : Heap) : Question → Reply
  | .valid a => .flag (h.isValid a)
  | .count a => .number (some (h.refCount a))
  | .type a => .number (h.typeOf? a)
  | .size a => .number (h.sizeOf? a)
  | .data a => .number (h.dataOffset? a)
  | .payload a offset count => .bytes (h.readPayload a offset count)
  | .target handle => .object (h.weakTarget? handle)
  | .alive handle => .flag (h.isAlive handle)
  | .objects => .objectStats h.books
  | .pool => .poolStats h.pool.stats
  | .freeList c => .blocks (h.pool.freeList c)
  | .handles => .weakStats h.weak.stats
  | .settings => .settings h.collector.settings

namespace Twin

variable {h k : Heap}

/-- What is read off a live object without its count word, or from its count alone. -/
theorem probe_eq {β : Type} (twin : Twin h k) (a : Addr) (ask : Option Object → β)
    (blind : ∀ o p, Object.Alike o p → ask (some p) = ask (some o)) :
    ask (k.probe? a) = ask (h.probe? a) := by
  have look := twin.paired.look a
  obtain ⟨_, _, _, _, _⟩ := twin
  unfold probe?
  simp only at look ⊢
  split
  · rcases look with ⟨left, right⟩ | ⟨o, p, left, right, alike⟩
    · rw [left, right]
    · have live : p.valid = o.valid := by
        obtain ⟨_, _⟩ := alike
        rfl
      rw [left, right, Option.filter_some, Option.filter_some, live]
      split
      · exact blind o p alike
      · rfl
  · rfl

theorem weakTarget_eq (twin : Twin h k) (handle : SlotId) :
    k.weakTarget? handle = h.weakTarget? handle := by
  have yields : ∀ a : Addr, (k.objects[a]?).any (fun o => 0 < o.count && !o.claimed) =
      (h.objects[a]?).any fun o => 0 < o.count && !o.claimed := by
    intro a
    refine twin.ask_eq a (·.any fun o => 0 < o.count && !o.claimed) fun o p alike => ?_
    have count := alike.count_eq
    obtain ⟨_, _⟩ := alike
    simp only [Option.any_some, count]
  unfold weakTarget?
  simp only [twin.weak_eq, yields]

theorem reply_eq (twin : Twin h k) (question : Question) : k.reply question = h.reply question := by
  cases question with
  | valid a => exact congrArg Reply.flag (twin.probe_eq a Option.isSome fun _ _ _ => rfl)
  | count a =>
      refine congrArg (fun n => Reply.number (some n))
        (twin.probe_eq a (·.elim 0 Object.count) fun o p alike => ?_)
      exact alike.count_eq
  | type a =>
      refine congrArg Reply.number (twin.probe_eq a (·.map Object.type) ?_)
      rintro o _ ⟨_, _⟩
      rfl
  | size a =>
      refine congrArg Reply.number (twin.probe_eq a (·.map Object.size) ?_)
      rintro o _ ⟨_, _⟩
      rfl
  | data a =>
      exact congrArg Reply.number (twin.probe_eq a (·.map fun _ => Object.headerBytes) fun _ _ _ => rfl)
  | payload a offset count =>
      refine congrArg Reply.bytes
        (twin.ask_eq a (·.elim [] fun o => o.payload.read offset count) ?_)
      rintro o _ ⟨_, _⟩
      rfl
  | target handle => exact congrArg Reply.object (twin.weakTarget_eq handle)
  | alive handle =>
      exact congrArg (fun found : Option Addr => Reply.flag found.isSome) (twin.weakTarget_eq handle)
  | objects | pool | freeList c | handles | settings =>
      obtain ⟨_, _, _, _, _⟩ := twin
      rfl

end Twin

end Heap

namespace Task

def searches : Task → Bool
  | search _ | expand _ _ => true
  | _ => false

end Task

namespace Machine

variable {m n : Machine}

def answer (m : Machine) : Operation → Reply
  | .call (.declare type tracer) => .of (m.heap.registerType type tracer) fun _ => .done
  | .call (.alloc size type destructor) =>
      .of (m.heap.alloc size type destructor) fun out => .object (some out.1)
  | .call (.retain a) => .of (m.heap.tryRetain a) fun _ => .done
  | .call (.tryRelease a) => .of (m.tryRelease a) fun _ => .done
  | .call (.assign a slot value) => .of (m.assignRef a slot value) fun _ => .done
  | .call (.load a slot) => .of (m.heap.loadRef a slot) .object
  | .call (.take a slot) => .of (m.heap.takeRef a slot) fun out => .object out.1
  | .call (.addCandidate a) => .flag (m.heap.addCandidate a).1
  | .call (.downgrade a) => .of (m.heap.downgrade a) fun out => .handle out.1
  | .call (.upgrade handle) => .object (m.heap.upgrade handle).1
  | .call (.configure settings) => .of (m.heap.collector.configure settings) fun _ => .done
  | .call .trigger => .flag m.trigger.1
  | .downgradeBatch objects => .handles (m.heap.downgradeBatch objects).1
  | _ => .done

def withRoom (m : Machine) (canGrow : Bool) : Machine :=
  m.onHeap fun h => { h with collector := { h.collector with canGrow } }

def act (m : Machine) : Act → List Reply × List Event × Machine
  | .operate operation => ([m.answer operation], m.told operation, m.operate operation)
  | .ask question => ([m.heap.reply question], [], m)
  | .step => ([], m.tells, m.step)

/-- Acts in turn, each with the room that a registration would find. No act registers twice, so the
registrations that fail may be any. -/
def through (m : Machine) : List (Bool × Act) → List Reply × List Event × Machine
  | [] => ([], [], m)
  | (canGrow, act) :: rest =>
      let (replies, log, n) := (m.withRoom canGrow).act act
      let (replies', log', last) := n.through rest
      (replies ++ replies', log ++ log', last)

/-- Machines at the same point of the same work, over heaps that are twins, with no pass under way. -/
structure Twin (m n : Machine) : Prop where
  heap : m.heap.Twin n.heap
  tasks : n.tasks = m.tasks
  reclaimed : n.reclaimed = m.reclaimed
  calm : ∀ t ∈ m.tasks, t.searches = false

namespace Twin

theorem on (twin : Twin m n) {h k : Heap} (heaps : h.Twin k) :
    Twin { m with heap := h } { n with heap := k } :=
  ⟨heaps, twin.tasks, twin.reclaimed, twin.calm⟩

theorem push (twin : Twin m n) (news : List Task) (calm : ∀ t ∈ news, t.searches = false) :
    Twin (m.push news) (n.push news) := by
  refine ⟨twin.heap, ?_, twin.reclaimed, fun t member => ?_⟩
  · simp only [Machine.push, twin.tasks]
  · rcases List.mem_append.mp member with new | old
    · exact calm t new
    · exact twin.calm t old

theorem push_releases (twin : Twin m n) (objects : List Addr) :
    Twin (m.push (objects.map Task.release)) (n.push (objects.map Task.release)) := by
  refine twin.push _ fun t member => ?_
  obtain ⟨_, _, rfl⟩ := List.mem_map.mp member
  rfl

theorem withRoom (twin : Twin m n) (canGrow canGrow' : Bool) :
    Twin (m.withRoom canGrow) (n.withRoom canGrow') := by
  refine twin.on ((Heap.Twin.recollect m.heap _ canGrow).symm.trans (twin.heap.trans ?_))
  exact .recollect n.heap _ canGrow'

/-! Releases -/

theorem tryRelease_both (twin : Twin m n) (a : Addr) : Both Twin (m.tryRelease a) (n.tryRelease a) := by
  unfold Machine.tryRelease
  rcases (twin.heap.lower_both a).cases with
    ⟨fault, left, right⟩ | ⟨⟨last, h⟩, ⟨_, k⟩, left, right, rfl, after⟩
  · rw [left, right]
    exact .refused fault
  · rw [left, right]
    refine .granted ((twin.on after).push _ fun t member => ?_)
    cases last with
    | false => cases member
    | true =>
        simp only [Task.destruction, if_true, List.mem_cons, List.not_mem_nil, or_false] at member
        rcases member with rfl | rfl | rfl | rfl <;> rfl

theorem release (twin : Twin m n) (a : Addr) : Twin (m.release a) (n.release a) := by
  unfold Machine.release
  rcases (twin.tryRelease_both a).cases with ⟨fault, left, right⟩ | ⟨_, _, left, right, after⟩
  · rw [left, right]
    exact twin.on twin.heap.absorb
  · rw [left, right]
    exact after

theorem assignRef_both (twin : Twin m n) (a : Addr) (slot : Nat) (value : Option Addr) :
    Both Twin (m.assignRef a slot value) (n.assignRef a slot value) := by
  unfold Machine.assignRef
  rcases (twin.heap.exchangeRef_both a slot value).cases with
    ⟨fault, left, right⟩ | ⟨⟨previous, h⟩, ⟨_, k⟩, left, right, rfl, after⟩
  · rw [left, right]
    exact .refused fault
  · rw [left, right]
    exact .granted ((twin.on after).push_releases previous.toList)

/-! Steps -/

theorem tracing_eq (twin : Twin m n) (a : Addr) : n.tracing a = m.tracing a := by
  unfold Machine.tracing
  rw [twin.heap.tracer_eq]

theorem perform (twin : Twin m n) (t : Task) (calm : t.searches = false) :
    Twin (m.perform t) (n.perform t) := by
  cases t with
  | release a => exact twin.release a
  | detach a => exact twin.on (twin.heap.detachWeak a)
  | finalize a =>
      obtain ⟨number, after⟩ := twin.heap.takeDestructor_agree a
      simp only [Machine.perform, number]
      refine (twin.on after).push _ fun t member => ?_
      obtain ⟨_, _, rfl⟩ := List.mem_map.mp member
      rfl
  | callback code => exact twin
  | unload a =>
      have traced : (n.heap.objects[a]?).any Object.traced = (m.heap.objects[a]?).any Object.traced :=
        twin.heap.ask_eq a (·.any Object.traced) (by
          rintro o _ ⟨_, _⟩
          rfl)
      simp only [Machine.perform, traced, twin.tracing_eq]
      split
      -- The tracer that is asked here belongs to no pass.
      · refine twin.push _ fun t member => ?_
        rcases List.mem_append.mp member with waits | unloads
        · unfold Machine.tracing at waits
          split at waits
          · cases List.mem_singleton.mp waits
            rfl
          · cases waits
        · cases List.mem_singleton.mp unloads
          rfl
      · exact twin
  | releaseChildren a =>
      simp only [Machine.perform, twin.heap.children_eq]
      exact twin.push_releases _
  | reclaim a => exact twin.on (twin.heap.reclaim a)
  | search pass | expand pass a => cases calm
  | answer reclaimed => exact ⟨twin.heap, twin.tasks, rfl, twin.calm⟩

theorem step (twin : Twin m n) : Twin m.step n.step := by
  unfold Machine.step
  rw [twin.tasks]
  cases tasks : m.tasks with
  | nil => exact twin
  | cons t rest =>
      have calm := twin.calm
      rw [tasks] at calm
      have popped : Twin { m with tasks := rest } { n with tasks := rest } :=
        ⟨twin.heap, rfl, twin.reclaimed, fun u member => calm u (List.mem_cons_of_mem t member)⟩
      exact popped.perform t (calm t List.mem_cons_self)

theorem tells_eq (twin : Twin m n) : n.tells = m.tells := by
  unfold Machine.tells
  rw [twin.tasks]
  have numbers : ∀ a : Addr,
      (n.heap.objects[a]?).bind Object.destructor = (m.heap.objects[a]?).bind Object.destructor :=
    fun a => (twin.heap.takeDestructor_agree a).1.symm
  simp only [numbers]

/-! Operations -/

theorem told_eq (twin : Twin m n) (operation : Operation) : n.told operation = m.told operation := by
  cases operation with
  | call request =>
      cases request with
      | alloc size type destructor =>
          simp only [told]
          rcases (twin.heap.alloc_both size type destructor).cases with
            ⟨fault, left, right⟩ | ⟨⟨a, h⟩, ⟨_, k⟩, left, right, rfl, _⟩
          · rw [left, right]
          · rw [left, right]
      | _ => rfl
  | _ => rfl

theorem answer_eq (twin : Twin m n) (operation : Operation) (plain : operation.plain = true) :
    m.answer operation = n.answer operation := by
  have first := fun {α : Type} {x y : α × Heap} (reply : α → Reply) (agree : Heap.Agree x y) =>
    congrArg reply agree.1
  cases operation with
  | call request =>
      cases request with
      | declare type tracer =>
          exact Reply.of_both (twin.heap.registerType_both type tracer) _ _ fun _ _ _ => rfl
      | alloc size type destructor =>
          exact Reply.of_both (twin.heap.alloc_both size type destructor) _ _ fun _ _ =>
            first (.object ∘ some)
      | retain a => exact Reply.of_both (twin.heap.tryRetain_both a) _ _ fun _ _ _ => rfl
      | tryRelease a => exact Reply.of_both (twin.tryRelease_both a) _ _ fun _ _ _ => rfl
      | assign a slot value =>
          exact Reply.of_both (twin.assignRef_both a slot value) _ _ fun _ _ _ => rfl
      | load a slot =>
          simp only [answer, twin.heap.loadRef_eq]
      | take a slot => exact Reply.of_both (twin.heap.takeRef_both a slot) _ _ fun _ _ => first .object
      | downgrade a => exact Reply.of_both (twin.heap.downgrade_both a) _ _ fun _ _ => first .handle
      | upgrade handle => exact first .object (twin.heap.upgrade_agree handle)
      | configure settings =>
          exact Reply.of_both (twin.heap.configure_both settings) _ _ fun _ _ _ => rfl
      | addCandidate a | collect | trigger => cases plain
      | _ => rfl
  | downgradeBatch objects => exact first .handles (twin.heap.downgradeBatch_agree objects)
  | _ => rfl

theorem operate (twin : Twin m n) (operation : Operation) (plain : operation.plain = true) :
    Twin (m.operate operation) (n.operate operation) := by
  -- A call is refused on both sides, or granted on both with twins as its results.
  cases operation with
  | call request =>
      cases request with
      | declare type tracer =>
          rcases (twin.heap.registerType_both type tracer).cases with
            ⟨_, left, right⟩ | ⟨_, _, left, right, after⟩
          all_goals simp only [Machine.operate, Client.call, left, right]
          · exact twin
          · exact twin.on after
      | alloc size type destructor =>
          rcases (twin.heap.alloc_both size type destructor).cases with
            ⟨_, left, right⟩ | ⟨_, _, left, right, after⟩
          all_goals simp only [Machine.operate, Client.call, left, right]
          · exact twin
          · exact twin.on after.2
      | retain a =>
          rcases (twin.heap.tryRetain_both a).cases with
            ⟨_, left, right⟩ | ⟨_, _, left, right, after⟩
          all_goals simp only [Machine.operate, Client.call, left, right]
          · exact twin
          · exact twin.on after
      | release a => exact twin.release a
      | tryRelease a =>
          rcases (twin.tryRelease_both a).cases with
            ⟨_, left, right⟩ | ⟨_, _, left, right, after⟩
          all_goals simp only [Machine.operate, Client.call, left, right]
          · exact twin
          · exact after
      | assign a slot value =>
          rcases (twin.assignRef_both a slot value).cases with
            ⟨_, left, right⟩ | ⟨_, _, left, right, after⟩
          all_goals simp only [Machine.operate, Client.call, left, right]
          · exact twin
          · exact after
      | load a slot => exact twin
      | take a slot =>
          rcases (twin.heap.takeRef_both a slot).cases with
            ⟨_, left, right⟩ | ⟨_, _, left, right, after⟩
          all_goals simp only [Machine.operate, Client.call, left, right]
          · exact twin
          · exact twin.on after.2
      | downgrade a =>
          rcases (twin.heap.downgrade_both a).cases with
            ⟨_, left, right⟩ | ⟨_, _, left, right, after⟩
          all_goals simp only [Machine.operate, Client.call, left, right]
          · exact twin
          · exact twin.on after.2
      | upgrade handle => exact twin.on (twin.heap.upgrade_agree handle).2
      | cloneHandle handle =>
          exact twin.on (twin.heap.refit (·.cloneHandle handle) rfl fun _ _ _ _ => rfl)
      | dropHandle handle =>
          exact twin.on (twin.heap.refit (·.dropHandle handle) rfl fun _ _ _ _ => rfl)
      | configure settings =>
          rcases (twin.heap.configure_both settings).cases with
            ⟨_, left, right⟩ | ⟨_, _, left, right, after⟩
          all_goals simp only [Machine.operate, Client.call, left, right]
          · exact twin
          · exact twin.on after
      | memory limit =>
          exact twin.on (twin.heap.refit
            (fun h => { h with pool := { h.pool with system := { h.pool.system with limit } } }) rfl
            fun _ _ _ _ => rfl)
      | room canGrow => exact twin.withRoom canGrow canGrow
      | reorder registry =>
          exact twin.on ((Heap.Twin.recollect m.heap registry _).symm.trans
            (twin.heap.trans (.recollect n.heap registry _)))
      | addCandidate a | collect | trigger => cases plain
  | retain a => exact twin.on (twin.heap.retain a)
  | retainBatch objects => exact twin.on (twin.heap.retainBatch objects)
  | releaseBatch objects => exact twin.push_releases objects
  | downgradeBatch objects => exact twin.on (twin.heap.downgradeBatch_agree objects).2
  | write a offset bytes => exact twin.on (twin.heap.revise a _ fun _ _ => rfl)
  | clear a => exact twin.on (twin.heap.revise a _ fun _ _ => rfl)
  | resetObjects =>
      exact twin.on (twin.heap.refit (fun h => { h with books := h.books.reset }) rfl
        fun _ _ _ _ => rfl)
  | resetPool =>
      exact twin.on (twin.heap.refit (fun h => { h with pool := h.pool.resetStats }) rfl
        fun _ _ _ _ => rfl)
  | resetCollector =>
      exact twin.on (twin.heap.refit (fun h => { h with collector := h.collector.resetStats }) rfl
        fun _ _ _ _ => rfl)
  | resetHandles =>
      exact twin.on (twin.heap.refit (fun h => { h with weak := h.weak.resetStats }) rfl
        fun _ _ _ _ => rfl)

/-! Whole runs -/

theorem act (twin : Twin m n) (act : Act) (plain : act.plain = true) :
    (m.act act).1 = (n.act act).1 ∧ (m.act act).2.1 = (n.act act).2.1 ∧
      Twin (m.act act).2.2 (n.act act).2.2 := by
  cases act with
  | operate operation =>
      exact ⟨congrArg (fun reply => [reply]) (twin.answer_eq operation plain),
        (twin.told_eq operation).symm, twin.operate operation plain⟩
  | ask question =>
      exact ⟨congrArg (fun reply => [reply]) (twin.heap.reply_eq question).symm, rfl, twin⟩
  | step => exact ⟨rfl, twin.tells_eq.symm, twin.step⟩

theorem through (twin : Twin m n) (script script' : List (Bool × Act))
    (same : script.map Prod.snd = script'.map Prod.snd)
    (plain : ∀ entry ∈ script, entry.2.plain = true) :
    (m.through script).1 = (n.through script').1 ∧
      (m.through script).2.1 = (n.through script').2.1 ∧
        Twin (m.through script).2.2 (n.through script').2.2 := by
  -- The scripts differ in nothing but room, which may differ between twins at any act.
  induction script generalizing script' m n with
  | nil =>
      obtain rfl := List.map_eq_nil_iff.mp same.symm
      exact ⟨rfl, rfl, twin⟩
  | cons first rest ih =>
      obtain ⟨canGrow, act⟩ := first
      obtain ⟨⟨canGrow', _⟩, rest', rfl, rfl, others⟩ := List.map_eq_cons_iff.mp same.symm
      obtain ⟨replies, log, after⟩ :=
        (twin.withRoom canGrow canGrow').act _ (plain _ List.mem_cons_self)
      obtain ⟨replies', log', last⟩ :=
        ih after rest' others.symm fun entry member => plain entry (List.mem_cons_of_mem _ member)
      simp only [Machine.through]
      exact ⟨by rw [replies, replies'], by rw [log, log'], last⟩

end Twin

/-- Registration is transparent. Take two heaps under the same settings, except that each may register
what survives a release or not, and take the same acts on both, in whatever order and with whatever
misuse, but without a pass and without naming a candidate. Each registration finds room or finds none,
on either side as it likes. Then every call and every question gets the same answer; the same objects
are made, the same destructors called and the same blocks given back in the same order; the same work
is left; and the heaps are twins: headers but for the bits on top of the count words, payloads, books,
weak handles, pool and free lists are the same. -/
theorem registration_transparent (settings : Settings) (entropy : UInt64) (auto auto' : Bool)
    (heap heap' : Heap)
    (made : Heap.create { settings with autoRegister := auto } entropy = .ok heap)
    (made' : Heap.create { settings with autoRegister := auto' } entropy = .ok heap')
    (script script' : List (Bool × Act)) (same : script.map Prod.snd = script'.map Prod.snd)
    (plain : ∀ entry ∈ script, entry.2.plain = true) :
    let left := ({ heap } : Machine).through script
    let right := ({ heap := heap' } : Machine).through script'
    left.1 = right.1 ∧ left.2.1 = right.2.1 ∧ left.2.2.tasks = right.2.2.tasks ∧
      left.2.2.heap.Twin right.2.2.heap := by
  obtain rfl := Heap.create_initial made
  obtain rfl := Heap.create_initial made'
  have twin : Twin { heap := .initial { settings with autoRegister := auto } entropy }
      { heap := .initial { settings with autoRegister := auto' } entropy } :=
    ⟨.intro _ [] true auto' (.refl _), rfl, rfl, fun t member => by cases member⟩
  obtain ⟨replies, log, last⟩ := twin.through script script' same plain
  exact ⟨replies, log, last.tasks.symm, last.heap⟩

/-- Two objects are made and the second is put into the first; both survive releases, and so does a
third. The first is released for good, its destructor retains and releases the second, and releases
what is dead. -/
def quietOpening (roomy : Bool) : List (Bool × Act) :=
  [(true, .operate (.call (.declare 1 (.leading 1)))),
    (true, .operate (.call (.alloc 16 1 (some 7)))),
    (true, .operate (.call (.alloc 16 1 (some 8)))),
    (true, .operate (.call (.alloc 16 1 none))),
    (true, .operate (.call (.assign 0x6b7000000000 0 (some 0x6b7000000060)))),
    (roomy, .operate (.call (.release 0x6b7000000060))),
    (true, .operate (.call (.downgrade 0x6b7000000060))),
    (true, .operate (.call (.retain 0x6b7000000000))),
    (false, .operate (.call (.tryRelease 0x6b7000000000))),
    (true, .operate (.call (.upgrade 0))),
    (true, .operate (.call (.release 0x6b7000000060))),
    (true, .operate (.call (.retain 0x6b70000000c0))),
    (true, .operate (.call (.release 0x6b70000000c0))),
    (true, .operate (.call (.release 0x6b7000000000))),
    (true, .step), (true, .step),
    (true, .operate (.call (.retain 0x6b7000000060))),
    (true, .operate (.call (.release 0x6b7000000060))),
    (true, .operate (.call (.tryRelease 0x6b7000000000)))]

/-- The second goes with the first, and the client looks around. -/
def quietScript (roomy : Bool) : List (Bool × Act) :=
  quietOpening roomy ++ List.replicate 13 (true, Act.step) ++
    [.alive 0, .count 0x6b70000000c0, .objects, .pool, .handles].map fun question =>
      (true, Act.ask question)

theorem registration_transparent_cascade :
    let left := ({ heap := .initial { autoRegister := true } 0 } : Machine).through (quietScript true)
    let right :=
      ({ heap := .initial { autoRegister := false } 0 } : Machine).through (quietScript false)
    (∀ entry ∈ quietScript true, entry.2.plain = true) ∧
      (quietScript true).map Prod.snd = (quietScript false).map Prod.snd ∧
      left.1 = right.1 ∧ left.2.1 = right.2.1 ∧ left.2.2.tasks = right.2.2.tasks ∧
      left.2.2.heap.Twin right.2.2.heap ∧ right.2.2.idle = true ∧
      .called 0x6b7000000060 8 ∈ left.2.1 ∧
      .refused (.doubleRelease 0x6b7000000000) ∈ right.1 ∧
      left.2.2.heap.collector.registry.holds 0x6b70000000c0 = true ∧
      right.2.2.heap.collector.registry = [] := by
  intro left right
  have plain : ∀ entry ∈ quietScript true, entry.2.plain = true := by decide +kernel
  have made : Heap.create { autoRegister := true } 0 = .ok (.initial { autoRegister := true } 0) :=
    Heap.create_valid _ 0 (by decide +kernel)
  have made' : Heap.create { autoRegister := false } 0 = .ok (.initial { autoRegister := false } 0) :=
    Heap.create_valid _ 0 (by decide +kernel)
  obtain ⟨replies, log, tasks, twin⟩ := registration_transparent {} 0 true false _ _ made made'
    (quietScript true) (quietScript false) rfl plain
  exact ⟨plain, rfl, replies, log, tasks, twin, by decide +kernel, by decide +kernel,
    by decide +kernel, by decide +kernel, by decide +kernel⟩

end Machine

end CountedHeap
