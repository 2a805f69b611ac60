import CountedHeap.Proofs.Acts
import CountedHeap.Proofs.Operations

/-!
What operations do to a heap, said once. Most are a row of edits: an object gets a reference more,
enters the registry or has its payload written, or something beside objects, pool and weak handles
changes. What an edit keeps, all of these operations keep.
-/

namespace CountedHeap

open Heap (Changed)

namespace Heap

inductive Edit (h : Heap) : Heap → Prop where
  /-- No object looks different, and the books change in the count of misuses alone. -/
  | beside {k : Heap} (objects : ∀ a : Addr, k.objects[a]? = h.objects[a]?)
      (registry : k.collector.registry = h.collector.registry) (pool : k.pool = h.pool)
      (large : k.large = h.large) (weak : k.weak = h.weak)
      (books : k.books = { h.books with misuse := k.books.misuse }) : Edit h k
  | raised {a : Addr} {k : Heap} (raised : h.Raised a k) : Edit h k
  | registered {a : Addr} {o : Object} {k : Heap} (there : h.objects[a]? = some o)
      (valid : o.valid = true) (traced : o.traced = true) (unclaimed : o.claimed = false)
      (absent : h.collector.registry.holds a = false)
      (changed : Changed h a { o with word := o.word.setBuffered true } k)
      (registry : k.collector.registry =
        { object := a, recorded := o.word.count } :: h.collector.registry) : Edit h k
  | written (a : Addr) (payload : Object → Payload) :
      Edit h (h.update a fun o => { o with payload := payload o })

def Edits : Heap → Heap → Prop := Relation.ReflTransGen Edit

variable {h k l : Heap}

namespace Edits

theorem refl (h : Heap) : Edits h h := Relation.ReflTransGen.refl

theorem single (edit : Edit h k) : Edits h k := Relation.ReflTransGen.single edit

theorem trans (first : Edits h k) (second : Edits k l) : Edits h l :=
  Relation.ReflTransGen.trans first second

theorem raised {a : Addr} (raised : h.Raised a k) : Edits h k := single (.raised raised)

end Edits

theorem absorb_edits (h : Heap) : h.Edits h.absorb :=
  .single (.beside (fun _ => rfl) rfl rfl rfl rfl rfl)

theorem retain_edits (h : Heap) (a : Addr) : h.Edits (h.retain a) := by
  unfold retain
  split
  · rename_i k done
    exact .raised (Client.tryRetain_raised h k a done)
  · exact h.absorb_edits

theorem retainBatch_edits (h : Heap) (objects : List Addr) : h.Edits (h.retainBatch objects) := by
  unfold retainBatch
  induction objects generalizing h with
  | nil => exact .refl h
  | cons a rest ih => exact (h.retain_edits a).trans (ih (h.retain a))

theorem addCandidate_edits (h : Heap) (a : Addr) : h.Edits (h.addCandidate a).2 := by
  unfold addCandidate
  split
  · rcases h.register_cases a with ⟨out, _⟩ | ⟨_, out⟩ |
      ⟨o, there, valid, traced, unclaimed, _, absent, _, k, out, changed, registry⟩
    · rw [out]
      exact .refl h
    · rw [out]
      exact .refl h
    · rw [out]
      exact .single (.registered there valid traced unclaimed absent changed registry)
  · exact .refl h

theorem upgrade_edits (h : Heap) (handle : SlotId) : h.Edits (h.upgrade handle).2 := by
  unfold upgrade
  split
  · exact .refl h
  · split
    · exact .refl h
    · rename_i a _ o there
      obtain ⟨bit, granted, refused⟩ := o.word.upgrade_spec o.claimed
      cases answer : (o.word.upgrade o.claimed).1 with
      | true =>
          obtain ⟨positive, _, count⟩ := granted answer
          exact .raised (.intro o _ there positive count bit)
      | false =>
          -- The word that is written back is the one that was read.
          have same : (o.word.upgrade o.claimed).2 = o.word :=
            CountWord.ext_views _ _ (refused answer) bit
          refine .single (.beside (fun b => ?_) rfl rfl rfl rfl rfl)
          rw [getElem?_update, same]
          split
          · rename_i here
            rw [← here, there]
            rfl
          · rfl

theorem storeRef_edits (h : Heap) (a : Addr) (slot : Nat) (value : Option Addr) :
    h.Edits (h.storeRef a slot value) := .single (.written a _)

theorem takeRef_edits (h k : Heap) (a : Addr) (slot : Nat) (found : Option Addr)
    (done : h.takeRef a slot = .ok (found, k)) : h.Edits k := by
  unfold takeRef at done
  cases isSlotted : h.slotted a slot with
  | error fault =>
      rw [isSlotted] at done
      cases done
  | ok p =>
      rw [isSlotted] at done
      simp only [Except.map, Except.ok.injEq, Prod.mk.injEq] at done
      exact done.2 ▸ h.storeRef_edits a slot none

theorem exchangeRef_edits (h k : Heap) (a : Addr) (slot : Nat) (value previous : Option Addr)
    (done : h.exchangeRef a slot value = .ok (previous, k)) : h.Edits k := by
  unfold exchangeRef at done
  split at done
  · cases done
  · split at done
    · cases done
    · rename_i l retained
      simp only [Except.ok.injEq, Prod.mk.injEq] at done
      have kept : h.Edits l := by
        cases value with
        | none =>
            simp only [Option.elim_none, Except.ok.injEq] at retained
            exact retained ▸ .refl h
        | some b => exact .raised (Client.tryRetain_raised h l b retained)
      exact done.2 ▸ kept.trans (l.storeRef_edits a slot value)

theorem registerType_edits (h k : Heap) (type : Nat) (tracer : Tracer)
    (done : h.registerType type tracer = .ok k) : h.Edits k := by
  unfold registerType at done
  split at done
  · cases done
  · cases done
    exact .single (.beside (fun _ => rfl) rfl rfl rfl rfl rfl)

theorem configure_edits (h : Heap) (settings : CollectorSettings) (collector : Collector)
    (done : h.collector.configure settings = .ok collector) : h.Edits { h with collector } := by
  unfold Collector.configure at done
  split at done
  · cases done
  · cases done
    exact .single (.beside (fun _ => rfl) rfl rfl rfl rfl rfl)

theorem noteAllocation_edits (h : Heap) :
    h.Edits { h with collector := h.collector.noteAllocation.2 } := by
  refine .single (.beside (fun _ => rfl) ?_ rfl rfl rfl rfl)
  simp only [Collector.noteAllocation]
  split
  · rfl
  · split <;> rfl

end Heap

namespace Machine

/-- What an operation makes of a machine. All but the ones named apart edit the heap, and may leave
references to be dropped. -/
inductive Operated (m : Machine) : Operation → Machine → Prop where
  | edited {operation : Operation} {k : Heap} (given : List Addr) (edits : m.heap.Edits k)
      (silent : m.told operation = []) (other : operation ≠ .resetObjects) :
      Operated m operation ({ m with heap := k }.push (given.map Task.release))
  | made {a : Addr} {k : Heap} (size type : Nat) (destructor : Option Nat)
      (done : m.heap.alloc size type destructor = .ok (a, k)) :
      Operated m (.call (.alloc size type destructor)) { m with heap := k }
  | released (a : Addr) : Operated m (.call (.release a)) (m.release a)
  | tried (a : Addr) : Operated m (.call (.tryRelease a)) (m.release a)
  | collected : Operated m (.call .collect) m.collect
  | triggered : Operated m (.call .trigger) m.trigger.2
  | named (objects : List Addr) :
      Operated m (.downgradeBatch objects) (m.onHeap fun h => (h.downgradeBatch objects).2)
  | downgraded (a : Addr) :
      Operated m (.call (.downgrade a)) (m.onHeap fun h => (h.downgradeBatch [a]).2)
  | cloned (handle : SlotId) : Operated m (.call (.cloneHandle handle)) (m.onHeap (·.cloneHandle handle))
  | dropped (handle : SlotId) : Operated m (.call (.dropHandle handle)) (m.onHeap (·.dropHandle handle))
  | recounted : Operated m .resetHandles (m.onHeap fun h => { h with weak := h.weak.resetStats })
  | reordered (registry : Registry) : Operated m (.call (.reorder registry))
      (m.onHeap fun h => { h with collector := { h.collector with registry } })
  | bounded (limit : Nat) : Operated m (.call (.memory limit)) (m.onHeap fun h =>
      { h with pool := { h.pool with system := { h.pool.system with limit } } })
  | resetPool : Operated m .resetPool (m.onHeap fun h => { h with pool := h.pool.resetStats })
  | resetObjects : Operated m .resetObjects (m.onHeap fun h => { h with books := h.books.reset })

variable {m : Machine} {operation : Operation}

theorem Operated.of_edits {k : Heap} (edits : m.heap.Edits k) (silent : m.told operation = [])
    (other : operation ≠ .resetObjects) : Operated m operation { m with heap := k } :=
  .edited [] edits silent other

theorem Operated.same (silent : m.told operation = []) (other : operation ≠ .resetObjects) :
    Operated m operation m := of_edits (.refl m.heap) silent other

theorem operate_cases (m : Machine) (operation : Operation) :
    Operated m operation (m.operate operation) := by
  have beside : ∀ {operation : Operation} {k : Heap}, m.told operation = [] →
      operation ≠ .resetObjects → Heap.Edit m.heap k → Operated m operation { m with heap := k } :=
    fun silent other edit => .of_edits (.single edit) silent other
  cases operation with
  | call request =>
      cases request with
      | alloc size type destructor =>
          simp only [Machine.operate, Client.call]
          split
          · rename_i a k done
            exact .made size type destructor done
          · rename_i fault refused
            exact .same (by simp only [told, refused]) (by rintro ⟨⟩)
      | declare type tracer =>
          simp only [Machine.operate, Client.call]
          split
          · rename_i k done
            exact .of_edits (m.heap.registerType_edits k type tracer done) rfl (by rintro ⟨⟩)
          · exact .same rfl (by rintro ⟨⟩)
      | retain a =>
          simp only [Machine.operate, Client.call]
          split
          · rename_i k done
            exact .of_edits (.raised (Client.tryRetain_raised _ k a done)) rfl (by rintro ⟨⟩)
          · exact .same rfl (by rintro ⟨⟩)
      | release a => exact .released a
      | tryRelease a =>
          simp only [Machine.operate, Client.call]
          split
          · rename_i n done
            exact Client.tryRelease_release m n a done ▸ .tried a
          · exact .same rfl (by rintro ⟨⟩)
      | assign a slot value =>
          simp only [Machine.operate, Client.call]
          split
          · rename_i n done
            unfold assignRef at done
            split at done
            · cases done
            · rename_i previous k exchanged
              cases done
              exact .edited _ (m.heap.exchangeRef_edits k a slot value previous exchanged) rfl
                (by rintro ⟨⟩)
          · exact .same rfl (by rintro ⟨⟩)
      | take a slot =>
          simp only [Machine.operate, Client.call]
          split
          · rename_i found k done
            exact .of_edits (m.heap.takeRef_edits k a slot found done) rfl (by rintro ⟨⟩)
          · exact .same rfl (by rintro ⟨⟩)
      | downgrade a =>
          have batch : (m.operate (.call (.downgrade a))) =
              m.onHeap fun h => (h.downgradeBatch [a]).2 := by
            simp only [Machine.operate, Client.call, onHeap, Heap.downgradeBatch]
            cases m.heap.downgrade a <;> rfl
          exact batch ▸ .downgraded a
      | configure settings =>
          simp only [Machine.operate, Client.call]
          split
          · rename_i collector done
            exact .of_edits (m.heap.configure_edits settings collector done) rfl (by rintro ⟨⟩)
          · exact .same rfl (by rintro ⟨⟩)
      | addCandidate a => exact .of_edits (m.heap.addCandidate_edits a) rfl (by rintro ⟨⟩)
      | upgrade handle => exact .of_edits (m.heap.upgrade_edits handle) rfl (by rintro ⟨⟩)
      | load _ _ => exact .same rfl (by rintro ⟨⟩)
      | room canGrow =>
          exact beside rfl (by rintro ⟨⟩) (.beside (fun _ => rfl) rfl rfl rfl rfl rfl)
      | collect => exact .collected
      | trigger => exact .triggered
      | cloneHandle handle => exact .cloned handle
      | dropHandle handle => exact .dropped handle
      | reorder registry => exact .reordered registry
      | memory limit => exact .bounded limit
  | retain a => exact .of_edits (m.heap.retain_edits a) rfl (by rintro ⟨⟩)
  | retainBatch objects => exact .of_edits (m.heap.retainBatch_edits objects) rfl (by rintro ⟨⟩)
  | releaseBatch objects => exact .edited objects (.refl m.heap) rfl (by rintro ⟨⟩)
  | downgradeBatch objects => exact .named objects
  | write a offset bytes => exact beside rfl (by rintro ⟨⟩) (.written a _)
  | clear a => exact beside rfl (by rintro ⟨⟩) (.written a _)
  | resetObjects => exact .resetObjects
  | resetPool => exact .resetPool
  | resetCollector =>
      exact beside rfl (by rintro ⟨⟩) (.beside (fun _ => rfl) rfl rfl rfl rfl rfl)
  | resetHandles => exact .recounted

end Machine

end CountedHeap
