import CountedHeap.Proofs.Acts
import CountedHeap.Proofs.Stock

/-!
The ledger and the heap. Whatever the client owns is live, and so is whatever a slot of a live
object holds; the counts suffice for both. Each act keeps this, and each step.
-/

namespace CountedHeap

open Client (gain gain_of_ne gain_self lose lose_of_ne lose_self)

namespace Heap

variable {h k : Heap} {owned : Addr → Nat}

/-- What holds of the objects that are gone and of the pool. -/
structure Intact (h : Heap) : Prop where
  settled : ∀ a, ¬ h.Live a → h.countAt a = 0
  stocked : ∃ free, h.pool.Stocked h.Live free

theorem Intact.transfer (intact : h.Intact) (live : ∀ a, k.Live a ↔ h.Live a)
    (counts : ∀ a, ¬ h.Live a → k.countAt a = h.countAt a) (pool : k.pool = h.pool) :
    k.Intact := by
  constructor
  · intro a dead
    rw [live] at dead
    rw [counts a dead]
    exact intact.settled a dead
  · rcases intact.stocked with ⟨free, stocked⟩
    rw [pool]
    exact ⟨free, stocked.transfer (fun _ => rfl) rfl (Nat.le_refl _) fun a => (live a).mp⟩

/-- A heap whose ledger is in order. -/
structure Sound (h : Heap) (owned : Addr → Nat) : Prop where
  accounted : h.Accounted owned
  grounded : ∀ a, 0 < owned a + h.held a → h.Live a
  intact : h.Intact

theorem Intact.live_of_count (intact : h.Intact) (a : Addr) (positive : 0 < h.countAt a) :
    h.Live a := by
  by_contra dead
  rw [intact.settled a dead] at positive
  exact Nat.lt_irrefl 0 positive

/-! New objects -/

theorem alloc_spec (size type : Nat) (destructor : Option Nat) (a : Addr)
    (done : h.alloc size type destructor = .ok (a, k)) :
    ∃ beyond pool,
      h.pool.alloc (Object.headerBytes + size) = .ok (a, pool) ∧ k.pool = pool.forgetContents a ∧
      k.objects = h.objects.insert a
        (Object.create size type destructor (h.types.contains type) beyond) ∧
      k.types = h.types ∧ k.collector = h.collector ∧ k.autoRegister = h.autoRegister ∧
      k.books = h.books.recordAlloc (Object.headerBytes + size) := by
  unfold alloc at done
  simp only at done
  split at done
  · cases done
  · split at done
    · cases done
    · split at done
      · cases done
      · rename_i b pool served
        simp only [Except.ok.injEq, Prod.mk.injEq] at done
        obtain ⟨isAddr, isHeap⟩ := done
        subst isAddr isHeap
        exact ⟨_, pool, served, rfl, rfl, rfl, rfl, rfl, rfl⟩

/-- A new object is live, holds nothing, and touches no other. -/
structure Born (h : Heap) (a : Addr) (k : Heap) : Prop where
  live : ∀ b, k.Live b ↔ b = a ∨ h.Live b
  here : ∃ o, k.objects[a]? = some o ∧ o.valid = true ∧ o.claimed = false ∧ o.count = 1 ∧
    o.buffered = false ∧ ∀ slot, o.payload.load slot = none
  others : ∀ b : Addr, b ≠ a → k.objects[b]? = h.objects[b]?

theorem alloc_born (size type : Nat) (destructor : Option Nat) (a : Addr)
    (done : h.alloc size type destructor = .ok (a, k)) : Born h a k := by
  obtain ⟨beyond, pool, _, _, objects, _⟩ := alloc_spec size type destructor a done
  have lookup : ∀ b : Addr, k.objects[b]? = if a = b then
      some (Object.create size type destructor (h.types.contains type) beyond) else h.objects[b]? := by
    intro b
    rw [objects, Std.TreeMap.getElem?_insert]
    simp
  have valid : (Object.create size type destructor (h.types.contains type) beyond).valid = true := rfl
  constructor
  · intro b
    rw [Live, lookup]
    by_cases same : a = b
    · simp [same, valid]
    · simp [same, Ne.symm same, Live]
  · have clear : CountWord.buffered ⟨1⟩ = false := by decide
    have one : (CountWord.count ⟨1⟩).toNat = 1 := by decide
    exact ⟨_, by rw [lookup, if_pos rfl], valid, rfl, one, clear, fun slot =>
      Payload.load_blank size slot beyond⟩
  · intro b apart
    rw [lookup, if_neg (Ne.symm apart)]

theorem Born.edges (born : Born h a k) (c b : Addr) :
    k.edges c b = if c = a then 0 else h.edges c b := by
  rw [Heap.edges]
  by_cases here : c = a
  · subst here
    obtain ⟨o, there, _, _, _, _, empty⟩ := born.here
    rw [there, if_pos rfl, Option.elim_some, Payload.holding_eq, List.countP_eq_zero]
    intro slot _
    simp [empty slot]
  · rw [if_neg here, born.others c here, Heap.edges]

theorem Born.held (born : Born h a k) (new : ¬ h.Live a) (b : Addr) : k.held b = h.held b := by
  have live : k.live = insert a h.live := by
    ext c
    rw [Finset.mem_insert, mem_live, mem_live, born.live]
  rw [Heap.held, live, Finset.sum_insert (mt (h.mem_live a).mp new), born.edges, if_pos rfl,
    Nat.zero_add]
  apply Finset.sum_congr rfl
  intro c member
  have apart : c ≠ a := by
    rintro rfl
    exact new ((h.mem_live c).mp member)
  rw [born.edges, if_neg apart]

theorem Born.countAt (born : Born h a k) (b : Addr) :
    k.countAt b = if b = a then 1 else h.countAt b := by
  rw [Heap.countAt]
  by_cases here : b = a
  · subst here
    obtain ⟨o, there, _, _, one, _⟩ := born.here
    rw [there, if_pos rfl, Option.elim_some, one]
  · rw [if_neg here, born.others b here, Heap.countAt]

theorem Sound.made (sound : h.Sound owned) (size type : Nat) (destructor : Option Nat) (a : Addr)
    (done : h.alloc size type destructor = .ok (a, k)) :
    ¬ h.Live a ∧ k.Sound (gain owned a) := by
  have born := alloc_born size type destructor a done
  obtain ⟨beyond, pool, served, isPool, _⟩ := alloc_spec size type destructor a done
  rcases sound.intact.stocked with ⟨free, stocked⟩
  obtain ⟨new, free', restocked⟩ := Pool.alloc_stocked stocked _ a served
  have nothing : owned a + h.held a = 0 := by
    by_contra something
    exact new (sound.grounded a (Nat.pos_of_ne_zero something))
  refine ⟨new, ?_, ?_, ?_⟩
  · intro b live
    rw [born.held new, born.countAt]
    by_cases here : b = a
    · subst here
      rw [gain_self, if_pos rfl]
      omega
    · rw [gain_of_ne owned here, if_neg here]
      rcases (born.live b).mp live with same | old
      · exact absurd same here
      · exact sound.accounted b old
  · intro b owes
    rw [born.live]
    by_cases here : b = a
    · exact Or.inl here
    · rw [born.held new, gain_of_ne owned here] at owes
      exact Or.inr (sound.grounded b owes)
  · constructor
    · intro b dead
      rw [born.live, not_or] at dead
      rw [born.countAt, if_neg dead.1]
      exact sound.intact.settled b dead.2
    · rw [isPool]
      exact ⟨free', restocked.transfer (fun _ => rfl) rfl (Nat.le_refl _) fun b => (born.live b).mp⟩

/-! References -/

theorem Sound.raised {a : Addr} (sound : h.Sound owned) (raised : h.Raised a k) :
    k.Sound (gain owned a) := by
  have same := raised.same
  have isLive : h.Live a := sound.intact.live_of_count a raised.positive
  constructor
  · intro b live
    have enough := sound.accounted b ((same.live_iff b).mp live)
    have moved := raised.countAt_gain owned b
    rw [same.held]
    omega
  · intro b owes
    rw [same.live_iff]
    by_cases here : b = a
    · exact here ▸ isLive
    · rw [same.held, gain_of_ne owned here] at owes
      exact sound.grounded b owes
  · refine sound.intact.transfer same.live_iff ?_ (by rw [raised.frame])
    intro b dead
    have apart : b ≠ a := by
      rintro rfl
      exact dead isLive
    have moved := raised.countAt_gain owned b
    rw [gain_of_ne owned apart] at moved
    exact Nat.add_right_cancel moved

theorem Sound.transfer (sound : h.Sound owned) (same : Same Object.standing h k)
    (intact : k.Intact) : k.Sound owned := by
  have shape := same.shape_of_standing
  constructor
  · intro b live
    rw [shape.held, same.countAt]
    exact sound.accounted b ((shape.live_iff b).mp live)
  · intro b owes
    rw [shape.held] at owes
    exact (shape.live_iff b).mpr (sound.grounded b owes)
  · exact intact

/-! Slots -/

theorem edges_store (h : Heap) (a : Addr) (o : Object) (slot : Nat) (value : Option Addr)
    (there : h.objects[a]? = some o) (inside : slot < o.slotCount) (b : Addr) :
    (h.storeRef a slot value).edges a b + (if o.payload.load slot = some b then 1 else 0) =
      h.edges a b + (if value = some b then 1 else 0) := by
  rw [edges, edges, storeRef, getElem?_update, if_pos rfl, there]
  simp only [Option.map_some, Option.elim_some]
  exact o.payload.holding_store slot value b inside

theorem edges_store_others (h : Heap) (a c : Addr) (slot : Nat) (value : Option Addr)
    (apart : a ≠ c) (b : Addr) : (h.storeRef a slot value).edges c b = h.edges c b := by
  rw [edges, edges, storeRef, getElem?_update, if_neg apart]

theorem store_same {α : Type} {view : Object → α} (h : Heap) (a : Addr) (slot : Nat)
    (value : Option Addr) (equal : ∀ (o : Object) (payload : Payload),
      view { o with payload } = view o) : Same view h (h.storeRef a slot value) :=
  update_same h a _ fun o => equal o _

theorem store_live (h : Heap) (a : Addr) (slot : Nat) (value : Option Addr) (b : Addr) :
    (h.storeRef a slot value).Live b ↔ h.Live b := by
  have same : Same Object.valid h _ := h.store_same a slot value fun _ _ => rfl
  rw [Live, Live, same.any_eq b Object.valid id fun _ => rfl]

theorem store_countAt (h : Heap) (a : Addr) (slot : Nat) (value : Option Addr) (b : Addr) :
    (h.storeRef a slot value).countAt b = h.countAt b := by
  have same : Same Object.count h _ := h.store_same a slot value fun _ _ => rfl
  exact same.elim_eq b 0 Object.count id fun _ => rfl

theorem held_store (h : Heap) (a : Addr) (o : Object) (slot : Nat) (value : Option Addr)
    (there : h.objects[a]? = some o) (valid : o.valid = true) (inside : slot < o.slotCount)
    (b : Addr) :
    (h.storeRef a slot value).held b + (if o.payload.load slot = some b then 1 else 0) =
      h.held b + (if value = some b then 1 else 0) := by
  have member : a ∈ h.live := (h.mem_live a).mpr ((h.live_iff a).mpr ⟨o, there, valid⟩)
  have live : (h.storeRef a slot value).live = h.live := by
    ext c
    rw [mem_live, mem_live, store_live]
  have here := h.edges_store a o slot value there inside b
  have rest : ∑ c ∈ h.live.erase a, (h.storeRef a slot value).edges c b =
      ∑ c ∈ h.live.erase a, h.edges c b :=
    Finset.sum_congr rfl fun c isMember =>
      h.edges_store_others a c slot value (Finset.ne_of_mem_erase isMember).symm b
  rw [held, held, live, ← Finset.add_sum_erase _ _ member, ← Finset.add_sum_erase _ _ member, rest]
  omega

/-- The ledger's share of a slot: what goes in leaves it, what comes out enters it. -/
theorem ledger_store (owned : Addr → Nat) (previous value : Option Addr)
    (owns : ∀ b, value = some b → 0 < owned b) (b : Addr) :
    (previous.elim (value.elim owned (lose owned)) (gain (value.elim owned (lose owned)))) b +
        (if value = some b then 1 else 0) =
      owned b + (if previous = some b then 1 else 0) := by
  have less : (value.elim owned (lose owned)) b + (if value = some b then 1 else 0) = owned b := by
    cases value with
    | none => simp
    | some c =>
        have positive := owns c rfl
        by_cases here : b = c
        · subst here
          simp only [Option.elim_some, lose_self, if_pos]
          omega
        · simp [lose_of_ne owned here, Ne.symm here]
  cases previous with
  | none => simpa using less
  | some c =>
      by_cases here : b = c
      · subst here
        simp only [Option.elim_some, gain_self, if_pos]
        omega
      · simp only [Option.elim_some, gain_of_ne _ here, Option.some.injEq, Ne.symm here, if_false]
        exact less

theorem Sound.stored (sound : h.Sound owned) (a : Addr) (o : Object) (slot : Nat)
    (value : Option Addr) (there : h.objects[a]? = some o) (valid : o.valid = true)
    (inside : slot < o.slotCount) (owns : ∀ b, value = some b → 0 < owned b) :
    (h.storeRef a slot value).Sound
      ((o.payload.load slot).elim (value.elim owned (lose owned))
        (gain (value.elim owned (lose owned)))) := by
  have moved : ∀ b, ((o.payload.load slot).elim (value.elim owned (lose owned))
      (gain (value.elim owned (lose owned)))) b + (h.storeRef a slot value).held b =
      owned b + h.held b := by
    intro b
    have held := h.held_store a o slot value there valid inside b
    have ledger := ledger_store owned (o.payload.load slot) value owns b
    omega
  constructor
  · intro b live
    rw [moved, store_countAt]
    exact sound.accounted b ((h.store_live a slot value b).mp live)
  · intro b owes
    rw [moved] at owes
    exact (h.store_live a slot value b).mpr (sound.grounded b owes)
  · exact sound.intact.transfer (h.store_live a slot value)
      (fun b _ => h.store_countAt a slot value b) rfl

theorem Act.sound {rule : Rule} {owned' : Addr → Nat} (act : Act rule h owned k owned')
    (sound : h.Sound owned) : k.Sound owned' := by
  cases act with
  | quiet same ledger pool books auto room registry =>
      subst ledger
      have standing := same.standing_of_face
      have live := standing.shape_of_standing.live_iff
      refine sound.transfer standing ?_
      constructor
      · intro a dead
        rw [standing.countAt]
        exact sound.intact.settled a (mt (live a).mpr dead)
      · rcases sound.intact.stocked with ⟨free, stocked⟩
        rw [pool]
        exact ⟨free, stocked.transfer (fun _ => rfl) rfl (Nat.le_refl _) fun a => (live a).mp⟩
  | declared type tracer absent ledger done =>
      subst ledger done
      exact ⟨sound.accounted, sound.grounded, sound.intact.settled, sound.intact.stocked⟩
  | made a size type destructor ledger done =>
      subst ledger
      exact (sound.made size type destructor a done).2
  | raised a raised ledger =>
      subst ledger
      exact sound.raised raised
  | registered a o there valid ledger changed registry =>
      subst ledger
      have same : Same Object.standing h k := by
        apply changed.same there
        simp only [Object.standing, Object.count, CountWord.count_setBuffered]
        rfl
      have frame := changed.rest
      apply sound.transfer same
      exact sound.intact.transfer same.shape_of_standing.live_iff (fun b _ => same.countAt b)
        (by rw [frame])
  | taken a o slot there valid inside ledger done =>
      subst ledger done
      exact sound.stored a o slot none there valid inside (by simp)
  | assigned a b l o slot raised there valid inside reports ledger done =>
      subst ledger done
      have stored := (sound.raised raised).stored a o slot (some b) there valid inside
        (by simp [gain])
      simpa only [Option.elim_some, Client.lose_gain] using stored

end Heap

end CountedHeap
