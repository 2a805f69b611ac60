import CountedHeap.Proofs.Shelves
import CountedHeap.Proofs.Steady

/-!
The books of a heap against a diary. The diary tells which objects were made, with their types and
sizes, and which were reclaimed; beside it stand the blocks that clients have from the pool for
themselves. Whatever clients do, the heap's books, the large objects and the pool's counters all say
what the diary says.

Clients free a raw block with the size they asked for, and write nothing into it.
-/

namespace CountedHeap

open Heap (Steady)
open Pool (Deal outstanding)

structure Tenant where
  object : Addr
  type : Nat
  size : Nat
  deriving DecidableEq, Repr

namespace Tenant

def bytes (t : Tenant) : Nat := Object.headerBytes + t.size

def block (t : Tenant) : Addr × Nat := (t.object, t.bytes)

def memory (row : List Tenant) : Nat := (row.map bytes).sum

end Tenant

def Heap.tenant? (h : Heap) (a : Addr) : Option Tenant :=
  (h.objects[a]?).bind fun o => if o.valid then some { object := a, type := o.type, size := o.size } else none

inductive Entry where
  | made (tenant : Tenant)
  | reclaimed (object : Addr)
  | recounted
  deriving DecidableEq, Repr

namespace Entry

def tenant? : Entry → Option Tenant
  | .made t => some t
  | _ => none

def tenants (diary : List Entry) : List Tenant := diary.filterMap tenant?

def standing : List Entry → List Tenant
  | [] => []
  | .made t :: past => t :: standing past
  | .reclaimed a :: past => (standing past).filter (·.object != a)
  | .recounted :: past => standing past

/-- The most there was of something since the books began to count. -/
def peak (measure : List Tenant → Nat) : List Entry → Nat
  | [] => measure []
  | .made t :: past => max (peak measure past) (measure (standing (.made t :: past)))
  | .reclaimed a :: past => max (peak measure past) (measure (standing (.reclaimed a :: past)))
  | .recounted :: past => measure (standing past)

theorem le_peak (measure : List Tenant → Nat) (diary : List Entry) :
    measure (standing diary) ≤ peak measure diary := by
  cases diary with
  | nil => exact Nat.le_refl _
  | cons entry past =>
      cases entry with
      | recounted => exact Nat.le_refl _
      | made _ | reclaimed _ => exact Nat.le_max_right _ _

theorem standing_reclaimed {t : Tenant} {past : List Entry} (there : t ∈ standing past)
    (single : ((standing past).map Tenant.object).Nodup) :
    (standing past).Perm (t :: standing (.reclaimed t.object :: past)) := by
  have once : (standing past).Nodup := .of_map _ single
  have out : (t :: standing (.reclaimed t.object :: past)).Nodup :=
    List.nodup_cons.mpr ⟨by simp [standing], once.filter _⟩
  refine (List.perm_ext_iff_of_nodup once out).mpr fun u => ?_
  have same : u ∈ standing past → u.object = t.object → u = t := fun member equal =>
    List.inj_on_of_nodup_map single member there equal
  simp only [standing, List.mem_cons, List.mem_filter, bne_iff_ne, ne_eq]
  constructor
  · intro member
    by_cases here : u.object = t.object
    · exact Or.inl (same member here)
    · exact Or.inr ⟨member, here⟩
  · rintro (rfl | ⟨member, _⟩)
    · exact there
    · exact member

end Entry

open Entry (tenants standing peak)

/-! The books -/

/-- What the books say is what the diary says. -/
structure Tallied (books : ObjectStats) (diary : List Entry) : Prop where
  objects : books.objects = (standing diary).length
  memory : books.memory = Tenant.memory (standing diary)
  peakObjects : books.peakObjects = peak List.length diary
  peakMemory : books.peakMemory = peak Tenant.memory diary

namespace Tallied

variable {books : ObjectStats} {diary : List Entry} {t : Tenant}

theorem made (tallied : Tallied books diary) (t : Tenant) :
    Tallied (books.recordAlloc t.bytes) (.made t :: diary) := by
  have total : Tenant.memory (t :: standing diary) = books.memory + t.bytes := by
    rw [tallied.memory, Tenant.memory, List.map_cons, List.sum_cons, Nat.add_comm, Tenant.memory]
  constructor
  · rw [standing, List.length_cons, ← tallied.objects]
    rfl
  · rw [standing, total]
    rfl
  · rw [peak, standing, List.length_cons, ← tallied.objects, ← tallied.peakObjects]
    rfl
  · rw [peak, standing, total, ← tallied.peakMemory]
    rfl

theorem reclaimed (tallied : Tallied books diary) (there : t ∈ standing diary)
    (single : ((standing diary).map Tenant.object).Nodup) :
    Tallied (books.recordDealloc t.bytes) (.reclaimed t.object :: diary) := by
  have left := Entry.standing_reclaimed there single
  have fewer : books.objects = (standing (.reclaimed t.object :: diary)).length + 1 := by
    rw [tallied.objects, left.length_eq, List.length_cons]
  have less : books.memory = t.bytes + Tenant.memory (standing (.reclaimed t.object :: diary)) := by
    rw [tallied.memory, Tenant.memory, (left.map Tenant.bytes).sum_eq, List.map_cons, List.sum_cons,
      Tenant.memory]
  -- What goes makes no new peak.
  have still : ∀ measure : List Tenant → Nat,
      measure (standing (.reclaimed t.object :: diary)) ≤ measure (standing diary) →
        peak measure (.reclaimed t.object :: diary) = peak measure diary := fun measure down =>
    Nat.max_eq_left (Nat.le_trans down (Entry.le_peak measure diary))
  constructor
  · simp [ObjectStats.recordDealloc, ObjectStats.less, fewer]
  · simp [ObjectStats.recordDealloc, ObjectStats.less, less]
  · rw [still _ (by rw [← tallied.objects]; omega), ← tallied.peakObjects]
    rfl
  · rw [still _ (by rw [← tallied.memory]; omega), ← tallied.peakMemory]
    rfl

theorem recounted (tallied : Tallied books diary) : Tallied books.reset (.recounted :: diary) :=
  ⟨tallied.objects, tallied.memory, tallied.objects, tallied.memory⟩

theorem misused (tallied : Tallied books diary) (misuse : Nat) : Tallied { books with misuse } diary :=
  ⟨tallied.objects, tallied.memory, tallied.peakObjects, tallied.peakMemory⟩

end Tallied

/-! The heap -/

/-- A heap that is as the diary says, and whose pool has lent blocks to others besides. -/
structure Heap.Kept (h : Heap) (diary : List Entry) (loans : List (Addr × Nat)) : Prop where
  lent : h.pool.Lent ((standing diary).map Tenant.block ++ loans)
  told : ∀ t, t ∈ standing diary ↔ h.tenant? t.object = some t
  large : ∀ a, a ∈ h.large ↔ ∃ t ∈ standing diary, t.object = a ∧ SizeClass.largest < t.bytes
  tallied : Tallied h.books diary
  homes : ∀ t ∈ tenants diary, t.object < h.pool.system.next ∧
    (h.pool.carved[t.object]?).map Carving.sizeClass = SizeClass.fit? t.bytes
  /-- The address of a large object is not given to any other. -/
  large_once : (tenants diary).Pairwise fun t u => t.object = u.object →
    t.bytes ≤ SizeClass.largest ∧ u.bytes ≤ SizeClass.largest

namespace Heap

variable {h k : Heap} {a : Addr} {t : Tenant} {diary : List Entry} {loans : List (Addr × Nat)}

theorem tenant?_eq_some_iff (h : Heap) (a : Addr) (t : Tenant) : h.tenant? a = some t ↔
    t.object = a ∧ ∃ o, h.objects[a]? = some o ∧ o.valid = true ∧ o.type = t.type ∧ o.size = t.size := by
  obtain ⟨b, type, size⟩ := t
  simp only [tenant?, Option.bind_eq_some_iff, Option.ite_none_right_eq_some, Option.some.injEq,
    Tenant.mk.injEq]
  constructor
  · rintro ⟨o, there, valid, rfl, rfl, rfl⟩
    exact ⟨rfl, o, there, valid, rfl, rfl⟩
  · rintro ⟨rfl, o, there, valid, rfl, rfl⟩
    exact ⟨o, there, valid, rfl, rfl, rfl⟩

theorem Steady.tenant? (steady : Steady h k) (a : Addr) : k.tenant? a = h.tenant? a := by
  have key : ∀ heap : Heap, heap.tenant? a = ((heap.objects[a]?).map Object.build).bind fun b =>
      if b.1 then some { object := a, type := b.2.1, size := b.2.2 } else none := by
    intro heap
    simp only [Heap.tenant?, Option.bind_map]
    rfl
  rw [key, key, steady.builds]

theorem alloc_large {size type : Nat} {destructor : Option Nat}
    (done : h.alloc size type destructor = .ok (a, k)) :
    k.large = if SizeClass.largest < Object.headerBytes + size then h.large.insert a else h.large := by
  unfold alloc at done
  simp only at done
  split at done
  · cases done
  · split at done
    · cases done
    · split at done
      · cases done
      · cases done
        exact if_congr decide_eq_true_iff rfl rfl

namespace Kept

theorem initial (settings : Settings) (entropy : UInt64) :
    (Heap.initial settings entropy).Kept [] [] := by
  refine ⟨.start, fun t => ?_, fun a => ?_, ⟨rfl, rfl, rfl, rfl⟩, by simp [tenants],
    List.Pairwise.nil⟩
  · simp [standing, Heap.tenant?, Heap.initial]
  · simp [standing, Heap.initial]

theorem single (kept : h.Kept diary loans) : ((standing diary).map Tenant.object).Nodup := by
  have both := kept.lent.single
  rw [List.map_append, List.map_map] at both
  exact (List.nodup_append.mp both).1

theorem unique (kept : h.Kept diary loans) {u : Tenant} (first : t ∈ standing diary)
    (second : u ∈ standing diary) (same : t.object = u.object) : t = u :=
  List.inj_on_of_nodup_map kept.single first second same

theorem steady (kept : h.Kept diary loans) (steady : Steady h k) : k.Kept diary loans := by
  obtain ⟨lent, told, large, tallied, homes, large_once⟩ := kept
  refine ⟨?_, fun t => ?_, ?_, ?_, ?_, large_once⟩
  · rwa [steady.pool]
  · rw [steady.tenant?, told]
  · rwa [steady.large]
  · rw [steady.books]
    exact tallied.misused _
  · rwa [steady.pool]

theorem repooled (kept : h.Kept diary loans) {pool : Pool} {others : List (Addr × Nat)}
    (lent : pool.Lent ((standing diary).map Tenant.block ++ others)) (later : h.pool.Later pool) :
    Heap.Kept { h with pool } diary others := by
  refine ⟨lent, kept.told, kept.large, kept.tallied, fun t member => ?_, kept.large_once⟩
  obtain ⟨old, home⟩ := kept.homes t member
  exact ⟨Nat.lt_of_lt_of_le old later.next, by rw [later.carved _ old, home]⟩

/-- What the pool lends at an address where an object stood before is a block of that object's class. -/
theorem apart (kept : h.Kept diary loans) {n : Nat} {q : Pool} (done : h.pool.alloc n = .ok (a, q))
    (u : Tenant) (member : u ∈ tenants diary) (here : a = u.object) :
    n ≤ SizeClass.largest ∧ u.bytes ≤ SizeClass.largest := by
  obtain ⟨old, home⟩ := kept.homes u member
  rcases kept.lent.served done with isNew | ⟨fits, carved⟩
  · rw [← here, isNew] at old
    exact absurd old (Nat.lt_irrefl _)
  · rw [← here, carved] at home
    have small : ∀ n, SizeClass.fit? n ≠ none → n ≤ SizeClass.largest := fun n fits =>
      Nat.not_lt.mp (mt (SizeClass.fit?_eq_none_iff n).mpr fits)
    exact ⟨small _ fits, small _ (home ▸ fits)⟩

theorem made (kept : h.Kept diary loans) {size type : Nat} {destructor : Option Nat}
    (done : h.alloc size type destructor = .ok (a, k)) :
    k.Kept (.made { object := a, type, size } :: diary) loans ∧ h.pool.Later k.pool := by
  obtain ⟨beyond, q, served, isPool, objects, _, _, _, books⟩ := alloc_spec size type destructor a done
  have lent : k.pool.Lent (({ object := a, type, size } : Tenant).block ::
      ((standing diary).map Tenant.block ++ loans)) := by
    rw [isPool]
    exact (kept.lent.alloc served).transfer (fun _ => ⟨rfl, rfl, rfl⟩) rfl rfl (Nat.le_refl _)
  have later : h.pool.Later k.pool := by
    rw [isPool]
    exact (Pool.Later.alloc served).trans (.of_carved (Nat.le_refl _) rfl)
  -- The block was not out, so nothing stood there.
  have absent : ∀ u ∈ standing diary, u.object ≠ a := by
    intro u member here
    have single := lent.single
    rw [List.map_cons, List.nodup_cons] at single
    apply single.1
    rw [List.map_append, List.mem_append, List.map_map]
    exact Or.inl (List.mem_map.mpr ⟨u, member, here⟩)
  have here : k.tenant? a = some { object := a, type, size } := by
    rw [tenant?_eq_some_iff]
    exact ⟨rfl, _, by rw [objects, Std.TreeMap.getElem?_insert_self], rfl, rfl, rfl⟩
  have others : ∀ b, b ≠ a → k.tenant? b = h.tenant? b := by
    intro b apart
    rw [Heap.tenant?, objects, Std.TreeMap.getElem?_insert, if_neg (by simpa using Ne.symm apart),
      Heap.tenant?]
  have bytes : ({ object := a, type, size } : Tenant).bytes = Object.headerBytes + size := rfl
  refine ⟨⟨lent, fun t => ?_, fun b => ?_, ?_, fun t member => ?_, ?_⟩, later⟩
  · rw [standing, List.mem_cons]
    by_cases isHere : t.object = a
    · rw [isHere, here, Option.some.injEq, eq_comm]
      exact ⟨fun one => one.elim id fun old => absurd isHere (absent t old), Or.inl⟩
    · rw [others _ isHere, ← kept.told]
      refine ⟨fun one => one.elim (fun isNew => absurd (congrArg Tenant.object isNew) isHere) id, Or.inr⟩
  · rw [alloc_large done, standing]
    simp only [List.mem_cons, exists_eq_or_imp, ← kept.large]
    split
    · rename_i big
      rw [Std.TreeSet.mem_insert, compare_eq_iff_eq]
      simp [bytes, big]
    · rename_i small
      simp [bytes, small]
  · rw [books]
    exact kept.tallied.made { object := a, type, size }
  · rcases List.mem_cons.mp member with rfl | old
    · obtain ⟨home, _, below⟩ := lent.home List.mem_cons_self
      exact ⟨below, home⟩
    · obtain ⟨below, home⟩ := kept.homes t old
      exact ⟨Nat.lt_of_lt_of_le below later.next, by rw [later.carved _ below, home]⟩
  · exact List.pairwise_cons.mpr ⟨fun u member same => kept.apart served u member same, kept.large_once⟩

theorem reclaimed (kept : h.Kept diary loans) {o : Object} (there : h.objects[a]? = some o)
    (valid : o.valid = true) :
    (h.reclaim a).Kept (.reclaimed a :: diary) loans ∧ h.pool.Later (h.reclaim a).pool := by
  obtain ⟨here, books, pool⟩ := h.reclaim_spec a o there
  obtain ⟨t, isTenant, rfl⟩ : ∃ t, h.tenant? a = some t ∧ t.object = a :=
    ⟨{ object := a, type := o.type, size := o.size },
      (tenant?_eq_some_iff ..).mpr ⟨rfl, o, there, valid, rfl, rfl⟩, rfl⟩
  have member := (kept.told t).mpr isTenant
  have bytes : o.totalBytes = t.bytes := by
    obtain ⟨_, p, found, _, _, size⟩ := (tenant?_eq_some_iff ..).mp isTenant
    rw [there, Option.some.injEq] at found
    rw [Object.totalBytes, found, size, Tenant.bytes]
  have left := Entry.standing_reclaimed member kept.single
  have stays : ∀ u, u ∈ standing (.reclaimed t.object :: diary) ↔
      u ∈ standing diary ∧ u.object ≠ t.object := by
    intro u
    simp [standing]
  have large : (h.reclaim t.object).large =
      if SizeClass.largest < t.bytes then h.large.erase t.object else h.large := by
    simp only [Heap.reclaim, there, Object.isLarge, bytes, decide_eq_true_eq]
    rfl
  have later : h.pool.Later (h.reclaim t.object).pool := pool ▸ .free _ _ _
  refine ⟨⟨?_, fun u => ?_, fun b => ?_, ?_, fun u old => ?_, kept.large_once⟩, later⟩
  · rw [pool, bytes]
    exact (kept.lent.perm ((left.map Tenant.block).append_right loans)).free
  · rw [stays]
    by_cases same : u.object = t.object
    · have gone : (h.reclaim t.object).tenant? t.object = none := by
        rw [Heap.tenant?, here]
        rfl
      rw [same, gone]
      simp
    · rw [Heap.tenant?, h.reclaim_others _ _ same, ← Heap.tenant?, ← kept.told]
      simp [same]
  · rw [large]
    have others : (∃ u ∈ standing (.reclaimed t.object :: diary), u.object = b ∧
        SizeClass.largest < u.bytes) ↔ b ≠ t.object ∧ b ∈ h.large := by
      rw [kept.large]
      constructor
      · rintro ⟨u, isLeft, rfl, big⟩
        obtain ⟨old, apart⟩ := (stays u).mp isLeft
        exact ⟨apart, u, old, rfl, big⟩
      · rintro ⟨apart, u, old, rfl, big⟩
        exact ⟨u, (stays u).mpr ⟨old, apart⟩, rfl, big⟩
    rw [others]
    split
    · rw [Std.TreeSet.mem_erase, ne_eq, compare_eq_iff_eq, eq_comm]
    · rename_i small
      refine ⟨fun isLarge => ⟨?_, isLarge⟩, And.right⟩
      rintro rfl
      obtain ⟨u, old, same, big⟩ := (kept.large _).mp isLarge
      exact small (kept.unique old member same ▸ big)
  · rw [books, bytes]
    exact kept.tallied.reclaimed member kept.single
  · obtain ⟨below, home⟩ := kept.homes u old
    exact ⟨Nat.lt_of_lt_of_le below later.next, by rw [later.carved _ below, home]⟩

end Kept

end Heap

/-! Clients at work -/

namespace Machine

def enters (m : Machine) : Operation → List Entry
  | .call (.alloc size type destructor) =>
      match m.heap.alloc size type destructor with
      | .ok (a, _) => [.made { object := a, type, size }]
      | .error _ => []
  | .resetObjects => [.recounted]
  | _ => []

def entering (m : Machine) : List Entry :=
  match m.tasks with
  | .reclaim a :: _ => [.reclaimed a]
  | _ => []

end Machine

/-- What may happen: operations and steps of the machine, demands on its pool, and that others take
addresses from the system or that it sets another limit. -/
inductive Deed where
  | operate (operation : Operation)
  | step
  | deal (demand : Demand)
  | elsewhere (system : System)

structure Estate where
  machine : Machine
  diary : List Entry := []
  deals : List Deal := []
  deriving Inhabited

namespace Estate

def heap (e : Estate) : Heap := e.machine.heap

def standing (e : Estate) : List Tenant := Entry.standing e.diary

def loans (e : Estate) : List (Addr × Nat) := outstanding e.deals

def blocks (e : Estate) : List (Addr × Nat) := e.standing.map Tenant.block ++ e.loans

def lender (e : Estate) : Lender := { pool := e.heap.pool, log := e.deals }

def act (e : Estate) : Deed → Estate
  | .operate operation =>
      { e with
        machine := e.machine.operate operation
        diary := e.machine.enters operation ++ e.diary }
  | .step => { e with machine := e.machine.step, diary := e.machine.entering ++ e.diary }
  | .deal demand =>
      let l := e.lender.serve demand
      { e with machine := e.machine.onHeap ({ · with pool := l.pool }), deals := l.log }
  | .elsewhere system =>
      { e with machine := e.machine.onHeap fun h => { h with pool := { h.pool with system } } }

def May (e : Estate) : Deed → Prop
  | .operate operation => e.machine.May operation
  | .step => True
  | .deal demand => e.lender.May demand
  | .elsewhere system => e.heap.pool.system.next ≤ system.next

instance (e : Estate) : (deed : Deed) → Decidable (e.May deed)
  | .operate operation => inferInstanceAs (Decidable (e.machine.May operation))
  | .step => inferInstanceAs (Decidable True)
  | .deal demand => inferInstanceAs (Decidable (e.lender.May demand))
  | .elsewhere system => inferInstanceAs (Decidable (e.heap.pool.system.next ≤ system.next))

inductive Run (e : Estate) : Estate → Prop where
  | start : Run e e
  | act {f : Estate} (deed : Deed) (run : Run e f) (may : f.May deed) : Run e (f.act deed)

def Plays (e : Estate) : List Deed → Prop
  | [] => True
  | deed :: rest => e.May deed ∧ (e.act deed).Plays rest

instance decidablePlays (e : Estate) : (deeds : List Deed) → Decidable (e.Plays deeds)
  | [] => inferInstanceAs (Decidable True)
  | deed :: rest =>
      let _ := decidablePlays (e.act deed) rest
      inferInstanceAs (Decidable (_ ∧ _))

theorem Run.plays {e f : Estate} (run : Run e f) (deeds : List Deed) (plays : f.Plays deeds) :
    Run e (deeds.foldl Estate.act f) := by
  induction deeds generalizing f with
  | nil => exact run
  | cons deed rest ih => exact ih (run.act deed plays.1) plays.2

/-- What holds of a machine and its diary whatever its clients do. -/
structure Sound (e : Estate) : Prop where
  told : ∃ log, e.machine.Told log
  kept : e.heap.Kept e.diary e.loans

namespace Sound

variable {e : Estate}

theorem initial (settings : Settings) (entropy : UInt64) :
    Sound { machine := { heap := .initial settings entropy } } :=
  ⟨⟨[], .initial settings entropy⟩, .initial settings entropy⟩

/-- The stages of objects do not depend on how the pool goes on, as long as it has lent their blocks. -/
theorem repooled (sound : e.Sound) {pool : Pool} {deals : List Deal}
    (lent : pool.Lent (e.standing.map Tenant.block ++ outstanding deals))
    (later : e.heap.pool.Later pool) :
    Sound { e with machine := e.machine.onHeap ({ · with pool }), deals } := by
  obtain ⟨⟨log, told⟩, kept⟩ := sound
  refine ⟨⟨log, told.gentle ⟨fun marked => ⟨marked.objects, marked.entries, marked.once, ?_⟩,
    fun _ => rfl⟩ fun _ => rfl⟩, kept.repooled lent later⟩
  refine lent.stocked fun a live => ?_
  obtain ⟨o, there, valid⟩ := (Heap.live_iff _ a).mp live
  have isTenant : e.heap.tenant? a = some { object := a, type := o.type, size := o.size } :=
    (Heap.tenant?_eq_some_iff ..).mpr ⟨rfl, o, there, valid, rfl, rfl⟩
  have member := (kept.told { object := a, type := o.type, size := o.size }).mpr isTenant
  exact ⟨_, List.mem_append_left _ (List.mem_map_of_mem (f := Tenant.block) member)⟩

theorem operate (sound : e.Sound) (operation : Operation) (may : e.machine.May operation) :
    (e.act (.operate operation)).Sound ∧
      e.heap.pool.Later (e.act (.operate operation)).heap.pool := by
  obtain ⟨⟨log, told⟩, kept⟩ := sound
  have stages := told.operate operation may
  suffices done : (e.machine.operate operation).heap.Kept
      (e.machine.enters operation ++ e.diary) e.loans ∧
        e.heap.pool.Later (e.machine.operate operation).heap.pool from
    ⟨⟨⟨_, stages⟩, done.1⟩, done.2⟩
  have operated := e.machine.operate_cases operation
  generalize e.machine.operate operation = n at operated
  have still : ∀ {k : Heap}, Steady e.heap k → k.Kept e.diary e.loans ∧ e.heap.pool.Later k.pool :=
    fun steady => ⟨kept.steady steady, .of_carved (by rw [steady.pool]) (by rw [steady.pool])⟩
  have quiet : e.machine.told operation = [] → operation ≠ .resetObjects →
      e.machine.enters operation = [] := by
    intro silent other
    unfold Machine.told at silent
    unfold Machine.enters
    split
    · split
      · simp_all
      · rfl
    · exact absurd rfl other
    · rfl
  have steady := operated.steady
  cases operated with
  | edited given edits silent other =>
      rw [quiet silent other]
      exact still edits.steady
  | made size type destructor done =>
      simp only [Machine.enters, done]
      exact kept.made done
  | bounded limit =>
      have later : e.heap.pool.Later { e.heap.pool with system := { e.heap.pool.system with limit } } :=
        .of_carved (Nat.le_refl _) rfl
      exact ⟨kept.repooled (kept.lent.transfer (fun _ => ⟨rfl, rfl, rfl⟩) rfl rfl later.next) later, later⟩
  | resetPool =>
      have later : e.heap.pool.Later e.heap.pool.resetStats := .of_carved (Nat.le_refl _) rfl
      refine ⟨kept.repooled (kept.lent.transfer (fun c => ?_) rfl rfl later.next) later, later⟩
      simp [Pool.shelf, Pool.resetStats, Vector.get_eq_getElem, heap]
  | resetObjects =>
      exact ⟨⟨kept.lent, kept.told, kept.large, kept.tallied.recounted, kept.homes, kept.large_once⟩,
        .refl _⟩
  | released a | tried a | collected | triggered | named row | downgraded a | cloned a | dropped a
  | recounted | reordered registry =>
      exact still (steady rfl (by rintro ⟨⟩) (by rintro ⟨⟩) (by rintro _ ⟨⟩))

theorem step (sound : e.Sound) :
    (e.act .step).Sound ∧ e.heap.pool.Later (e.act .step).heap.pool := by
  obtain ⟨⟨log, told⟩, kept⟩ := sound
  suffices done : e.machine.step.heap.Kept (e.machine.entering ++ e.diary) e.loans ∧
      e.heap.pool.Later e.machine.step.heap.pool from ⟨⟨⟨_, told.step⟩, done.1⟩, done.2⟩
  cases tasks : e.machine.tasks with
  | nil =>
      rw [Machine.step_nil tasks, Machine.entering, tasks]
      exact ⟨kept, .refl _⟩
  | cons t rest =>
      by_cases back : ∃ a, t = .reclaim a
      · obtain ⟨a, rfl⟩ := back
        obtain ⟨o, there, valid, _⟩ := told.reclaiming tasks
        rw [Machine.step_cons tasks, Machine.entering, tasks]
        exact kept.reclaimed there valid
      · have other : ∀ a, t ≠ .reclaim a := fun a here => back ⟨a, here⟩
        have nothing : e.machine.entering = [] := by
          rw [Machine.entering, tasks]
          split
          · rename_i same
            cases same
            exact absurd rfl (other _)
          · rfl
        have steady : Steady e.heap e.machine.step.heap := Machine.step_steady tasks other
        rw [nothing]
        exact ⟨kept.steady steady, .of_carved (by rw [steady.pool]) (by rw [steady.pool])⟩

theorem act (sound : e.Sound) (deed : Deed) (may : e.May deed) :
    (e.act deed).Sound ∧ e.heap.pool.Later (e.act deed).heap.pool := by
  cases deed with
  | operate operation => exact sound.operate operation may
  | step => exact sound.step
  | deal demand =>
      obtain ⟨lent, later⟩ := Pool.Lent.demand (l := e.lender) sound.kept.lent demand may
      exact ⟨sound.repooled lent later, later⟩
  | elsewhere system =>
      have later : e.heap.pool.Later { e.heap.pool with system } := .of_carved may rfl
      exact ⟨sound.repooled (sound.kept.lent.transfer (fun _ => ⟨rfl, rfl, rfl⟩) rfl rfl may) later, later⟩

end Sound

theorem Run.sound {e f : Estate} (run : Run e f) (start : e.Sound) : f.Sound := by
  induction run with
  | start => exact start
  | act deed _ may ih => exact (ih.act deed may).1

/-- What the diary, the books, the list of large objects and the pool say of each other. -/
structure Agrees (e : Estate) : Prop where
  single : (e.standing.map Tenant.object).Nodup
  told : ∀ t, t ∈ e.standing ↔ e.heap.tenant? t.object = some t
  objects : e.heap.books.objects = e.standing.length
  memory : e.heap.books.memory = Tenant.memory e.standing
  peakObjects : e.heap.books.peakObjects = peak List.length e.diary
  peakMemory : e.heap.books.peakMemory = peak Tenant.memory e.diary
  large : ∀ a, a ∈ e.heap.large ↔ ∃ t ∈ e.standing, t.object = a ∧ SizeClass.largest < t.bytes
  apart : (e.blocks.map Prod.fst).Nodup
  home : ∀ a n, (a, n) ∈ e.blocks → (e.heap.pool.carved[a]?).map Carving.sizeClass = SizeClass.fit? n
  unlisted : ∀ a n, (a, n) ∈ e.blocks → ∀ c, a ∉ e.heap.pool.freeList c
  total : e.heap.pool.stats.totalBlocks = e.heap.pool.stats.freeBlocks +
    (Pool.pooled (e.standing.map Tenant.block) + Pool.pooled e.loans)

/-- In every state the books count the objects that were made and not reclaimed, and their bytes; the
peaks are the most there was of both since the books began to count. Such an object is in a block that
is in nobody else's hands, of the class of its header and payload, or in one of the large ones if there
is no class for it. What the pool does not count as free is in use. -/
theorem books_agree (settings : Settings) (entropy : UInt64) (heap : Heap)
    (made : Heap.create settings entropy = .ok heap) (e : Estate)
    (run : Run { machine := { heap } } e) : e.Agrees := by
  obtain rfl := Heap.create_initial made
  have kept := (run.sound (.initial settings entropy)).kept
  refine ⟨kept.single, kept.told, kept.tallied.objects, kept.tallied.memory, kept.tallied.peakObjects,
    kept.tallied.peakMemory, kept.large, kept.lent.single, fun a n out => ?_, fun a n out => ?_, ?_⟩
  · obtain ⟨home, _⟩ := kept.lent.home out
    exact home
  · obtain ⟨_, unlisted, _⟩ := kept.lent.home out
    exact unlisted
  · rw [kept.lent.total, Pool.pooled_append]
    rfl

/-- Two objects are made, the second a large one, and a block is taken raw. The first is released; in
its destructor the books begin to count again, it is released once more, and the raw block is given
back. Then its own block is, and a third object is made there. -/
def estateDeeds : List Deed :=
  [.operate (.call (.alloc 16 1 (some 7))), .operate (.call (.alloc 4000 2 none)), .deal (.alloc 30),
    .operate (.call (.release 0x6b7000000000)), .step, .step, .operate .resetObjects,
    .operate (.call (.release 0x6b7000000000)), .deal (.free 0x6b7000001040 30), .step, .step, .step,
    .operate (.call (.memory 0)), .operate (.call (.alloc 8 1 none)),
    .operate (.call (.alloc 100 1 none)), .operate (.call (.alloc 4000 1 none))]

theorem books_agree_destructor :
    let start : Estate := { machine := { heap := .initial {} 0 } }
    let e := estateDeeds.foldl act start
    start.Plays estateDeeds ∧
      e.standing = [{ object := 0x6b7000000000, type := 1, size := 8 },
        { object := 0x6b7000000060, type := 2, size := 4000 }] ∧
      e.heap.books.objects = 2 ∧ e.heap.books.memory = 56 + 4048 ∧ e.heap.books.peakObjects = 2 ∧
      e.heap.books.peakMemory = 64 + 4048 ∧ 0x6b7000000060 ∈ e.heap.large ∧
      e.heap.pool.stats.totalBlocks = e.heap.pool.stats.freeBlocks + 1 := by
  intro start e
  have made : Heap.create {} 0 = .ok start.heap := Heap.create_valid {} 0 (by decide +kernel)
  have plays : start.Plays estateDeeds := by decide +kernel
  have standing : e.standing = [{ object := 0x6b7000000000, type := 1, size := 8 },
      { object := 0x6b7000000060, type := 2, size := 4000 }] := by decide +kernel
  have agrees : e.Agrees := books_agree {} 0 start.heap made e (Run.start.plays _ plays)
  refine ⟨plays, standing, ?_, ?_, ?_, ?_, ?_, ?_⟩
  · rw [agrees.objects, standing]
    rfl
  · rw [agrees.memory, standing]
    rfl
  · rw [agrees.peakObjects]
    decide +kernel
  · rw [agrees.peakMemory]
    decide +kernel
  · rw [agrees.large, standing]
    exact ⟨_, List.mem_cons_of_mem _ List.mem_cons_self, rfl, by decide +kernel⟩
  · rw [agrees.total, standing]
    decide +kernel

end Estate

end CountedHeap
