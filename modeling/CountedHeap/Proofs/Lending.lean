import CountedHeap.Proofs.Stock

/-!
What a pool owes to those it lends to. They give back only what they have, and tell the pool the size
they asked with; the system may refuse any request. Then every block that was ever carved is in one
place: on the free list of its class, or out with the one who asked for it.

What happens is told as a row of deals, the latest first. Which blocks are out, and which lie idle and
since when, is read from the deals alone, so that the lists of the pool can be held against them.
-/

namespace CountedHeap

namespace SizeClass

theorem fit?_eq_some_iff (n : Nat) (c : SizeClass) :
    fit? n = some c ↔ n ≤ bytes c ∧ ∀ d < c, bytes d < n := by
  rw [fit?, List.find?_eq_some_iff_getElem]
  simp only [decide_eq_true_eq, List.getElem_finRange, Bool.not_eq_true', decide_eq_false_iff_not,
    Nat.not_le, List.length_finRange]
  constructor
  · rintro ⟨holds, i, inside, rfl, smaller⟩
    exact ⟨holds, fun d below => smaller d.val below⟩
  · rintro ⟨holds, smaller⟩
    exact ⟨holds, c.val, c.isLt, rfl, fun j below => smaller ⟨j, by omega⟩ below⟩

theorem fit?_eq_none_iff (n : Nat) : fit? n = none ↔ largest < n := by
  have top : ∀ c : SizeClass, bytes c ≤ largest := by decide
  simp only [fit?, List.find?_eq_none, List.mem_finRange, true_implies, decide_eq_true_eq, Nat.not_le]
  exact ⟨fun misfits => misfits 15, fun big c => Nat.lt_of_le_of_lt (top c) big⟩

end SizeClass

namespace Pool

inductive Deal where
  | lent (block : Addr) (bytes : Nat)
  | returned (block : Addr) (bytes : Nat)
  deriving DecidableEq, Repr

def outstanding : List Deal → List (Addr × Nat)
  | [] => []
  | .lent block bytes :: past => (block, bytes) :: outstanding past
  | .returned block bytes :: past => (outstanding past).erase (block, bytes)

/-- A block was given back to a class, and in the deals since then it was not handed out. -/
def Idle (c : SizeClass) (log : List Deal) (block : Addr) (since : List Deal) : Prop :=
  ∃ bytes past, log = since ++ .returned block bytes :: past ∧ SizeClass.fit? bytes = some c ∧
    ∀ n, .lent block n ∉ since

section Deals

variable {c : SizeClass} {log since : List Deal} {a b : Addr} {n : Nat}

theorem idle_lent : Idle c (.lent a n :: log) b since ↔
    ∃ rest, since = .lent a n :: rest ∧ b ≠ a ∧ Idle c log b rest := by
  constructor
  · rintro ⟨k, past, whole, fits, kept⟩
    cases since with
    | nil => cases whole
    | cons deal rest =>
        rw [List.cons_append, List.cons.injEq] at whole
        obtain ⟨rfl, rfl⟩ := whole
        refine ⟨rest, rfl, ?_, k, past, rfl, fits, fun m member => kept m (List.mem_cons_of_mem _ member)⟩
        rintro rfl
        exact kept n List.mem_cons_self
  · rintro ⟨rest, rfl, apart, k, past, rfl, fits, kept⟩
    refine ⟨k, past, rfl, fits, fun m member => ?_⟩
    rcases List.mem_cons.mp member with same | later
    · cases same
      exact apart rfl
    · exact kept m later

theorem idle_returned : Idle c (.returned a n :: log) b since ↔
    since = [] ∧ b = a ∧ SizeClass.fit? n = some c ∨
      ∃ rest, since = .returned a n :: rest ∧ Idle c log b rest := by
  constructor
  · rintro ⟨k, past, whole, fits, kept⟩
    cases since with
    | nil =>
        cases whole
        exact Or.inl ⟨rfl, rfl, fits⟩
    | cons deal rest =>
        rw [List.cons_append, List.cons.injEq] at whole
        obtain ⟨rfl, rfl⟩ := whole
        exact Or.inr ⟨rest, rfl, k, past, rfl, fits, fun m member => kept m (List.mem_cons_of_mem _ member)⟩
  · rintro (⟨rfl, rfl, fits⟩ | ⟨rest, rfl, k, past, rfl, fits, kept⟩)
    · exact ⟨n, log, rfl, fits, fun m member => by cases member⟩
    · refine ⟨k, past, rfl, fits, fun m member => ?_⟩
      rcases List.mem_cons.mp member with same | later
      · cases same
      · exact kept m later

end Deals

/-- The idle blocks of a class, the one given back last in front. -/
def resting (c : SizeClass) : List Deal → List Addr
  | [] => []
  | .lent block _ :: past => (resting c past).erase block
  | .returned block bytes :: past =>
      if SizeClass.fit? bytes = some c then block :: resting c past else resting c past

/-- The row of idle blocks is what it is called. -/
structure Ranked (log : List Deal) : Prop where
  idle : ∀ c a, a ∈ resting c log ↔ ∃ since, Idle c log a since
  ordered : ∀ c, (resting c log).Pairwise fun a b => ∀ s t, Idle c log a s → Idle c log b t →
    s.length < t.length

namespace Ranked

variable {log : List Deal} {a : Addr} {n : Nat}

theorem empty : Ranked [] := by
  constructor
  · intro c a
    simp [resting, Idle]
  · exact fun c => List.Pairwise.nil

theorem lent (ranked : Ranked log) (once : ∀ c, (resting c log).Nodup) :
    Ranked (.lent a n :: log) := by
  constructor
  · intro c b
    rw [resting, (once c).mem_erase_iff, ranked.idle]
    constructor
    · rintro ⟨apart, since, idle⟩
      exact ⟨_, idle_lent.mpr ⟨since, rfl, apart, idle⟩⟩
    · rintro ⟨_, idle⟩
      obtain ⟨since, _, apart, old⟩ := idle_lent.mp idle
      exact ⟨apart, since, old⟩
  · intro c
    refine ((ranked.ordered c).sublist List.erase_sublist).imp fun earlier s t first second => ?_
    obtain ⟨s, rfl, _, younger⟩ := idle_lent.mp first
    obtain ⟨t, rfl, _, older⟩ := idle_lent.mp second
    exact Nat.succ_lt_succ (earlier s t younger older)

theorem returned (ranked : Ranked log) (absent : ∀ c, a ∉ resting c log) :
    Ranked (.returned a n :: log) := by
  -- For every other block there is one deal more since it came back.
  have before : ∀ {c b since}, Idle c (.returned a n :: log) b since → b ≠ a →
      ∃ rest, since = .returned a n :: rest ∧ Idle c log b rest := by
    intro c b since idle apart
    rcases idle_returned.mp idle with ⟨_, here, _⟩ | old
    · exact absurd here apart
    · exact old
  have shifted : ∀ c, (resting c log).Pairwise fun x y => ∀ s t,
      Idle c (.returned a n :: log) x s → Idle c (.returned a n :: log) y t →
        s.length < t.length := by
    intro c
    refine (ranked.ordered c).imp_of_mem fun isX isY earlier s t first second => ?_
    obtain ⟨s, rfl, younger⟩ := before first fun here => absent c (here ▸ isX)
    obtain ⟨t, rfl, older⟩ := before second fun here => absent c (here ▸ isY)
    exact Nat.succ_lt_succ (earlier s t younger older)
  constructor
  · intro c b
    have idle : (∃ since, Idle c (.returned a n :: log) b since) ↔
        b = a ∧ SizeClass.fit? n = some c ∨ b ∈ resting c log := by
      rw [ranked.idle]
      constructor
      · rintro ⟨since, idle⟩
        rcases idle_returned.mp idle with ⟨_, now⟩ | ⟨rest, _, old⟩
        · exact Or.inl now
        · exact Or.inr ⟨rest, old⟩
      · rintro (now | ⟨since, old⟩)
        · exact ⟨[], idle_returned.mpr (Or.inl ⟨rfl, now⟩)⟩
        · exact ⟨_, idle_returned.mpr (Or.inr ⟨since, rfl, old⟩)⟩
    rw [idle, resting]
    split
    · rename_i fits
      simp [fits]
    · rename_i other
      simp [other]
  · intro c
    rw [resting]
    split
    · rw [List.pairwise_cons]
      refine ⟨fun b member s t first second => ?_, shifted c⟩
      obtain ⟨t, rfl, _⟩ := before second fun here => absent c (here ▸ member)
      rcases idle_returned.mp first with ⟨rfl, _⟩ | ⟨s, _, old⟩
      · exact Nat.succ_pos _
      · exact absurd ((ranked.idle c a).mpr ⟨s, old⟩) (absent c)
    · exact shifted c

end Ranked

end Pool

open Pool (Deal Idle outstanding resting Ranked)

structure Lender where
  pool : Pool := {}
  log : List Deal := []
  deriving Inhabited

/-- What may be asked of a pool. The system has its own say: from how many bytes on it refuses. It may
change its mind between any two requests, and a batch is its entries in turn, so a batch in which some
entries fail is a row of requests with changes of mind in between. -/
inductive Demand where
  | alloc (bytes : Nat)
  | free (block : Addr) (bytes : Nat)
  | allocBatch (sizes : List Nat)
  | freeBatch (blocks : List (Option Addr)) (sizes : List Nat)
  | memory (limit : Nat)

namespace Lender

def out (l : Lender) : List (Addr × Nat) := outstanding l.log

def paired (blocks : List (Option Addr)) (sizes : List Nat) : List (Addr × Nat) :=
  (blocks.zip sizes).filterMap fun entry => entry.1.map (·, entry.2)

def serve (l : Lender) : Demand → Lender
  | .alloc bytes =>
      match l.pool.alloc bytes with
      | .ok (block, pool) => { pool, log := .lent block bytes :: l.log }
      | .error _ => l
  | .free block bytes =>
      { pool := l.pool.free block bytes, log := .returned block bytes :: l.log }
  | .allocBatch sizes =>
      let (blocks, pool) := l.pool.allocBatch sizes
      { pool, log := ((paired blocks sizes).map fun e => .lent e.1 e.2).reverse ++ l.log }
  | .freeBatch blocks sizes =>
      { pool := (l.pool.freeBatch blocks sizes).2
        log := ((paired blocks sizes).map fun e => .returned e.1 e.2).reverse ++ l.log }
  | .memory limit => { l with pool := { l.pool with system := { l.pool.system with limit } } }

/-- Only what is out may be given back, with the size it was asked with. -/
def May (l : Lender) : Demand → Prop
  | .free block bytes => (block, bytes) ∈ l.out
  | .freeBatch blocks sizes => (paired blocks sizes).Subperm l.out
  | _ => True

inductive Run : Lender → Prop where
  | start : Run {}
  | serve {l : Lender} (demand : Demand) (run : Run l) (may : l.May demand) : Run (l.serve demand)

instance (l : Lender) : (demand : Demand) → Decidable (l.May demand)
  | .free block bytes => inferInstanceAs (Decidable ((block, bytes) ∈ l.out))
  | .freeBatch blocks sizes => inferInstanceAs (Decidable ((paired blocks sizes).Subperm l.out))
  | .alloc _ | .allocBatch _ | .memory _ => inferInstanceAs (Decidable True)

def Serves (l : Lender) : List Demand → Prop
  | [] => True
  | demand :: rest => l.May demand ∧ (l.serve demand).Serves rest

instance decidableServes (l : Lender) : (demands : List Demand) → Decidable (l.Serves demands)
  | [] => inferInstanceAs (Decidable True)
  | demand :: rest =>
      let _ := decidableServes (l.serve demand) rest
      inferInstanceAs (Decidable (_ ∧ _))

theorem Run.serves {l : Lender} (run : Run l) (demands : List Demand) (serves : l.Serves demands) :
    Run (demands.foldl Lender.serve l) := by
  induction demands generalizing l with
  | nil => exact run
  | cons demand rest ih => exact ih (run.serve demand serves.1) serves.2

/-! Batches are their entries in turn -/

theorem serve_allocBatch (l : Lender) (sizes : List Nat) :
    l.serve (.allocBatch sizes) = sizes.foldl (fun l bytes => l.serve (.alloc bytes)) l := by
  induction sizes generalizing l with
  | nil => simp [serve, Pool.allocBatch, paired]
  | cons bytes rest ih =>
      rw [List.foldl_cons, ← ih]
      simp only [serve, Pool.allocBatch]
      cases l.pool.alloc bytes with
      | ok made => simp [paired]
      | error fault => simp [paired]

theorem serve_freeBatch (l : Lender) (blocks : List (Option Addr)) (sizes : List Nat) :
    l.serve (.freeBatch blocks sizes) =
      (paired blocks sizes).foldl (fun l e => l.serve (.free e.1 e.2)) l := by
  induction blocks generalizing l sizes with
  | nil => simp [serve, Pool.freeBatch, paired]
  | cons block rest ih =>
      cases sizes with
      | nil => cases block <;> simp [serve, Pool.freeBatch, paired]
      | cons bytes sizes =>
          cases block with
          | none =>
              have served := ih l sizes
              simpa [serve, Pool.freeBatch, paired] using served
          | some a =>
              have served := ih (l.serve (.free a bytes)) sizes
              simpa [serve, Pool.freeBatch, paired] using served

/-- What single requests, blocks that come back and changes of mind keep, every demand keeps. -/
theorem demand_keeps (keeps : Lender → Prop)
    (alloc : ∀ {l bytes a pool}, keeps l → l.pool.alloc bytes = .ok (a, pool) →
      keeps { pool, log := .lent a bytes :: l.log })
    (free : ∀ {l : Lender} {a n}, keeps l → (a, n) ∈ l.out →
      keeps { pool := l.pool.free a n, log := .returned a n :: l.log })
    (memory : ∀ {l : Lender} (limit : Nat), keeps l → keeps (l.serve (.memory limit)))
    {l : Lender} (kept : keeps l) (demand : Demand) (may : l.May demand) : keeps (l.serve demand) := by
  have one : ∀ {l : Lender}, keeps l → ∀ bytes, keeps (l.serve (.alloc bytes)) := by
    intro l kept bytes
    simp only [serve]
    split
    · rename_i done
      exact alloc kept done
    · exact kept
  cases demand with
  | alloc bytes => exact one kept bytes
  | free a n => exact free kept may
  | memory limit => exact memory limit kept
  | allocBatch sizes =>
      rw [serve_allocBatch]
      clear may
      induction sizes generalizing l with
      | nil => exact kept
      | cons bytes rest ih => exact ih (one kept bytes)
  | freeBatch blocks sizes =>
      rw [serve_freeBatch]
      replace may : (paired blocks sizes).Subperm l.out := may
      generalize paired blocks sizes = entries at may ⊢
      induction entries generalizing l with
      | nil => exact kept
      | cons entry rest ih =>
          refine ih (free kept (may.subset List.mem_cons_self)) ?_
          have less := may.erase entry
          rwa [List.erase_cons_head] at less

/-! Every block in its place -/

/-- What holds of a pool after every demand. -/
structure Kept (l : Lender) : Prop where
  stocked : l.pool.Stocked (fun a => ∃ n, (a, n) ∈ l.out) fun c => resting c l.log
  single : (l.out.map Prod.fst).Nodup
  homes : ∀ c, ∀ a ∈ resting c l.log, (l.pool.carved[a]?).map Carving.sizeClass = some c
  asked : ∀ a n, (a, n) ∈ l.out → (l.pool.carved[a]?).map Carving.sizeClass = SizeClass.fit? n
  whole : ∀ a ∈ l.pool.carved, (∃ n, (a, n) ∈ l.out) ∨ ∃ c, a ∈ resting c l.log
  ranked : Ranked l.log

namespace Kept

variable {l : Lender} {q : Pool} {a : Addr} {n : Nat}

theorem start : Kept {} := by
  refine ⟨?_, List.nodup_nil, fun c a member => ?_, fun a n member => ?_, fun a member => ?_, .empty⟩
  · exact Pool.stocked_empty.transfer (fun _ => rfl) rfl (Nat.le_refl _) fun a out => by
      obtain ⟨n, member⟩ := out
      cases member
  · cases member
  · cases member
  · exact absurd member Std.TreeMap.not_mem_emptyc

theorem freeList (kept : l.Kept) (c : SizeClass) : l.pool.freeList c = resting c l.log := by
  apply Pool.chain_threaded _ _ _ (kept.stocked.threaded c)
  rw [← Std.TreeMap.length_keys]
  apply List.Subperm.length_le
  apply List.subperm_of_subset (kept.stocked.once c)
  intro a member
  obtain ⟨made, there, _⟩ := Option.map_eq_some_iff.mp (kept.homes c a member)
  rw [Std.TreeMap.mem_keys, ← Std.TreeMap.isSome_getElem?_iff_mem, there]
  rfl

theorem fresh (kept : l.Kept) : l.pool.carved[l.pool.system.next]? = none := by
  apply Std.TreeMap.getElem?_eq_none
  intro member
  exact Nat.lt_irrefl _ (kept.stocked.handed _ (kept.whole _ member))

theorem lent (kept : l.Kept) (new : ¬ ∃ k, (a, k) ∈ l.out)
    (stocked : q.Stocked (fun b => b = a ∨ ∃ k, (b, k) ∈ l.out) fun c => (resting c l.log).erase a)
    (carved : ∀ b, b ≠ a → q.carved[b]? = l.pool.carved[b]?)
    (home : (q.carved[a]?).map Carving.sizeClass = SizeClass.fit? n) :
    Kept { pool := q, log := .lent a n :: l.log } := by
  have out : ∀ b k, (b, k) ∈ outstanding (.lent a n :: l.log) → b = a ∧ k = n ∨ (b, k) ∈ l.out := by
    intro b k member
    simpa [outstanding, out] using member
  constructor
  · exact stocked.transfer (fun _ => rfl) rfl (Nat.le_refl _) fun b ⟨k, member⟩ =>
      (out b k member).imp And.left fun old => ⟨k, old⟩
  · refine List.nodup_cons.mpr ⟨fun member => ?_, kept.single⟩
    obtain ⟨⟨b, k⟩, old, rfl⟩ := List.mem_map.mp member
    exact new ⟨k, old⟩
  · intro c b member
    obtain ⟨apart, old⟩ := (kept.stocked.once c).mem_erase_iff.mp member
    rw [carved b apart]
    exact kept.homes c b old
  · intro b k member
    rcases out b k member with ⟨rfl, rfl⟩ | old
    · exact home
    · have apart : b ≠ a := by
        rintro rfl
        exact new ⟨k, old⟩
      rw [carved b apart]
      exact kept.asked b k old
  · intro b member
    by_cases here : b = a
    · exact Or.inl ⟨n, by simp [Lender.out, outstanding, here]⟩
    · rw [← Std.TreeMap.isSome_getElem?_iff_mem, carved b here,
        Std.TreeMap.isSome_getElem?_iff_mem] at member
      rcases kept.whole b member with ⟨k, old⟩ | ⟨c, old⟩
      · exact Or.inl ⟨k, List.mem_cons_of_mem _ old⟩
      · exact Or.inr ⟨c, (List.mem_erase_of_ne here).mpr old⟩
  · exact kept.ranked.lent kept.stocked.once

theorem alloc (kept : l.Kept) (bytes : Nat) (done : l.pool.alloc bytes = .ok (a, q)) :
    Kept { pool := q, log := .lent a bytes :: l.log } := by
  -- A new block lies on no list.
  have unlisted : (fun c => (resting c l.log).erase l.pool.system.next) =
      fun c => resting c l.log := by
    funext c
    apply List.erase_of_not_mem
    intro member
    exact Nat.lt_irrefl _ (kept.stocked.handed _ (Or.inr ⟨c, member⟩))
  cases Pool.alloc_served bytes a done with
  | large _ big granted shelves links carved next =>
      have heads : ∀ c, (q.shelf c).head = (l.pool.shelf c).head := fun c => by
        rw [Pool.shelf, shelves, Pool.shelf]
      obtain ⟨new, stocked⟩ := kept.stocked.fresh heads links next
      refine kept.lent new (unlisted ▸ stocked) (fun b _ => by rw [carved]) ?_
      rw [carved, kept.fresh, big]
      rfl
  | carved c _ fits dry granted heads links carved next =>
      obtain ⟨new, stocked⟩ := kept.stocked.fresh heads links next
      refine kept.lent new (unlisted ▸ stocked) (fun b apart => ?_) ?_
      · simp [carved, Std.TreeMap.getElem?_insert, Ne.symm apart]
      · simp [carved, fits]
  | reused c _ _ fits first heads links carved system =>
      obtain ⟨rest, stack⟩ := kept.stocked.stack first
      have member : a ∈ resting c l.log := stack ▸ List.mem_cons_self
      obtain ⟨new, stocked⟩ := kept.stocked.popped stack heads links (Nat.le_of_eq (by rw [system]))
      have gone : Function.update (fun c => resting c l.log) c rest =
          fun d => (resting d l.log).erase a := by
        funext d
        by_cases here : d = c
        · subst here
          rw [Function.update_self, stack, List.erase_cons_head]
        · rw [Function.update_of_ne here, List.erase_of_not_mem]
          exact fun listed => here (kept.stocked.apart d c a listed member)
      refine kept.lent new (gone ▸ stocked) (fun b _ => by rw [carved]) ?_
      rw [carved, fits]
      exact kept.homes c a member

theorem free (kept : l.Kept) (owed : (a, n) ∈ l.out) :
    Kept { pool := l.pool.free a n, log := .returned a n :: l.log } := by
  have used : ∃ k, (a, k) ∈ l.out := ⟨n, owed⟩
  have absent : ∀ c, a ∉ resting c l.log := fun c member => kept.stocked.idle c a member used
  have once : l.out.Nodup := .of_map _ kept.single
  -- A block is out with one size, so giving it back leaves nothing of it outside.
  have same : ∀ k, (a, k) ∈ l.out → k = n := fun k member =>
    congrArg Prod.snd (List.inj_on_of_nodup_map kept.single member owed rfl)
  have out : ∀ b k, (b, k) ∈ outstanding (.returned a n :: l.log) ↔ b ≠ a ∧ (b, k) ∈ l.out := by
    intro b k
    rw [outstanding, show outstanding l.log = l.out from rfl, once.mem_erase_iff]
    refine and_congr_left fun member => not_congr ⟨fun here => congrArg Prod.fst here, ?_⟩
    rintro rfl
    rw [same k member]
  have carved : (l.pool.free a n).carved = l.pool.carved := by
    unfold Pool.free
    split <;> rfl
  constructor
  · have fewer : ∀ b, (∃ k, (b, k) ∈ outstanding (.returned a n :: l.log)) →
        b ≠ a ∧ ∃ k, (b, k) ∈ l.out := fun b ⟨k, member⟩ =>
      ⟨((out b k).mp member).1, k, ((out b k).mp member).2⟩
    exact (kept.stocked.freed n a used).transfer (fun _ => rfl) rfl (Nat.le_refl _) fewer
  · exact (List.erase_sublist.map Prod.fst).nodup kept.single
  · intro c b member
    rw [carved]
    rw [resting] at member
    split at member
    · rename_i fits
      rcases List.mem_cons.mp member with rfl | old
      · rw [kept.asked b n owed, fits]
      · exact kept.homes c b old
    · exact kept.homes c b member
  · intro b k member
    rw [carved]
    exact kept.asked b k ((out b k).mp member).2
  · intro b member
    rw [carved] at member
    rcases kept.whole b member with ⟨k, old⟩ | ⟨c, old⟩
    · by_cases here : b = a
      · subst here
        have home := kept.asked b n owed
        obtain ⟨made, there⟩ := Option.isSome_iff_exists.mp
          (Std.TreeMap.isSome_getElem?_iff_mem.mpr member)
        rw [there, Option.map_some] at home
        exact Or.inr ⟨made.sizeClass, by simp [resting, ← home]⟩
      · exact Or.inl ⟨k, (out b k).mpr ⟨here, old⟩⟩
    · refine Or.inr ⟨c, ?_⟩
      rw [resting]
      split
      · exact List.mem_cons_of_mem _ old
      · exact old
  · exact kept.ranked.returned absent

theorem transfer (kept : l.Kept) (heads : ∀ c, (q.shelf c).head = (l.pool.shelf c).head)
    (links : q.links = l.pool.links) (carved : q.carved = l.pool.carved)
    (next : l.pool.system.next ≤ q.system.next) : Kept { pool := q, log := l.log } := by
  refine ⟨kept.stocked.transfer heads links next fun _ => id, kept.single, ?_, ?_, ?_, kept.ranked⟩
  · rw [carved]
    exact kept.homes
  · rw [carved]
    exact kept.asked
  · rw [carved]
    exact kept.whole

theorem demand (kept : l.Kept) (demand : Demand) (may : l.May demand) : (l.serve demand).Kept :=
  demand_keeps Kept (fun kept done => kept.alloc _ done) (fun kept owed => kept.free owed)
    (fun _ kept => kept.transfer (fun _ => rfl) rfl rfl (Nat.le_refl _)) kept demand may

/-- A block of the class is at the head exactly when one is idle. -/
theorem head_idle (kept : l.Kept) (c : SizeClass) {since : List Deal} (idle : Idle c l.log a since) :
    ∃ b rest, (l.pool.shelf c).head = some b ∧ resting c l.log = b :: rest := by
  have member := (kept.ranked.idle c a).mpr ⟨since, idle⟩
  have threaded := kept.stocked.threaded c
  cases stack : resting c l.log with
  | nil =>
      rw [stack] at member
      cases member
  | cons b rest =>
      rw [stack] at threaded
      exact ⟨b, rest, threaded.1, rfl⟩

theorem one_place (kept : l.Kept) {made : Carving} (there : l.pool.carved[a]? = some made) :
    ∑ c, (l.pool.freeList c).count a + (l.out.map Prod.fst).count a = 1 := by
  have member : a ∈ l.pool.carved := by
    rw [← Std.TreeMap.isSome_getElem?_iff_mem, there]
    rfl
  simp only [kept.freeList]
  rcases kept.whole a member with used | ⟨c, rests⟩
  · have unlisted : ∀ c, (resting c l.log).count a = 0 := fun c =>
      List.count_eq_zero.mpr fun listed => kept.stocked.idle c a listed used
    obtain ⟨n, out⟩ := used
    rw [Finset.sum_eq_zero fun c _ => unlisted c, Nat.zero_add]
    exact List.count_eq_one_of_mem kept.single (List.mem_map_of_mem out)
  · have notOut : (l.out.map Prod.fst).count a = 0 := by
      rw [List.count_eq_zero]
      intro listed
      obtain ⟨⟨b, n⟩, out, rfl⟩ := List.mem_map.mp listed
      exact kept.stocked.idle c b rests ⟨n, out⟩
    have others : ∀ d ∈ Finset.univ, d ≠ c → (resting d l.log).count a = 0 := fun d _ apart =>
      List.count_eq_zero.mpr fun listed => apart (kept.stocked.apart d c a listed rests)
    rw [Finset.sum_eq_single c others (fun absent => absurd (Finset.mem_univ c) absent), notOut,
      Nat.add_zero]
    exact List.count_eq_one_of_mem (kept.stocked.once c) rests

/-- A class with an idle block hands out the one given back last, whatever the system would grant. -/
theorem reuses (kept : l.Kept) {c : SizeClass} (fits : SizeClass.fit? n = some c) {b : Addr}
    {before : List Deal} (idle : Idle c l.log b before) :
    ∃ a since pool, l.pool.alloc n = .ok (a, pool) ∧ Idle c l.log a since ∧
      (l.pool.carved[a]?).map Carving.sizeClass = some c ∧
      (∀ b after, b ≠ a → Idle c l.log b after → since.length < after.length) ∧
      pool.carved = l.pool.carved := by
  obtain ⟨head, rest, first, stack⟩ := kept.head_idle c idle
  cases result : l.pool.alloc n with
  | error fault =>
      rcases Pool.alloc_refused n fault result with ⟨big, _⟩ | ⟨d, fits', dry, _⟩
      · rw [big] at fits
        cases fits
      · rw [fits, Option.some.injEq] at fits'
        rw [← fits', first] at dry
        cases dry
  | ok answer =>
      obtain ⟨a, pool⟩ := answer
      cases Pool.alloc_served n a result with
      | large _ big =>
          rw [big] at fits
          cases fits
      | carved d _ fits' dry =>
          rw [fits, Option.some.injEq] at fits'
          rw [← fits', first] at dry
          cases dry
      | reused d _ _ fits' first' heads links carved =>
          rw [fits, Option.some.injEq] at fits'
          rw [← fits', first, Option.some.injEq] at first'
          subst first'
          have member : head ∈ resting c l.log := stack ▸ List.mem_cons_self
          obtain ⟨since, rests⟩ := (kept.ranked.idle c head).mp member
          refine ⟨head, since, pool, rfl, rests, kept.homes c head member, fun b after apart older => ?_,
            carved⟩
          have ordered := kept.ranked.ordered c
          have behind := (kept.ranked.idle c b).mpr ⟨after, older⟩
          rw [stack] at ordered behind
          have inRest := (List.mem_cons.mp behind).resolve_left apart
          exact (List.pairwise_cons.mp ordered).1 b inRest since after rests older

theorem carves (kept : l.Kept) {c : SizeClass} (fits : SizeClass.fit? n = some c)
    (dry : ∀ a since, ¬ Idle c l.log a since) :
    if l.pool.system.grants (Pool.linkBytes + SizeClass.bytes c) then
      ∃ a pool, l.pool.alloc n = .ok (a, pool) ∧ l.pool.carved[a]? = none ∧
        pool.carved = l.pool.carved.insert a ⟨l.pool.carved.size, c⟩
    else l.pool.alloc n = .error (.outOfMemory (Pool.linkBytes + SizeClass.bytes c)) := by
  -- A block at the head would be an idle one.
  have empty : ∀ b, (l.pool.shelf c).head ≠ some b := by
    intro b first
    obtain ⟨rest, stack⟩ := kept.stocked.stack first
    obtain ⟨since, idle⟩ := (kept.ranked.idle c b).mp (stack ▸ List.mem_cons_self)
    exact dry b since idle
  cases result : l.pool.alloc n with
  | error fault =>
      rcases Pool.alloc_refused n fault result with ⟨big, _⟩ | ⟨d, fits', _, refused, reason⟩
      · rw [big] at fits
        cases fits
      · rw [fits, Option.some.injEq] at fits'
        rw [← fits'] at refused reason
        rw [if_neg refused, reason]
  | ok answer =>
      obtain ⟨a, pool⟩ := answer
      cases Pool.alloc_served n a result with
      | large _ big =>
          rw [big] at fits
          cases fits
      | carved d _ fits' _ granted heads links carved =>
          rw [fits, Option.some.injEq] at fits'
          rw [← fits'] at granted carved
          rw [if_pos granted]
          exact ⟨_, pool, rfl, kept.fresh, carved⟩
      | reused d _ _ fits' first =>
          rw [fits, Option.some.injEq] at fits'
          exact absurd (fits' ▸ first) (empty a)

theorem passes (kept : l.Kept) (big : SizeClass.fit? n = none) :
    if l.pool.system.grants n then
      ∃ a pool, l.pool.alloc n = .ok (a, pool) ∧ l.pool.carved[a]? = none ∧
        pool.carved = l.pool.carved ∧ ∀ c, pool.freeList c = l.pool.freeList c
    else l.pool.alloc n = .error (.outOfMemory n) := by
  cases result : l.pool.alloc n with
  | error fault =>
      rcases Pool.alloc_refused n fault result with ⟨_, refused, reason⟩ | ⟨d, fits, _⟩
      · rw [if_neg refused, reason]
      · rw [big] at fits
        cases fits
  | ok answer =>
      obtain ⟨a, pool⟩ := answer
      cases Pool.alloc_served n a result with
      | large _ _ granted shelves links carved =>
          rw [if_pos granted]
          exact ⟨_, pool, rfl, kept.fresh, carved, Pool.freeList_congr shelves links carved⟩
      | carved d _ fits | reused d _ _ fits =>
          rw [big] at fits
          cases fits

end Kept

theorem Run.kept {l : Lender} (run : Run l) : l.Kept := by
  induction run with
  | start => exact .start
  | serve demand run may ih => exact ih.demand demand may

/-- How a request is served that has a class. -/
structure Fitted (l : Lender) (n : Nat) (c : SizeClass) : Prop where
  holds : n ≤ SizeClass.bytes c
  least : ∀ d < c, SizeClass.bytes d < n
  reuses : (∃ a since, Idle c l.log a since) → ∃ a since pool, l.pool.alloc n = .ok (a, pool) ∧
    Idle c l.log a since ∧ (l.pool.carved[a]?).map Carving.sizeClass = some c ∧
    (∀ b after, b ≠ a → Idle c l.log b after → since.length < after.length) ∧
    pool.carved = l.pool.carved
  carves : (∀ a since, ¬ Idle c l.log a since) →
    if l.pool.system.grants (Pool.linkBytes + SizeClass.bytes c) then
      ∃ a pool, l.pool.alloc n = .ok (a, pool) ∧ l.pool.carved[a]? = none ∧
        pool.carved = l.pool.carved.insert a ⟨l.pool.carved.size, c⟩
    else l.pool.alloc n = .error (.outOfMemory (Pool.linkBytes + SizeClass.bytes c))

/-- Where the blocks of a pool are, and how it serves the next demand. -/
structure Housed (l : Lender) : Prop where
  place : ∀ (a : Addr) (made : Carving), l.pool.carved[a]? = some made →
    ∑ c, (l.pool.freeList c).count a + (l.out.map Prod.fst).count a = 1
  shelved : ∀ (a : Addr) (made : Carving), l.pool.carved[a]? = some made →
    ∀ c, a ∈ l.pool.freeList c → c = made.sizeClass
  lent : ∀ (a : Addr) (made : Carving), l.pool.carved[a]? = some made →
    ∀ n, (a, n) ∈ l.out → SizeClass.fit? n = some made.sizeClass
  small : ∀ n ≤ SizeClass.largest, ∃ c, l.Fitted n c
  large : ∀ n, SizeClass.largest < n →
    if l.pool.system.grants n then
      ∃ a pool, l.pool.alloc n = .ok (a, pool) ∧ l.pool.carved[a]? = none ∧
        pool.carved = l.pool.carved ∧ ∀ c, pool.freeList c = l.pool.freeList c
    else l.pool.alloc n = .error (.outOfMemory n)
  freed : ∀ n, SizeClass.largest < n → ∀ a c, (l.pool.free a n).freeList c = l.pool.freeList c
  refused : ∀ n fault, l.pool.alloc n = .error fault → l.serve (.alloc n) = l
  batch : ∀ sizes, l.serve (.allocBatch sizes) = sizes.foldl (fun l n => l.serve (.alloc n)) l
  batchFreed : ∀ blocks sizes, l.serve (.freeBatch blocks sizes) =
    (paired blocks sizes).foldl (fun l e => l.serve (.free e.1 e.2)) l

theorem Kept.fitted {l : Lender} (kept : l.Kept) {n : Nat} (small : n ≤ SizeClass.largest) :
    ∃ c, l.Fitted n c := by
  cases fits : SizeClass.fit? n with
  | none => exact absurd small (Nat.not_le.mpr ((SizeClass.fit?_eq_none_iff n).mp fits))
  | some c =>
      obtain ⟨holds, least⟩ := (SizeClass.fit?_eq_some_iff n c).mp fits
      exact ⟨c, holds, least, fun ⟨_, _, idle⟩ => kept.reuses fits idle, kept.carves fits⟩

/-- Every block that was carved is on one free list, once, and then on that of its class, or out with
one who asked for a size of its class. A request that has a class is served with the block of that
class that was given back last and not handed out since, and with a new one only if there is none;
other requests leave the lists alone. A request that is refused changes nothing, and a batch is its
entries in turn, each of which may be refused. -/
theorem block_in_one_place (l : Lender) (run : Run l) : l.Housed := by
  have kept := run.kept
  refine ⟨fun a made there => kept.one_place there, fun a made there c member => ?_,
    fun a made there n out => ?_, fun n small => kept.fitted small, fun n big => ?_,
    fun n big a c => ?_, fun n fault refused => ?_, l.serve_allocBatch, l.serve_freeBatch⟩
  · rw [kept.freeList] at member
    have home := kept.homes c a member
    rw [there, Option.map_some, Option.some.injEq] at home
    exact home.symm
  · rw [← kept.asked a n out, there, Option.map_some]
  · exact kept.passes ((SizeClass.fit?_eq_none_iff n).mpr big)
  · have fits := (SizeClass.fit?_eq_none_iff n).mpr big
    apply Pool.freeList_congr <;> simp only [Pool.free, fits]
  · simp only [serve, refused]

/-- Two blocks of a class and a large one are handed out. The first two come back, in turn, and from
then on the system refuses everything. -/
def reuseDemands : List Demand :=
  [.allocBatch [100, 100], .alloc 5000, .free 0x6b7000000000 100,
    .freeBatch [none, some 0x6b70000000a0] [8, 100], .memory 0]

theorem block_in_one_place_reuse :
    let l := reuseDemands.foldl serve {}
    ({} : Lender).Serves reuseDemands ∧ l.pool.freeList 7 = [0x6b70000000a0, 0x6b7000000000] ∧
      ∑ c, (l.pool.freeList c).count 0x6b7000000000 +
        (l.out.map Prod.fst).count 0x6b7000000000 = 1 ∧
      (∃ pool, l.pool.alloc 97 = .ok (0x6b70000000a0, pool) ∧ pool.carved = l.pool.carved) ∧
      l.pool.alloc 200 = .error (.outOfMemory 272) ∧ l.serve (.alloc 200) = l := by
  intro l
  have serves : ({} : Lender).Serves reuseDemands := by decide +kernel
  have housed : l.Housed := block_in_one_place l (Run.start.serves _ serves)
  have placed := housed.place 0x6b7000000000 ⟨0, 7⟩ (by decide +kernel)
  obtain ⟨c, stocked⟩ := housed.small 97 (by decide +kernel)
  obtain ⟨d, bare⟩ := housed.small 200 (by decide +kernel)
  have fits := (SizeClass.fit?_eq_some_iff 97 c).mpr ⟨stocked.holds, stocked.least⟩
  have fits' := (SizeClass.fit?_eq_some_iff 200 d).mpr ⟨bare.holds, bare.least⟩
  obtain rfl : (7 : SizeClass) = c := Option.some.inj ((by decide +kernel : _ = _).symm.trans fits)
  obtain rfl : (9 : SizeClass) = d := Option.some.inj ((by decide +kernel : _ = _).symm.trans fits')
  have idle : Idle 7 l.log 0x6b70000000a0 [] :=
    ⟨100, l.log.tail, by decide +kernel, by decide +kernel, fun _ member => by cases member⟩
  obtain ⟨a, since, pool, done, rests, _, latest, carved⟩ := stocked.reuses ⟨_, _, idle⟩
  -- Nothing was given back after the second block, so no other block can be in front of it.
  have here : a = 0x6b70000000a0 := by
    by_contra apart
    exact Nat.not_lt_zero _ (latest _ [] (Ne.symm apart) idle)
  have dry : resting 9 l.log = [] := by decide +kernel
  have denied := bare.carves fun b since idle => List.not_mem_nil
    (dry ▸ ((Run.start.serves _ serves).kept.ranked.idle 9 b).mpr ⟨since, idle⟩)
  have full : ¬ l.pool.system.grants (Pool.linkBytes + SizeClass.bytes 9) = true := by decide +kernel
  rw [if_neg full] at denied
  exact ⟨serves, by decide +kernel, placed, ⟨pool, here ▸ done, carved⟩, denied,
    housed.refused 200 _ denied⟩

end Lender

end CountedHeap
