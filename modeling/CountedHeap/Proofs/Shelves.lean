import CountedHeap.Pool.Stats
import CountedHeap.Proofs.Lending

/-!
The counters of a pool. Each class counts its blocks and those of them that are free; what is left is
out with those who asked for it. Which blocks these are is kept as a list, so that several may share a
pool and each know his own.
-/

namespace CountedHeap

open Pool (Deal outstanding resting)

namespace Pool

def ofClass (c : SizeClass) (blocks : List (Addr × Nat)) : Nat :=
  blocks.countP fun e => SizeClass.fit? e.2 == some c

def pooled (blocks : List (Addr × Nat)) : Nat := blocks.countP fun e => (SizeClass.fit? e.2).isSome

theorem ofClass_cons (c : SizeClass) (a : Addr) (n : Nat) (blocks : List (Addr × Nat)) :
    ofClass c ((a, n) :: blocks) =
      ofClass c blocks + if SizeClass.fit? n = some c then 1 else 0 := by
  simp [ofClass, List.countP_cons]

theorem sum_ofClass (blocks : List (Addr × Nat)) : ∑ c, ofClass c blocks = pooled blocks := by
  induction blocks with
  | nil => simp [ofClass, pooled]
  | cons e rest ih =>
      obtain ⟨a, n⟩ := e
      simp only [ofClass_cons, Finset.sum_add_distrib, ih]
      cases fits : SizeClass.fit? n with
      | none => simp [pooled, fits]
      | some c => simp [pooled, fits]

theorem pooled_append (blocks more : List (Addr × Nat)) :
    pooled (blocks ++ more) = pooled blocks + pooled more := List.countP_append

theorem total_eq_sum (p : Pool) (count : Shelf → Nat) : p.total count = ∑ c, count (p.shelf c) := by
  have row : p.shelves.toList = List.ofFn p.shelf := by
    apply List.ext_getElem
    · simp
    · intro i inside _
      rw [List.getElem_ofFn]
      rfl
  have added : ∀ (shelves : List Shelf) (n : Nat),
      shelves.foldl (fun n s => n + count s) n = n + (shelves.map count).sum := by
    intro shelves
    induction shelves with
    | nil => simp
    | cons s rest ih =>
        intro n
        rw [List.foldl_cons, ih, List.map_cons, List.sum_cons, Nat.add_assoc]
  rw [total, added, row, Nat.zero_add, List.map_ofFn, List.sum_ofFn]
  rfl

variable {p q r : Pool} {a : Addr} {n : Nat}

/-- A request moves the counters of its class only: a new block counts as one more, and one that was
free is no longer. -/
theorem alloc_counters (done : p.alloc n = .ok (a, q)) (c : SizeClass) :
    (q.shelf c).totalBlocks = (p.shelf c).totalBlocks +
        (if SizeClass.fit? n = some c ∧ (p.shelf c).head = none then 1 else 0) ∧
      (q.shelf c).freeBlocks = (p.shelf c).freeBlocks -
        if SizeClass.fit? n = some c ∧ (p.shelf c).head ≠ none then 1 else 0 := by
  rcases alloc_cases done with ⟨big, _, _, rfl⟩ | ⟨d, fits, ⟨dry, _, _, rfl⟩ | ⟨first, rfl⟩⟩
  · simp [big, shelf, grow]
  · rw [shelf_setShelf]
    by_cases here : d = c
    · subst here
      simp [fits, dry]
    · simp [fits, here, shelf, grow]
  · rw [shelf_setShelf]
    by_cases here : d = c
    · subst here
      simp [fits, first]
    · simp [fits, here]

theorem free_counters (p : Pool) (a : Addr) (n : Nat) (c : SizeClass) :
    ((p.free a n).shelf c).totalBlocks = (p.shelf c).totalBlocks ∧
      ((p.free a n).shelf c).freeBlocks = (p.shelf c).freeBlocks +
        if SizeClass.fit? n = some c then 1 else 0 := by
  unfold free
  split
  · rename_i big
    simp [big, shelf]
  · rename_i d fits
    rw [shelf_setShelf]
    by_cases here : d = c
    · subst here
      simp [fits, shelf]
    · simp [fits, here, shelf]

/-! What was carved stays carved -/

/-- A later state of a pool: below the address that was handed out next nothing was carved since. -/
structure Later (p q : Pool) : Prop where
  next : p.system.next ≤ q.system.next
  carved : ∀ a < p.system.next, q.carved[a]? = p.carved[a]?

namespace Later

theorem refl (p : Pool) : Later p p := ⟨Nat.le_refl _, fun _ _ => rfl⟩

theorem trans (first : Later p q) (second : Later q r) : Later p r :=
  ⟨Nat.le_trans first.next second.next, fun a old =>
    (second.carved a (Nat.lt_of_lt_of_le old first.next)).trans (first.carved a old)⟩

theorem of_carved (next : p.system.next ≤ q.system.next) (carved : q.carved = p.carved) : Later p q :=
  ⟨next, fun _ _ => by rw [carved]⟩

theorem alloc (done : p.alloc n = .ok (a, q)) : Later p q := by
  cases alloc_served n a done with
  | large _ big granted shelves links carved next => exact .of_carved (Nat.le_of_lt next) carved
  | carved c _ fits dry granted heads links carved next =>
      refine ⟨Nat.le_of_lt next, fun b old => ?_⟩
      rw [carved, Std.TreeMap.getElem?_insert, if_neg]
      simpa using Nat.ne_of_gt old
  | reused c _ _ fits first heads links carved system =>
      exact .of_carved (by rw [system]) carved

theorem free (p : Pool) (a : Addr) (n : Nat) : Later p (p.free a n) := by
  unfold Pool.free
  split <;> exact .of_carved (Nat.le_refl _) rfl

theorem owns (later : Later p q) (owned : q.owns a = true) : p.owns a = true ∨ p.system.next ≤ a := by
  by_cases old : a < p.system.next
  · refine Or.inl ?_
    have same := later.carved a old
    simp only [Pool.owns, ← Std.TreeMap.isSome_getElem?_eq_contains] at owned ⊢
    rwa [← same]
  · exact Or.inr (Nat.le_of_not_lt old)

end Later

end Pool

namespace Lender

/-- The counters of each class, against the deals. -/
structure Counted (l : Lender) : Prop where
  free : ∀ c, (l.pool.shelf c).freeBlocks = (resting c l.log).length
  total : ∀ c, (l.pool.shelf c).totalBlocks = (resting c l.log).length + Pool.ofClass c l.out

variable {l : Lender} {q : Pool} {a : Addr} {n : Nat}

theorem counted_start : Counted {} := by
  constructor
  · intro c
    simp [Pool.shelf, resting]
  · intro c
    simp [Pool.shelf, resting, out, outstanding, Pool.ofClass]

theorem Kept.alloc_resting (kept : l.Kept) (done : l.pool.alloc n = .ok (a, q)) (c : SizeClass) :
    a ∈ resting c l.log ↔ SizeClass.fit? n = some c ∧ (l.pool.shelf c).head ≠ none := by
  have unlisted : l.pool.system.next ∉ resting c l.log := fun member =>
    Nat.lt_irrefl _ (kept.stocked.handed _ (Or.inr ⟨c, member⟩))
  cases Pool.alloc_served n a done with
  | large _ big => simp [unlisted, big]
  | carved d _ fits dry =>
      simp only [unlisted, false_iff, not_and, not_not, fits, Option.some.injEq]
      rintro rfl
      exact dry
  | reused d _ _ fits first =>
      obtain ⟨rest, stack⟩ := kept.stocked.stack first
      have member : a ∈ resting d l.log := stack ▸ List.mem_cons_self
      constructor
      · intro listed
        obtain rfl := kept.stocked.apart c d a listed member
        exact ⟨fits, by simp [first]⟩
      · rintro ⟨isClass, _⟩
        rw [fits, Option.some.injEq] at isClass
        exact isClass ▸ member

theorem Counted.alloc (counted : l.Counted) (kept : l.Kept) (done : l.pool.alloc n = .ok (a, q)) :
    Counted { pool := q, log := .lent a n :: l.log } := by
  have rests := kept.alloc_resting done
  constructor
  · intro c
    rw [(Pool.alloc_counters done c).2, counted.free, resting, List.length_erase]
    simp only [rests c]
    split <;> rfl
  · intro c
    have fewer : (resting c (.lent a n :: l.log)).length =
        (resting c l.log).length - if a ∈ resting c l.log then 1 else 0 := by
      rw [resting, List.length_erase]
      split <;> rfl
    have positive : a ∈ resting c l.log → 0 < (resting c l.log).length := List.length_pos_of_mem
    have one : Pool.ofClass c (Lender.out { pool := q, log := .lent a n :: l.log }) =
        Pool.ofClass c l.out + if SizeClass.fit? n = some c then 1 else 0 := Pool.ofClass_cons c a n _
    rw [(Pool.alloc_counters done c).1, counted.total, fewer, one]
    simp only [rests c] at positive ⊢
    by_cases fits : SizeClass.fit? n = some c <;> by_cases dry : (l.pool.shelf c).head = none
    · simp only [fits, dry, and_self, ne_eq, not_true_eq_false, and_false, if_true, if_false]
      omega
    · have := positive ⟨fits, dry⟩
      simp only [fits, dry, ne_eq, not_false_eq_true, and_self, and_false, if_true, if_false]
      omega
    · simp [fits]
    · simp [fits]

theorem Counted.returned (counted : l.Counted) (owed : (a, n) ∈ l.out) :
    Counted { pool := l.pool.free a n, log := .returned a n :: l.log } := by
  have longer : ∀ c, (resting c (.returned a n :: l.log)).length =
      (resting c l.log).length + if SizeClass.fit? n = some c then 1 else 0 := by
    intro c
    rw [resting]
    split <;> rfl
  constructor
  · intro c
    rw [(l.pool.free_counters a n c).2, counted.free, longer]
  · intro c
    have whole : Pool.ofClass c l.out = Pool.ofClass c ((a, n) :: l.out.erase (a, n)) :=
      (List.perm_cons_erase owed).countP_eq _
    have left : Lender.out { pool := l.pool.free a n, log := .returned a n :: l.log } =
        l.out.erase (a, n) := rfl
    rw [(l.pool.free_counters a n c).1, counted.total, whole, longer, Pool.ofClass_cons, left]
    omega

theorem Counted.transfer (counted : l.Counted)
    (same : ∀ c, (q.shelf c).totalBlocks = (l.pool.shelf c).totalBlocks ∧
      (q.shelf c).freeBlocks = (l.pool.shelf c).freeBlocks) : Counted { pool := q, log := l.log } :=
  ⟨fun c => (same c).2.trans (counted.free c), fun c => (same c).1.trans (counted.total c)⟩

end Lender

namespace Pool

/-- The blocks that a pool has lent, whoever has them. -/
def Lent (p : Pool) (blocks : List (Addr × Nat)) : Prop :=
  ∃ row, ({ pool := p, log := row } : Lender).Kept ∧ ({ pool := p, log := row } : Lender).Counted ∧
    (outstanding row).Perm blocks

variable {p q : Pool} {blocks others : List (Addr × Nat)} {a : Addr} {n : Nat}

namespace Lent

theorem start : Lent {} [] := ⟨[], .start, Lender.counted_start, .refl _⟩

theorem perm (lent : p.Lent blocks) (same : blocks.Perm others) : p.Lent others := by
  obtain ⟨row, kept, counted, out⟩ := lent
  exact ⟨row, kept, counted, out.trans same⟩

theorem alloc (lent : p.Lent blocks) (done : p.alloc n = .ok (a, q)) : q.Lent ((a, n) :: blocks) := by
  obtain ⟨row, kept, counted, out⟩ := lent
  exact ⟨_, kept.alloc n done, counted.alloc kept done, out.cons _⟩

theorem free (lent : p.Lent ((a, n) :: blocks)) : (p.free a n).Lent blocks := by
  obtain ⟨row, kept, counted, out⟩ := lent
  have owed : (a, n) ∈ outstanding row := out.mem_iff.mpr List.mem_cons_self
  refine ⟨_, kept.free owed, counted.returned owed, ?_⟩
  have left := out.erase (a, n)
  rwa [List.erase_cons_head] at left

/-- Counters of requests, the limit of the system and addresses that others take do not matter. -/
theorem transfer (lent : p.Lent blocks)
    (shelves : ∀ c, (q.shelf c).head = (p.shelf c).head ∧
      (q.shelf c).totalBlocks = (p.shelf c).totalBlocks ∧
      (q.shelf c).freeBlocks = (p.shelf c).freeBlocks)
    (links : q.links = p.links) (carved : q.carved = p.carved)
    (next : p.system.next ≤ q.system.next) : q.Lent blocks := by
  obtain ⟨row, kept, counted, out⟩ := lent
  exact ⟨row, kept.transfer (fun c => (shelves c).1) links carved next,
    counted.transfer fun c => (shelves c).2, out⟩

theorem single (lent : p.Lent blocks) : (blocks.map Prod.fst).Nodup := by
  obtain ⟨row, kept, _, out⟩ := lent
  exact (out.map Prod.fst).nodup_iff.mp kept.single

theorem home (lent : p.Lent blocks) (out : (a, n) ∈ blocks) :
    (p.carved[a]?).map Carving.sizeClass = SizeClass.fit? n ∧ (∀ c, a ∉ p.freeList c) ∧
      a < p.system.next := by
  obtain ⟨row, kept, _, same⟩ := lent
  have member := same.mem_iff.mpr out
  refine ⟨kept.asked a n member, fun c listed => ?_, kept.stocked.handed a (Or.inl ⟨n, member⟩)⟩
  rw [kept.freeList c] at listed
  exact kept.stocked.idle c a listed ⟨n, member⟩

theorem owned_below (lent : p.Lent blocks) (owned : p.owns a = true) : a < p.system.next := by
  obtain ⟨row, kept, _⟩ := lent
  exact kept.stocked.handed a (kept.whole a (Std.TreeMap.mem_iff_contains.mpr owned))

theorem stocked (lent : p.Lent blocks) {used : Addr → Prop}
    (mine : ∀ a, used a → ∃ n, (a, n) ∈ blocks) : ∃ free, p.Stocked used free := by
  obtain ⟨row, kept, _, same⟩ := lent
  exact ⟨_, kept.stocked.transfer (fun _ => rfl) rfl (Nat.le_refl _) fun a isUsed =>
    (mine a isUsed).imp fun _ => same.mem_iff.mpr⟩

/-- A block that is handed out is new, or was carved for requests of its class. -/
theorem served (lent : p.Lent blocks) (done : p.alloc n = .ok (a, q)) :
    a = p.system.next ∨ SizeClass.fit? n ≠ none ∧
      (p.carved[a]?).map Carving.sizeClass = SizeClass.fit? n := by
  obtain ⟨row, kept, _⟩ := lent
  cases Pool.alloc_served n a done with
  | large | carved => exact Or.inl rfl
  | reused c _ _ fits first =>
      obtain ⟨rest, stack⟩ := kept.stocked.stack first
      refine Or.inr ⟨by simp [fits], ?_⟩
      rw [fits]
      exact kept.homes c a (stack ▸ List.mem_cons_self)

theorem total (lent : p.Lent blocks) :
    p.stats.totalBlocks = p.stats.freeBlocks + pooled blocks := by
  obtain ⟨row, kept, counted, same⟩ := lent
  have out : pooled (outstanding row) = pooled blocks := same.countP_eq _
  simp only [stats, total_eq_sum, ← out, ← sum_ofClass, ← Finset.sum_add_distrib]
  refine Finset.sum_congr rfl fun c _ => ?_
  rw [counted.total c, counted.free c]
  rfl

theorem demand {l : Lender} (lent : l.pool.Lent (others ++ l.out)) (demand : Demand)
    (may : l.May demand) :
    (l.serve demand).pool.Lent (others ++ (l.serve demand).out) ∧ l.pool.Later (l.serve demand).pool := by
  have first : l.pool.Lent (others ++ l.out) ∧ l.pool.Later l.pool := ⟨lent, .refl _⟩
  refine Lender.demand_keeps (fun k => k.pool.Lent (others ++ k.out) ∧ l.pool.Later k.pool)
    ?alloc ?free ?memory first demand may
  case alloc =>
    rintro k bytes a pool ⟨lent, later⟩ done
    exact ⟨(lent.alloc done).perm List.perm_middle.symm, later.trans (.alloc done)⟩
  case free =>
    rintro k a n ⟨lent, later⟩ owed
    have front : (others ++ k.out).Perm ((a, n) :: (others ++ k.out.erase (a, n))) :=
      ((List.perm_cons_erase owed).append_left others).trans List.perm_middle
    exact ⟨(lent.perm front).free, later.trans (.free _ a n)⟩
  case memory =>
    rintro k limit ⟨lent, later⟩
    exact ⟨lent.transfer (fun _ => ⟨rfl, rfl, rfl⟩) rfl rfl (Nat.le_refl _),
      later.trans (.of_carved (Nat.le_refl _) rfl)⟩

end Lent

end Pool

end CountedHeap
