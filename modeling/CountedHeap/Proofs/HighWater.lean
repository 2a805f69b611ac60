import CountedHeap.Proofs.Shelves

/-!
How far a pool grows. A block is carved only while every block of its class is out, so a class has as
many blocks as were ever out at once, and the bytes of the pool follow from that. The counters of
requests begin anew whenever they are reset.
-/

namespace CountedHeap

open Pool (Deal outstanding resting ofClass)

namespace Pool

/-- The most that a measure of the deals has come to, from before the first deal until now. -/
def most (measure : List Deal → Nat) : List Deal → Nat
  | [] => measure []
  | deal :: past => max (measure (deal :: past)) (most measure past)

theorem le_most (measure : List Deal → Nat) (log : List Deal) : measure log ≤ most measure log := by
  cases log with
  | nil => exact Nat.le_refl _
  | cons deal past => exact Nat.le_max_left _ _

theorem most_isGreatest (measure : List Deal → Nat) (log : List Deal) :
    IsGreatest {n | ∃ past, past <:+ log ∧ measure past = n} (most measure log) := by
  induction log with
  | nil =>
      refine ⟨⟨[], List.suffix_rfl, rfl⟩, ?_⟩
      rintro n ⟨past, before, rfl⟩
      rw [List.suffix_nil.mp before]
      exact le_most measure []
  | cons deal log ih =>
      obtain ⟨⟨top, before, reached⟩, above⟩ := ih
      constructor
      · rcases Nat.le_total (measure (deal :: log)) (most measure log) with less | more
        · refine ⟨top, before.trans (List.suffix_cons deal log), ?_⟩
          rw [most, Nat.max_eq_right less, reached]
        · exact ⟨_, List.suffix_rfl, (Nat.max_eq_left more).symm⟩
      · rintro n ⟨past, earlier, rfl⟩
        rcases List.suffix_cons_iff.mp earlier with rfl | older
        · exact le_most measure _
        · exact Nat.le_trans (above ⟨past, older, rfl⟩) (Nat.le_max_right _ _)

theorem most_le_of_suffix {measure : List Deal → Nat} {past log : List Deal} (before : past <:+ log) :
    most measure past ≤ most measure log := by
  obtain ⟨⟨top, earlier, reached⟩, _⟩ := most_isGreatest measure past
  exact (most_isGreatest measure log).2 ⟨top, earlier.trans before, reached⟩

/-- How many blocks of a class are out. -/
def abroad (c : SizeClass) (log : List Deal) : Nat := ofClass c (outstanding log)

def largeBytes (blocks : List (Addr × Nat)) : Nat :=
  (blocks.map fun e => if SizeClass.fit? e.2 = none then e.2 else 0).sum

/-- What a pool holds: of each class as many blocks as were ever out at once, with their links, and
the large blocks that are out. -/
def held (log : List Deal) : Nat :=
  ∑ c, most (abroad c) log * (linkBytes + SizeClass.bytes c) + largeBytes (outstanding log)

def recent (settled : Nat) (log : List Deal) : List Deal := log.take (log.length - settled)

theorem recent_cons {settled : Nat} {log : List Deal} (behind : settled ≤ log.length) (deal : Deal) :
    recent settled (deal :: log) = deal :: recent settled log := by
  rw [recent, List.length_cons, Nat.succ_sub behind, List.take_succ_cons, recent]

theorem countP_recent_cons {settled : Nat} {log : List Deal} (behind : settled ≤ log.length) (deal : Deal)
    (test : Deal → Bool) :
    (recent settled (deal :: log)).countP test =
      (recent settled log).countP test + if test deal then 1 else 0 := by
  rw [recent_cons behind, List.countP_cons]

namespace Deal

def lends (kind : Option SizeClass) : Deal → Bool
  | .lent _ bytes => SizeClass.fit? bytes == kind
  | .returned _ _ => false

def takes (kind : Option SizeClass) : Deal → Bool
  | .lent _ _ => false
  | .returned _ bytes => SizeClass.fit? bytes == kind

end Deal

theorem outstanding_lents (entries : List (Addr × Nat)) (log : List Deal) :
    outstanding ((entries.map fun e => .lent e.1 e.2).reverse ++ log) =
      entries.reverse ++ outstanding log := by
  induction entries generalizing log with
  | nil => rfl
  | cons e rest ih => simp [ih, outstanding]

theorem outstanding_returns (entries : List (Addr × Nat)) (log : List Deal) :
    outstanding ((entries.map fun e => .returned e.1 e.2).reverse ++ log) =
      (outstanding log).diff entries := by
  induction entries generalizing log with
  | nil => rfl
  | cons e rest ih => simp [ih, outstanding, List.diff_cons]

theorem abroad_lent (c : SizeClass) (a : Addr) (n : Nat) (log : List Deal) :
    abroad c (.lent a n :: log) = abroad c log + if SizeClass.fit? n = some c then 1 else 0 :=
  ofClass_cons c a n (outstanding log)

theorem abroad_returned_le (c : SizeClass) (a : Addr) (n : Nat) (log : List Deal) :
    abroad c (.returned a n :: log) ≤ abroad c log := List.erase_sublist.countP_le

theorem largeBytes_cons (a : Addr) (n : Nat) (blocks : List (Addr × Nat)) :
    largeBytes ((a, n) :: blocks) = (if SizeClass.fit? n = none then n else 0) + largeBytes blocks := rfl

theorem largeBytes_erase {blocks : List (Addr × Nat)} {a : Addr} {n : Nat} (out : (a, n) ∈ blocks) :
    largeBytes blocks =
      (if SizeClass.fit? n = none then n else 0) + largeBytes (blocks.erase (a, n)) := by
  rw [← largeBytes_cons a n]
  exact ((List.perm_cons_erase out).map _).sum_eq

def cost (p : Pool) (bytes : Nat) : Nat :=
  match SizeClass.fit? bytes with
  | none => bytes
  | some c => if (p.shelf c).head = none then linkBytes + SizeClass.bytes c else 0

variable {p q : Pool} {a : Addr} {n : Nat}

theorem alloc_memory (below : p.memory ≤ p.peakMemory) (done : p.alloc n = .ok (a, q)) :
    q.memory = p.memory + p.cost n ∧ q.peakMemory = max q.memory p.peakMemory := by
  rcases alloc_cases done with ⟨big, _, _, rfl⟩ | ⟨c, fits, ⟨dry, _, _, rfl⟩ | ⟨first, rfl⟩⟩
  · simp [cost, big, grow, Nat.max_comm]
  · simp [cost, fits, dry, grow, setShelf, Nat.max_comm]
  · simp [cost, fits, first, setShelf, below]

theorem alloc_limit (done : p.alloc n = .ok (a, q)) : q.system.limit = p.system.limit := by
  rcases alloc_cases done with ⟨_, _, _, rfl⟩ | ⟨_, _, ⟨_, _, _, rfl⟩ | ⟨_, rfl⟩⟩ <;> rfl

theorem free_memory (p : Pool) (a : Addr) (n : Nat) :
    (p.free a n).memory = p.memory - (if SizeClass.fit? n = none then n else 0) ∧
      (p.free a n).peakMemory = p.peakMemory := by
  unfold free
  split
  · rename_i big
    simp [big]
  · rename_i c fits
    simp [fits, setShelf]

theorem alloc_requests (done : p.alloc n = .ok (a, q)) :
    (∀ c, (q.shelf c).allocations =
        (p.shelf c).allocations + (if SizeClass.fit? n = some c then 1 else 0) ∧
      (q.shelf c).deallocations = (p.shelf c).deallocations) ∧
    q.largeAllocations = p.largeAllocations + (if SizeClass.fit? n = none then 1 else 0) ∧
    q.largeDeallocations = p.largeDeallocations := by
  rcases alloc_cases done with ⟨big, _, _, rfl⟩ | ⟨d, fits, ⟨_, _, _, rfl⟩ | ⟨_, rfl⟩⟩
  · simp [big, shelf, grow]
  all_goals
    refine ⟨fun c => ?_, by simp [fits, setShelf, grow]⟩
    rw [shelf_setShelf]
    by_cases here : d = c
    · subst here
      simp [fits]
    · simp [fits, here, shelf, grow]

theorem free_requests (p : Pool) (a : Addr) (n : Nat) :
    (∀ c, ((p.free a n).shelf c).deallocations =
        (p.shelf c).deallocations + (if SizeClass.fit? n = some c then 1 else 0) ∧
      ((p.free a n).shelf c).allocations = (p.shelf c).allocations) ∧
    (p.free a n).largeDeallocations =
      p.largeDeallocations + (if SizeClass.fit? n = none then 1 else 0) ∧
    (p.free a n).largeAllocations = p.largeAllocations := by
  unfold free
  split
  · rename_i big
    simp [big, shelf]
  · rename_i d fits
    refine ⟨fun c => ?_, by simp [fits, setShelf]⟩
    rw [shelf_setShelf]
    by_cases here : d = c
    · subst here
      simp [fits, shelf]
    · simp [fits, here, shelf]

theorem resetStats_shelf (p : Pool) (c : SizeClass) :
    p.resetStats.shelf c = { p.shelf c with allocations := 0, deallocations := 0 } := by
  simp [shelf, resetStats, Vector.get_eq_getElem]

end Pool

namespace Lender

open Pool (most le_most abroad largeBytes held recent)

variable {l : Lender} {q : Pool} {a : Addr} {n settled : Nat}

/-! The counters of blocks and bytes -/

/-- The books of blocks and bytes against the deals. -/
structure Risen (l : Lender) : Prop where
  total : ∀ c, (l.pool.shelf c).totalBlocks = most (abroad c) l.log
  memory : l.pool.memory = held l.log
  peak : l.pool.peakMemory = most held l.log

theorem risen_start : Risen {} := by
  constructor
  · intro c
    simp [Pool.shelf, most, abroad, outstanding, ofClass]
  · simp [held, most, abroad, outstanding, ofClass, largeBytes]
  · simp [held, most, abroad, outstanding, ofClass, largeBytes]

theorem Risen.held_eq (risen : l.Risen) :
    held l.log = ∑ c, (l.pool.shelf c).totalBlocks * (Pool.linkBytes + SizeClass.bytes c) +
      largeBytes l.out := by
  simp only [held, risen.total]
  rfl

theorem Risen.below (risen : l.Risen) : l.pool.memory ≤ l.pool.peakMemory := by
  rw [risen.memory, risen.peak]
  exact le_most _ l.log

/-- A block is carved exactly where its class would have more blocks out than ever before. -/
theorem Risen.alloc_total (risen : l.Risen) (kept : l.Kept) (counted : l.Counted)
    (done : l.pool.alloc n = .ok (a, q)) (c : SizeClass) :
    (q.shelf c).totalBlocks = most (abroad c) (.lent a n :: l.log) := by
  have dry : (l.pool.shelf c).head = none ↔ (resting c l.log).length = 0 := by
    rw [kept.stocked.head_none_iff, List.length_eq_zero_iff]
  have total : (l.pool.shelf c).totalBlocks = (resting c l.log).length + abroad c l.log :=
    counted.total c
  rw [(Pool.alloc_counters done c).1, most, Pool.abroad_lent, ← risen.total c]
  by_cases fits : SizeClass.fit? n = some c
  · simp only [fits, true_and, if_true, dry]
    split <;> omega
  · simp only [fits, false_and, if_false]
    omega

theorem Risen.alloc (risen : l.Risen) (kept : l.Kept) (counted : l.Counted)
    (done : l.pool.alloc n = .ok (a, q)) : Risen { pool := q, log := .lent a n :: l.log } := by
  have total := risen.alloc_total kept counted done
  obtain ⟨memory, peak⟩ := Pool.alloc_memory risen.below done
  have grown : q.memory = held (.lent a n :: l.log) := by
    -- One block more of the class of the request, where it has a class and the class is dry.
    have more : ∑ c, (q.shelf c).totalBlocks * (Pool.linkBytes + SizeClass.bytes c) =
        ∑ c, (l.pool.shelf c).totalBlocks * (Pool.linkBytes + SizeClass.bytes c) +
          ∑ c, if SizeClass.fit? n = some c ∧ (l.pool.shelf c).head = none then
            Pool.linkBytes + SizeClass.bytes c else 0 := by
      rw [← Finset.sum_add_distrib]
      refine Finset.sum_congr rfl fun c _ => ?_
      rw [(Pool.alloc_counters done c).1, Nat.add_mul, ite_mul, Nat.one_mul, Nat.zero_mul]
    have fresh : l.pool.cost n = (∑ c, if SizeClass.fit? n = some c ∧ (l.pool.shelf c).head = none then
        Pool.linkBytes + SizeClass.bytes c else 0) + if SizeClass.fit? n = none then n else 0 := by
      cases fits : SizeClass.fit? n with
      | none => simp [Pool.cost, fits]
      | some c => simp [Pool.cost, fits, ite_and]
    rw [memory, risen.memory, risen.held_eq, fresh, held, outstanding, Pool.largeBytes_cons]
    simp only [← total, more]
    rw [show outstanding l.log = l.out from rfl]
    omega
  exact ⟨total, grown, by rw [peak, grown, risen.peak, most]⟩

theorem Risen.returned (risen : l.Risen) (owed : (a, n) ∈ l.out) :
    Risen { pool := l.pool.free a n, log := .returned a n :: l.log } := by
  obtain ⟨memory, peak⟩ := l.pool.free_memory a n
  have total : ∀ c, most (abroad c) (.returned a n :: l.log) = most (abroad c) l.log := fun c =>
    Nat.max_eq_right (Nat.le_trans (Pool.abroad_returned_le c a n l.log) (le_most _ l.log))
  have less : held l.log =
      held (.returned a n :: l.log) + if SizeClass.fit? n = none then n else 0 := by
    simp only [held, total, outstanding]
    rw [Pool.largeBytes_erase (show (a, n) ∈ outstanding l.log from owed)]
    omega
  refine ⟨fun c => ?_, ?_, ?_⟩
  · rw [(l.pool.free_counters a n c).1, total, risen.total]
  · rw [memory, risen.memory, less, Nat.add_sub_cancel]
  · have below : held (.returned a n :: l.log) ≤ held l.log := by
      rw [less]
      exact Nat.le_add_right _ _
    rw [peak, risen.peak, most, Nat.max_eq_right (Nat.le_trans below (le_most _ l.log))]

theorem Risen.transfer (risen : l.Risen)
    (same : ∀ c, (q.shelf c).totalBlocks = (l.pool.shelf c).totalBlocks)
    (memory : q.memory = l.pool.memory) (peak : q.peakMemory = l.pool.peakMemory) :
    Risen { pool := q, log := l.log } :=
  ⟨fun c => (same c).trans (risen.total c), memory.trans risen.memory, peak.trans risen.peak⟩

/-! The counters of requests -/

/-- The counters of requests against the deals after the first `settled` ones. -/
structure Reckoned (settled : Nat) (l : Lender) : Prop where
  behind : settled ≤ l.log.length
  lent : ∀ c, (l.pool.shelf c).allocations = (recent settled l.log).countP (Deal.lends (some c))
  taken : ∀ c, (l.pool.shelf c).deallocations = (recent settled l.log).countP (Deal.takes (some c))
  largeLent : l.pool.largeAllocations = (recent settled l.log).countP (Deal.lends none)
  largeTaken : l.pool.largeDeallocations = (recent settled l.log).countP (Deal.takes none)

theorem reckoned_start : Reckoned 0 {} := by
  constructor <;> simp [Pool.shelf, recent]

theorem Reckoned.alloc (reckoned : l.Reckoned settled) (done : l.pool.alloc n = .ok (a, q)) :
    Reckoned settled { pool := q, log := .lent a n :: l.log } := by
  obtain ⟨shelves, large, largeBack⟩ := Pool.alloc_requests done
  have counts := Pool.countP_recent_cons reckoned.behind (.lent a n)
  constructor
  · exact Nat.le_succ_of_le reckoned.behind
  · intro c
    rw [counts, (shelves c).1, reckoned.lent]
    simp [Deal.lends]
  · intro c
    rw [counts, (shelves c).2, reckoned.taken]
    simp [Deal.takes]
  · rw [counts, large, reckoned.largeLent]
    simp [Deal.lends]
  · rw [counts, largeBack, reckoned.largeTaken]
    simp [Deal.takes]

theorem Reckoned.returned (reckoned : l.Reckoned settled) (a : Addr) (n : Nat) :
    Reckoned settled { pool := l.pool.free a n, log := .returned a n :: l.log } := by
  obtain ⟨shelves, large, largeLent⟩ := l.pool.free_requests a n
  have counts := Pool.countP_recent_cons reckoned.behind (.returned a n)
  constructor
  · exact Nat.le_succ_of_le reckoned.behind
  · intro c
    rw [counts, (shelves c).2, reckoned.lent]
    simp [Deal.lends]
  · intro c
    rw [counts, (shelves c).1, reckoned.taken]
    simp [Deal.takes]
  · rw [counts, largeLent, reckoned.largeLent]
    simp [Deal.lends]
  · rw [counts, large, reckoned.largeTaken]
    simp [Deal.takes]

/-- All that holds of a pool whose counters of requests were reset after `settled` deals. -/
structure Sound (settled : Nat) (l : Lender) : Prop where
  kept : l.Kept
  counted : l.Counted
  risen : l.Risen
  reckoned : l.Reckoned settled

namespace Sound

theorem start : Sound 0 {} := ⟨.start, counted_start, risen_start, reckoned_start⟩

theorem demand (sound : l.Sound settled) (demand : Demand) (may : l.May demand) :
    (l.serve demand).Sound settled := by
  refine demand_keeps (Sound settled) ?alloc ?free ?memory sound demand may
  case alloc =>
    intro l bytes a pool sound done
    exact ⟨sound.kept.alloc bytes done, sound.counted.alloc sound.kept done,
      sound.risen.alloc sound.kept sound.counted done, sound.reckoned.alloc done⟩
  case free =>
    intro l a n sound owed
    exact ⟨sound.kept.free owed, sound.counted.returned owed, sound.risen.returned owed,
      sound.reckoned.returned a n⟩
  case memory =>
    intro l limit sound
    exact ⟨sound.kept.transfer (fun _ => rfl) rfl rfl (Nat.le_refl _),
      sound.counted.transfer fun _ => ⟨rfl, rfl⟩, sound.risen.transfer (fun _ => rfl) rfl rfl,
      sound.reckoned.behind, sound.reckoned.lent, sound.reckoned.taken, sound.reckoned.largeLent,
      sound.reckoned.largeTaken⟩

theorem reset (sound : l.Sound settled) :
    Sound l.log.length { pool := l.pool.resetStats, log := l.log } := by
  have shelf := l.pool.resetStats_shelf
  have cleared : recent l.log.length l.log = [] := by simp [recent]
  refine ⟨sound.kept.transfer (fun c => by rw [shelf]) rfl rfl (Nat.le_refl _),
    sound.counted.transfer fun c => by rw [shelf]; exact ⟨rfl, rfl⟩,
    sound.risen.transfer (fun c => by rw [shelf]) rfl rfl, Nat.le_refl _, fun c => ?_, fun c => ?_, ?_, ?_⟩
  · rw [shelf, cleared]
    rfl
  · rw [shelf, cleared]
    rfl
  · rw [cleared]
    rfl
  · rw [cleared]
    rfl

end Sound

/-! Batches that come back and are asked for again -/

def batch (l : Lender) : List (Nat × Nat) → List (Option Addr) × Lender
  | [] => ([], l)
  | (limit, bytes) :: rest =>
      let asked := l.serve (.memory limit)
      let (blocks, after) := (asked.serve (.alloc bytes)).batch rest
      ((asked.pool.alloc bytes).toOption.map Prod.fst :: blocks, after)

theorem batch_steady (l : Lender) (sizes : List Nat) :
    l.batch (sizes.map fun bytes => (l.pool.system.limit, bytes)) =
      ((l.pool.allocBatch sizes).1, l.serve (.allocBatch sizes)) := by
  induction sizes generalizing l with
  | nil => simp [batch, Pool.allocBatch, serve, paired]
  | cons bytes rest ih =>
      have served := ih (l.serve (.alloc bytes))
      rw [serve_allocBatch, List.foldl_cons, ← serve_allocBatch, List.map_cons, batch,
        show l.serve (.memory l.pool.system.limit) = l from rfl]
      cases done : l.pool.alloc bytes with
      | ok made =>
          obtain ⟨a, pool⟩ := made
          simp only [serve, done, Pool.alloc_limit done, Pool.allocBatch, Except.toOption,
            Option.map_some] at served ⊢
          rw [served]
      | error fault =>
          simp only [serve, done, Pool.allocBatch, Except.toOption, Option.map_none] at served ⊢
          rw [served]

theorem batch_length (l : Lender) (entries : List (Nat × Nat)) :
    (l.batch entries).1.length = entries.length := by
  induction entries generalizing l with
  | nil => rfl
  | cons entry rest ih => simp [batch, ih]

theorem batch_log (l : Lender) (entries : List (Nat × Nat)) :
    (l.batch entries).2.log =
      ((paired (l.batch entries).1 (entries.map Prod.snd)).map fun e => .lent e.1 e.2).reverse ++
        l.log := by
  induction entries generalizing l with
  | nil => rfl
  | cons entry rest ih =>
      obtain ⟨limit, bytes⟩ := entry
      rw [batch]
      have unchanged : (l.serve (.memory limit)).log = l.log := rfl
      generalize l.serve (.memory limit) = asked at unchanged ⊢
      simp only [ih, ← unchanged]
      cases done : asked.pool.alloc bytes with
      | ok made => simp [serve, done, paired, Except.toOption]
      | error fault => simp [serve, done, paired, Except.toOption]

theorem Sound.batch (sound : l.Sound settled) (entries : List (Nat × Nat)) :
    (l.batch entries).2.Sound settled := by
  induction entries generalizing l with
  | nil => exact sound
  | cons entry rest ih =>
      exact ih ((sound.demand (.memory entry.1) trivial).demand (.alloc entry.2) trivial)

def given (l : Lender) (entries : List (Nat × Nat)) : List (Addr × Nat) :=
  paired (l.batch entries).1 (entries.map Prod.snd)

def roundTrip (l : Lender) (entries : List (Nat × Nat)) : Lender :=
  (l.batch entries).2.serve (.freeBatch (l.batch entries).1 (entries.map Prod.snd))

/-- A batch carves what is missing for it: the blocks that were free are used up first. -/
theorem Sound.batch_total (sound : l.Sound settled) (entries : List (Nat × Nat)) (c : SizeClass) :
    ((l.batch entries).2.pool.shelf c).totalBlocks =
      max (ofClass c (l.given entries) + abroad c l.log) (l.pool.shelf c).totalBlocks := by
  have climbs : ∀ (blocks : List (Addr × Nat)) (log : List Deal),
      most (abroad c) ((blocks.map fun e => .lent e.1 e.2).reverse ++ log) =
        max (ofClass c blocks + abroad c log) (most (abroad c) log) := by
    intro blocks
    induction blocks with
    | nil =>
        intro log
        have below := le_most (abroad c) log
        simp [ofClass, below]
    | cons e rest ih =>
        intro log
        have one := Pool.abroad_lent c e.1 e.2 log
        rw [List.map_cons, List.reverse_cons, List.append_assoc, List.singleton_append, ih, one, most,
          one, Pool.ofClass_cons]
        omega
  rw [(sound.batch entries).risen.total, batch_log, climbs, ← sound.risen.total, given]

theorem roundTrip_out (l : Lender) (entries : List (Nat × Nat)) :
    (l.batch entries).2.May (.freeBatch (l.batch entries).1 (entries.map Prod.snd)) ∧
      (l.roundTrip entries).out.Perm l.out := by
  have lent : (l.batch entries).2.out = (l.given entries).reverse ++ l.out := by
    rw [out, batch_log, Pool.outstanding_lents, given, out]
  constructor
  · show (l.given entries).Subperm (l.batch entries).2.out
    rw [lent]
    exact (List.reverse_perm _).symm.subperm.trans (List.sublist_append_left _ _).subperm
  · have back : (l.roundTrip entries).out = ((l.given entries).reverse ++ l.out).diff (l.given entries) := by
      rw [← lent]
      exact Pool.outstanding_returns _ _
    have cancel : ∀ blocks rest : List (Addr × Nat), (blocks ++ rest).diff blocks = rest := by
      intro blocks rest
      induction blocks with
      | nil => rfl
      | cons e more ih => rw [List.cons_append, List.diff_cons, List.erase_cons_head, ih]
    rw [back]
    exact (((List.reverse_perm _).append_right _).diff_right _).trans (.of_eq (cancel _ _))

theorem Sound.roundTrip (sound : l.Sound settled) (entries : List (Nat × Nat)) :
    (l.roundTrip entries).Sound settled :=
  (sound.batch entries).demand _ (l.roundTrip_out entries).1

/-- A batch that is asked for again carves no more blocks of a class than it is given more of them
than the first time. -/
theorem Sound.again (sound : l.Sound settled) (first second : List (Nat × Nat)) (c : SizeClass) :
    (((l.roundTrip first).batch second).2.pool.shelf c).totalBlocks ≤
      ((l.roundTrip first).pool.shelf c).totalBlocks +
        (ofClass c ((l.roundTrip first).given second) - ofClass c (l.given first)) := by
  have same : abroad c (l.roundTrip first).log = abroad c l.log :=
    (l.roundTrip_out first).2.countP_eq _
  have risen : ((l.batch first).2.pool.shelf c).totalBlocks ≤
      ((l.roundTrip first).pool.shelf c).totalBlocks := by
    rw [(sound.batch first).risen.total, (sound.roundTrip first).risen.total]
    exact Pool.most_le_of_suffix (List.suffix_append _ _)
  rw [sound.batch_total] at risen
  rw [(sound.roundTrip first).batch_total, same]
  omega

theorem ofClass_paired_le (c : SizeClass) (blocks : List (Option Addr)) (sizes : List Nat) :
    ofClass c (paired blocks sizes) ≤ sizes.countP fun n => SizeClass.fit? n == some c := by
  induction blocks generalizing sizes with
  | nil => exact Nat.zero_le _
  | cons block rest ih =>
      cases sizes with
      | nil => cases block <;> exact Nat.zero_le _
      | cons n sizes =>
          have fewer := ih sizes
          cases block with
          | none =>
              rw [List.countP_cons]
              exact Nat.le_trans fewer (Nat.le_add_right _ _)
          | some a =>
              have one : paired (some a :: rest) (n :: sizes) = (a, n) :: paired rest sizes := rfl
              rw [one, Pool.ofClass_cons, List.countP_cons]
              simpa using fewer

theorem ofClass_paired (c : SizeClass) (blocks : List (Option Addr)) (sizes : List Nat)
    (long : blocks.length = sizes.length)
    (served : ∀ n, (none, n) ∈ blocks.zip sizes → SizeClass.fit? n ≠ some c) :
    ofClass c (paired blocks sizes) = sizes.countP fun n => SizeClass.fit? n == some c := by
  induction blocks generalizing sizes with
  | nil => simp [List.eq_nil_of_length_eq_zero long.symm, paired, ofClass]
  | cons block rest ih =>
      cases sizes with
      | nil => cases long
      | cons n sizes =>
          have counted := ih sizes (Nat.succ.inj long) fun m member =>
            served m (List.mem_cons_of_mem _ member)
          cases block with
          | none =>
              have other := served n List.mem_cons_self
              have nothing : paired (none :: rest) (n :: sizes) = paired rest sizes := rfl
              rw [nothing, counted, List.countP_cons]
              simp [other]
          | some a =>
              have one : paired (some a :: rest) (n :: sizes) = (a, n) :: paired rest sizes := rfl
              rw [one, Pool.ofClass_cons, counted, List.countP_cons]
              simp

end Lender

/-- A lender whose counters of requests may be reset: the deals before the last reset are settled. -/
structure Teller where
  lender : Lender := {}
  settled : Nat := 0
  deriving Inhabited

namespace Teller

inductive Order where
  | demand (demand : Demand)
  | resetStats

def obey (t : Teller) : Order → Teller
  | .demand demand => { t with lender := t.lender.serve demand }
  | .resetStats =>
      { lender := { t.lender with pool := t.lender.pool.resetStats }, settled := t.lender.log.length }

def May (t : Teller) : Order → Prop
  | .demand demand => t.lender.May demand
  | .resetStats => True

def since (t : Teller) : List Deal := Pool.recent t.settled t.lender.log

inductive Run : Teller → Prop where
  | start : Run {}
  | obey {t : Teller} (order : Order) (run : Run t) (may : t.May order) : Run (t.obey order)

instance (t : Teller) : (order : Order) → Decidable (t.May order)
  | .demand demand => inferInstanceAs (Decidable (t.lender.May demand))
  | .resetStats => inferInstanceAs (Decidable True)

def Obeys (t : Teller) : List Order → Prop
  | [] => True
  | order :: rest => t.May order ∧ (t.obey order).Obeys rest

instance decidableObeys (t : Teller) : (orders : List Order) → Decidable (t.Obeys orders)
  | [] => inferInstanceAs (Decidable True)
  | order :: rest =>
      let _ := decidableObeys (t.obey order) rest
      inferInstanceAs (Decidable (_ ∧ _))

theorem Run.obeys {t : Teller} (run : Run t) (orders : List Order) (obeys : t.Obeys orders) :
    Run (orders.foldl Teller.obey t) := by
  induction orders generalizing t with
  | nil => exact run
  | cons order rest ih => exact ih (run.obey order obeys.1) obeys.2

/-- What the books of a pool say of the orders it was given, and of a batch that comes next. -/
structure HighWater (t : Teller) : Prop where
  blocks : ∀ c, IsGreatest {n | ∃ past, past <:+ t.lender.log ∧ ofClass c (outstanding past) = n}
    (t.lender.pool.shelf c).totalBlocks
  free : ∀ c, (t.lender.pool.shelf c).freeBlocks = (t.lender.pool.freeList c).length
  out : ∀ c, (t.lender.pool.shelf c).totalBlocks =
    (t.lender.pool.shelf c).freeBlocks + ofClass c (outstanding t.lender.log)
  memory : t.lender.pool.memory =
    ∑ c, (t.lender.pool.shelf c).totalBlocks * (Pool.linkBytes + SizeClass.bytes c) +
      Pool.largeBytes (outstanding t.lender.log)
  large : ∀ a n, (a, n) ∈ outstanding t.lender.log → SizeClass.fit? n = none →
    n ≤ t.lender.pool.memory
  held : t.lender.pool.memory = Pool.held t.lender.log
  peak : IsGreatest {n | ∃ past, past <:+ t.lender.log ∧ Pool.held past = n} t.lender.pool.peakMemory
  lent : ∀ c, (t.lender.pool.shelf c).allocations = t.since.countP (Deal.lends (some c))
  taken : ∀ c, (t.lender.pool.shelf c).deallocations = t.since.countP (Deal.takes (some c))
  largeLent : t.lender.pool.largeAllocations = t.since.countP (Deal.lends none)
  largeTaken : t.lender.pool.largeDeallocations = t.since.countP (Deal.takes none)
  steady : ∀ sizes, t.lender.batch (sizes.map fun bytes => (t.lender.pool.system.limit, bytes)) =
    ((t.lender.pool.allocBatch sizes).1, t.lender.serve (.allocBatch sizes))
  again : ∀ first second, second.map Prod.snd = first.map Prod.snd →
    let back := t.lender.roundTrip first
    ∀ c, ((back.batch second).2.pool.shelf c).totalBlocks ≤ (back.pool.shelf c).totalBlocks +
      (ofClass c (back.given second) - ofClass c (t.lender.given first))
  still : ∀ first second, second.map Prod.snd = first.map Prod.snd →
    (∀ n, (none, n) ∈ (t.lender.batch first).1.zip (first.map Prod.snd) → SizeClass.fit? n = none) →
      let back := t.lender.roundTrip first
      ∀ c, ((back.batch second).2.pool.shelf c).totalBlocks = (back.pool.shelf c).totalBlocks

theorem Run.sound {t : Teller} (run : Run t) : t.lender.Sound t.settled := by
  induction run with
  | start => exact .start
  | obey order run may ih =>
      cases order with
      | demand demand => exact ih.demand demand may
      | resetStats => exact ih.reset

/-- A class has as many blocks as were ever out at once; those that are not out are on its free list.
The bytes of the pool are those of all its blocks, links included, and of the large blocks that are
out, so that a large block that comes back never takes more off than there is; their peak is the most
they ever were. Requests that were served, and blocks that came back, count from the last reset. A
batch that comes back and is asked for again carves no more blocks of a class than it is given more of
them than the first time, and none at all if only large entries were refused the first time. -/
theorem high_water (t : Teller) (run : Run t) : t.HighWater := by
  have sound := run.sound
  have total := sound.risen.total
  refine ⟨fun c => ?_, fun c => ?_, fun c => ?_, ?_, fun a n out big => ?_, sound.risen.memory, ?_,
    sound.reckoned.lent, sound.reckoned.taken, sound.reckoned.largeLent, sound.reckoned.largeTaken,
    t.lender.batch_steady, fun first second _ => sound.again first second,
    fun first second same served c => ?_⟩
  · rw [total c]
    exact Pool.most_isGreatest (Pool.abroad c) t.lender.log
  · rw [sound.kept.freeList, sound.counted.free]
  · rw [sound.counted.total, sound.counted.free]
    rfl
  · rw [sound.risen.memory, sound.risen.held_eq]
    rfl
  · rw [sound.risen.memory, Pool.held, Pool.largeBytes_erase out, if_pos big]
    omega
  · rw [sound.risen.peak]
    exact Pool.most_isGreatest Pool.held t.lender.log
  · have bound := sound.again first second c
    have long : (t.lender.batch first).1.length = (first.map Prod.snd).length := by
      rw [Lender.batch_length, List.length_map]
    have all := Lender.ofClass_paired c _ _ long fun n refused fits => by
      rw [served n refused] at fits
      cases fits
    have fewer : ofClass c ((t.lender.roundTrip first).given second) ≤ ofClass c (t.lender.given first) := by
      rw [Lender.given, Lender.given, all, ← same]
      exact Lender.ofClass_paired_le c _ _
    have grows := (sound.roundTrip first).batch_total second c
    omega

/-- Two blocks of a class are out at once, one comes back and is used again, and a large one comes and
goes. The counters of requests are reset in between, and in the end the system refuses everything. -/
def refillOrders : List Order :=
  [.demand (.allocBatch [100, 100]), .demand (.free 0x6b7000000000 100), .demand (.alloc 5000),
    .resetStats, .demand (.alloc 120), .demand (.memory 0), .demand (.alloc 3000),
    .demand (.free 0x6b7000000140 5000)]

theorem high_water_refill :
    let t := refillOrders.foldl obey {}
    let pool := t.lender.pool
    let back := t.lender.roundTrip [(0, 8), (1000, 100)]
    ({} : Teller).Obeys refillOrders ∧
      IsGreatest {n | ∃ past, past <:+ t.lender.log ∧ ofClass 7 (outstanding past) = n} 2 ∧
      (pool.freeList 7).length = 0 ∧ pool.memory = 288 ∧
      IsGreatest {n | ∃ past, past <:+ t.lender.log ∧ Pool.held past = n} 5288 ∧
      (pool.shelf 7).allocations = 1 ∧ pool.largeDeallocations = 1 ∧
      ((back.batch [(0, 8), (1000, 100)]).2.pool.shelf 7).totalBlocks = 3 := by
  intro t pool back
  have obeys : ({} : Teller).Obeys refillOrders := by decide +kernel
  have water := high_water t (Run.start.obeys _ obeys)
  have two : (pool.shelf 7).totalBlocks = 2 := by decide +kernel
  have top : pool.peakMemory = 5288 := by decide +kernel
  -- Of the batch the block of class 7 was given the first time already.
  have third : (back.pool.shelf 7).totalBlocks = 3 := by decide +kernel
  have once : ofClass 7 (back.given [(0, 8), (1000, 100)]) =
      ofClass 7 (t.lender.given [(0, 8), (1000, 100)]) := by decide +kernel
  have bound := water.again [(0, 8), (1000, 100)] _ rfl 7
  rw [third, once, Nat.sub_self] at bound
  refine ⟨obeys, two ▸ water.blocks 7, (water.free 7).symm.trans (by decide +kernel), by decide +kernel,
    top ▸ water.peak, (water.lent 7).trans (by decide +kernel),
    water.largeTaken.trans (by decide +kernel), ?_⟩
  exact Nat.le_antisymm bound (by decide +kernel)

/-- What was refused the first time may be carved the second time. -/
theorem again_carves :
    ¬ ∀ t : Teller, Run t → ∀ first second, second.map Prod.snd = first.map Prod.snd → ∀ c,
      (((t.lender.roundTrip first).batch second).2.pool.shelf c).totalBlocks =
        ((t.lender.roundTrip first).pool.shelf c).totalBlocks := by
  intro settles
  have carved : ((((({} : Teller).lender.roundTrip [(0, 8), (0, 8)]).batch
      [(1000, 8), (1000, 8)]).2.pool.shelf 0).totalBlocks) = 2 := by decide +kernel
  have before : ((({} : Teller).lender.roundTrip [(0, 8), (0, 8)]).pool.shelf 0).totalBlocks = 0 := by
    decide +kernel
  have same := settles {} .start [(0, 8), (0, 8)] [(1000, 8), (1000, 8)] rfl 0
  rw [carved, before] at same
  cases same

end Teller

end CountedHeap
