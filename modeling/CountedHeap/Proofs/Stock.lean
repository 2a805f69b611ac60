import CountedHeap.Pool
import Mathlib

/-!
The free lists of a pool. They are threaded through blocks that nobody uses, none of them twice, so
a block handed out is one that nobody uses.
-/

namespace CountedHeap.Pool

/-- The free list from a block on, along the links. -/
def Threaded (p : Pool) : Option Addr → List Addr → Prop
  | head, [] => head = none
  | head, block :: rest => head = some block ∧ p.Threaded (p.link block) rest

/-- The blocks in use and the free ones of each class. -/
structure Stocked (p : Pool) (used : Addr → Prop) (free : SizeClass → List Addr) : Prop where
  threaded : ∀ c, p.Threaded (p.shelf c).head (free c)
  once : ∀ c, (free c).Nodup
  apart : ∀ c d a, a ∈ free c → a ∈ free d → c = d
  idle : ∀ c a, a ∈ free c → ¬ used a
  handed : ∀ a, (used a ∨ ∃ c, a ∈ free c) → a < p.system.next

variable {p q : Pool} {used : Addr → Prop} {free : SizeClass → List Addr}

theorem stocked_empty : Stocked {} (fun _ => False) fun _ => [] := by
  constructor
  · intro c
    simp [Threaded, shelf]
  · exact fun _ => List.nodup_nil
  · intro c d a member
    cases member
  · intro c a member
    cases member
  · rintro a (impossible | ⟨c, member⟩)
    · cases impossible
    · cases member

theorem threaded_congr (blocks : List Addr) (links : ∀ block ∈ blocks, q.link block = p.link block)
    (head : Option Addr) (threaded : p.Threaded head blocks) : q.Threaded head blocks := by
  induction blocks generalizing head with
  | nil => exact threaded
  | cons block rest ih =>
      refine ⟨threaded.1, ?_⟩
      rw [links block List.mem_cons_self]
      exact ih (fun other member => links other (List.mem_cons_of_mem block member)) _ threaded.2

theorem threaded_of_links (links : q.links = p.links) (head : Option Addr) (blocks : List Addr)
    (threaded : p.Threaded head blocks) : q.Threaded head blocks :=
  threaded_congr blocks (fun _ _ => by rw [link, links, link]) head threaded

/-- The bounded view of a list is all of it, if the bound is not too small. -/
theorem chain_threaded (blocks : List Addr) (count : Nat) (head : Option Addr)
    (threaded : p.Threaded head blocks) (short : blocks.length ≤ count) : p.chain count head = blocks := by
  induction blocks generalizing count head with
  | nil =>
      rw [show head = none from threaded]
      cases count <;> rfl
  | cons block rest ih =>
      cases count with
      | zero => cases short
      | succ count =>
          rw [threaded.1, chain, ih count _ threaded.2 (Nat.le_of_succ_le_succ short)]

theorem freeList_congr (shelves : q.shelves = p.shelves) (links : q.links = p.links)
    (carved : q.carved = p.carved) (c : SizeClass) : q.freeList c = p.freeList c := by
  have same : ∀ count head, q.chain count head = p.chain count head := by
    intro count
    induction count with
    | zero =>
        intro head
        cases head <;> rfl
    | succ count ih =>
        intro head
        cases head with
        | none => rfl
        | some block => rw [chain, chain, ih, link, links, link]
  rw [freeList, freeList, same, shelf, shelves, carved, shelf]

theorem Stocked.transfer {used' : Addr → Prop} (stocked : p.Stocked used free)
    (shelves : ∀ c, (q.shelf c).head = (p.shelf c).head) (links : q.links = p.links)
    (next : p.system.next ≤ q.system.next) (fewer : ∀ a, used' a → used a) :
    q.Stocked used' free := by
  constructor
  · intro c
    rw [shelves]
    exact threaded_of_links links _ _ (stocked.threaded c)
  · exact stocked.once
  · exact stocked.apart
  · exact fun c a member isUsed => stocked.idle c a member (fewer a isUsed)
  · rintro a (isUsed | isFree)
    · exact Nat.lt_of_lt_of_le (stocked.handed a (Or.inl (fewer a isUsed))) next
    · exact Nat.lt_of_lt_of_le (stocked.handed a (Or.inr isFree)) next

theorem advance_next (s : System) (bytes : Nat) : s.next < (s.advance bytes).next := by
  exact Nat.lt_add_of_pos_right (Nat.mul_pos (by decide) (Nat.succ_pos _))

theorem Stocked.fresh (stocked : p.Stocked used free)
    (shelves : ∀ c, (q.shelf c).head = (p.shelf c).head) (links : q.links = p.links)
    (next : p.system.next < q.system.next) :
    ¬ used p.system.next ∧ q.Stocked (fun b => b = p.system.next ∨ used b) free := by
  have notUsed : ¬ used p.system.next := fun isUsed =>
    Nat.lt_irrefl _ (stocked.handed _ (Or.inl isUsed))
  have same := stocked.transfer shelves links (Nat.le_of_lt next) fun _ => id
  refine ⟨notUsed, same.threaded, same.once, same.apart, ?_, ?_⟩
  · rintro c a member (isNew | isUsed)
    · rw [isNew] at member
      exact Nat.lt_irrefl _ (stocked.handed _ (Or.inr ⟨c, member⟩))
    · exact stocked.idle c a member isUsed
  · rintro a ((isNew | isUsed) | isFree)
    · rw [isNew]
      exact next
    · exact same.handed a (Or.inl isUsed)
    · exact same.handed a (Or.inr isFree)

theorem Stocked.popped (stocked : p.Stocked used free) {c : SizeClass} {block : Addr}
    {rest : List Addr} (stack : free c = block :: rest)
    (shelves : ∀ d, (q.shelf d).head = if c = d then p.link block else (p.shelf d).head)
    (links : q.links = p.links) (next : p.system.next ≤ q.system.next) :
    ¬ used block ∧
      q.Stocked (fun b => b = block ∨ used b) (Function.update free c rest) := by
  have member : block ∈ free c := by
    rw [stack]
    exact List.mem_cons_self
  have once := stocked.once c
  rw [stack, List.nodup_cons] at once
  have threaded := stocked.threaded c
  rw [stack] at threaded
  have fewer : ∀ d b, b ∈ Function.update free c rest d → b ∈ free d ∧ b ≠ block := by
    intro d b isThere
    by_cases here : d = c
    · subst here
      rw [Function.update_self] at isThere
      refine ⟨by rw [stack]; exact List.mem_cons_of_mem block isThere, ?_⟩
      rintro rfl
      exact once.1 isThere
    · rw [Function.update_of_ne here] at isThere
      refine ⟨isThere, ?_⟩
      rintro rfl
      exact here (stocked.apart d c b isThere member)
  refine ⟨stocked.idle c block member, ?_, ?_, ?_, ?_, ?_⟩
  · intro d
    rw [shelves]
    by_cases here : c = d
    · subst here
      rw [if_pos rfl, Function.update_self]
      exact threaded_of_links links _ _ threaded.2
    · rw [if_neg here, Function.update_of_ne (Ne.symm here)]
      exact threaded_of_links links _ _ (stocked.threaded d)
  · intro d
    by_cases here : d = c
    · subst here
      rw [Function.update_self]
      exact once.2
    · rw [Function.update_of_ne here]
      exact stocked.once d
  · exact fun d e b first second => stocked.apart d e b (fewer d b first).1 (fewer e b second).1
  · rintro d b isThere (isBlock | isUsed)
    · exact (fewer d b isThere).2 isBlock
    · exact stocked.idle d b (fewer d b isThere).1 isUsed
  · have handed := fun b isHanded => Nat.lt_of_lt_of_le (stocked.handed b isHanded) next
    rintro b ((isBlock | isUsed) | ⟨d, isThere⟩)
    · rw [isBlock]
      exact handed block (Or.inr ⟨c, member⟩)
    · exact handed b (Or.inl isUsed)
    · exact handed b (Or.inr ⟨d, (fewer d b isThere).1⟩)

theorem Stocked.stack (stocked : p.Stocked used free) {c : SizeClass} {block : Addr}
    (first : (p.shelf c).head = some block) : ∃ rest, free c = block :: rest := by
  have threaded := stocked.threaded c
  rw [first] at threaded
  cases stack : free c with
  | nil =>
      rw [stack] at threaded
      cases threaded
  | cons other rest =>
      rw [stack] at threaded
      exact ⟨rest, by rw [Option.some.inj threaded.1]⟩

theorem Stocked.head_none_iff (stocked : p.Stocked used free) (c : SizeClass) :
    (p.shelf c).head = none ↔ free c = [] := by
  have threaded := stocked.threaded c
  cases stack : free c with
  | nil =>
      rw [stack] at threaded
      exact ⟨fun _ => rfl, fun _ => threaded⟩
  | cons b rest =>
      rw [stack] at threaded
      simp [threaded.1]

theorem Stocked.pushed (stocked : p.Stocked used free) {c : SizeClass} {a : Addr} (isUsed : used a)
    (shelves : ∀ d, (q.shelf d).head = if c = d then some a else (p.shelf d).head)
    (links : q.links = p.links.insert a (p.shelf c).head)
    (next : p.system.next ≤ q.system.next) :
    q.Stocked (fun b => b ≠ a ∧ used b) (Function.update free c (a :: free c)) := by
  have unlisted : ∀ d, a ∉ free d := fun d member => stocked.idle d a member isUsed
  have more : ∀ d b, b ∈ Function.update free c (a :: free c) d → b = a ∧ d = c ∨ b ∈ free d := by
    intro d b isThere
    by_cases here : d = c
    · subst here
      rw [Function.update_self] at isThere
      exact (List.mem_cons.mp isThere).imp (fun isNew => ⟨isNew, rfl⟩) id
    · rw [Function.update_of_ne here] at isThere
      exact Or.inr isThere
  -- The link that is written belongs to a block on none of the lists.
  have still : ∀ d, q.Threaded (p.shelf d).head (free d) := by
    intro d
    apply threaded_congr _ _ _ (stocked.threaded d)
    intro block member
    have other : a ≠ block := by
      rintro rfl
      exact unlisted d member
    simp [link, links, Std.TreeMap.getElem?_insert, other]
  constructor
  · intro d
    rw [shelves]
    by_cases here : c = d
    · subst here
      have behind : q.link a = (p.shelf c).head := by simp [link, links]
      rw [if_pos rfl, Function.update_self]
      exact ⟨rfl, behind ▸ still c⟩
    · rw [if_neg here, Function.update_of_ne (Ne.symm here)]
      exact still d
  · intro d
    by_cases here : d = c
    · subst here
      rw [Function.update_self, List.nodup_cons]
      exact ⟨unlisted d, stocked.once d⟩
    · rw [Function.update_of_ne here]
      exact stocked.once d
  · intro d e b first second
    rcases more d b first with ⟨isA, isC⟩ | old
    · rcases more e b second with ⟨_, alsoC⟩ | old
      · rw [isC, alsoC]
      · exact absurd (isA ▸ old) (unlisted e)
    · rcases more e b second with ⟨isA, _⟩ | alsoOld
      · exact absurd (isA ▸ old) (unlisted d)
      · exact stocked.apart d e b old alsoOld
  · rintro d b isThere ⟨apart, wasUsed⟩
    rcases more d b isThere with ⟨isA, _⟩ | old
    · exact apart isA
    · exact stocked.idle d b old wasUsed
  · have handed := fun b isHanded => Nat.lt_of_lt_of_le (stocked.handed b isHanded) next
    rintro b (wasUsed | ⟨d, isThere⟩)
    · exact handed b (Or.inl wasUsed.2)
    · rcases more d b isThere with ⟨isA, _⟩ | old
      · rw [isA]
        exact handed a (Or.inl isUsed)
      · exact handed b (Or.inr ⟨d, old⟩)

/-- How a request is served: by the system at once if it is too big for a class, by a new block if its
class has no free one, and by the block that was freed last otherwise. -/
inductive Served (p : Pool) (bytes : Nat) : Addr → Pool → Prop where
  | large (q : Pool) (big : SizeClass.fit? bytes = none) (granted : p.system.grants bytes = true)
      (shelves : q.shelves = p.shelves) (links : q.links = p.links) (carved : q.carved = p.carved)
      (next : p.system.next < q.system.next) : Served p bytes p.system.next q
  | carved (c : SizeClass) (q : Pool) (fits : SizeClass.fit? bytes = some c)
      (dry : (p.shelf c).head = none)
      (granted : p.system.grants (linkBytes + SizeClass.bytes c) = true)
      (heads : ∀ d, (q.shelf d).head = (p.shelf d).head) (links : q.links = p.links)
      (carved : q.carved = p.carved.insert p.system.next ⟨p.carved.size, c⟩)
      (next : p.system.next < q.system.next) : Served p bytes p.system.next q
  | reused (c : SizeClass) (block : Addr) (q : Pool) (fits : SizeClass.fit? bytes = some c)
      (first : (p.shelf c).head = some block)
      (heads : ∀ d, (q.shelf d).head = if c = d then p.link block else (p.shelf d).head)
      (links : q.links = p.links) (carved : q.carved = p.carved) (system : q.system = p.system) :
      Served p bytes block q

/-- The three ways to serve a request, each with all that it does to the pool. -/
theorem alloc_cases {bytes : Nat} {a : Addr} (done : p.alloc bytes = .ok (a, q)) :
    SizeClass.fit? bytes = none ∧ p.system.grants bytes = true ∧ a = p.system.next ∧
        q = { p with
          system := p.system.advance bytes
          largeAllocations := p.largeAllocations + 1 }.grow bytes ∨
      ∃ c, SizeClass.fit? bytes = some c ∧
        ((p.shelf c).head = none ∧ p.system.grants (linkBytes + SizeClass.bytes c) = true ∧
            a = p.system.next ∧
            q = ({ p with
              system := p.system.advance (linkBytes + SizeClass.bytes c)
              carved := p.carved.insert a ⟨p.carved.size, c⟩ }.grow
                (linkBytes + SizeClass.bytes c)).setShelf c
                  { p.shelf c with
                    totalBlocks := (p.shelf c).totalBlocks + 1
                    allocations := (p.shelf c).allocations + 1 } ∨
          (p.shelf c).head = some a ∧
            q = p.setShelf c
              { p.shelf c with
                head := p.link a
                freeBlocks := (p.shelf c).freeBlocks - 1
                allocations := (p.shelf c).allocations + 1 }) := by
  have asked : ∀ {n b r}, p.request n = .ok (b, r) → p.system.grants n = true ∧ b = p.system.next ∧
      r = { p with system := p.system.advance n } := by
    intro n b r served
    unfold request at served
    split at served
    · rename_i granted
      cases served
      exact ⟨granted, rfl, rfl⟩
    · cases served
  unfold alloc at done
  split at done
  · rename_i big
    unfold allocLarge at done
    split at done
    · cases done
    · rename_i served
      obtain ⟨granted, rfl, rfl⟩ := asked served
      cases done
      exact Or.inl ⟨big, granted, rfl, rfl⟩
  · rename_i c fits
    refine Or.inr ⟨c, fits, ?_⟩
    simp only at done
    split at done
    · rename_i dry
      unfold carve at done
      simp only at done
      split at done
      · cases done
      · rename_i served
        obtain ⟨granted, rfl, rfl⟩ := asked served
        cases done
        exact Or.inl ⟨dry, granted, rfl, rfl⟩
    · rename_i block first
      cases done
      exact Or.inr ⟨first, rfl⟩

theorem alloc_served (bytes : Nat) (a : Addr) (done : p.alloc bytes = .ok (a, q)) :
    Served p bytes a q := by
  rcases alloc_cases done with ⟨big, granted, rfl, rfl⟩ | ⟨c, fits, ⟨dry, granted, rfl, rfl⟩ | ⟨first, rfl⟩⟩
  · exact .large _ big granted rfl rfl rfl (advance_next p.system bytes)
  · refine .carved c _ fits dry granted (fun d => ?_) rfl rfl (advance_next p.system _)
    rw [shelf_setShelf]
    split
    · rename_i same
      rw [same]
    · rfl
  · refine .reused c _ _ fits first (fun d => ?_) rfl rfl rfl
    rw [shelf_setShelf]
    split <;> rfl

theorem alloc_refused (bytes : Nat) (fault : Fault) (done : p.alloc bytes = .error fault) :
    SizeClass.fit? bytes = none ∧ ¬ p.system.grants bytes = true ∧ fault = .outOfMemory bytes ∨
      ∃ c, SizeClass.fit? bytes = some c ∧ (p.shelf c).head = none ∧
        ¬ p.system.grants (linkBytes + SizeClass.bytes c) = true ∧
        fault = .outOfMemory (linkBytes + SizeClass.bytes c) := by
  have asked : ∀ n fault, p.request n = .error fault →
      ¬ p.system.grants n = true ∧ fault = .outOfMemory n := by
    intro n fault refused
    unfold request at refused
    split at refused
    · cases refused
    · rename_i denied
      cases refused
      exact ⟨denied, rfl⟩
  unfold alloc at done
  split at done
  · rename_i big
    unfold allocLarge at done
    split at done
    · rename_i refused
      cases done
      exact Or.inl ⟨big, asked _ _ refused⟩
    · cases done
  · rename_i c fits
    simp only at done
    split at done
    · rename_i dry
      unfold carve at done
      simp only at done
      split at done
      · rename_i refused
        cases done
        exact Or.inr ⟨c, fits, dry, asked _ _ refused⟩
      · cases done
    · cases done

theorem alloc_stocked (stocked : p.Stocked used free) (bytes : Nat) (a : Addr)
    (done : p.alloc bytes = .ok (a, q)) :
    ¬ used a ∧ ∃ free', q.Stocked (fun b => b = a ∨ used b) free' := by
  cases alloc_served bytes a done with
  | large _ big granted shelves links carved next =>
      have heads : ∀ c, (q.shelf c).head = (p.shelf c).head := fun c => by rw [shelf, shelves, shelf]
      exact (stocked.fresh heads links next).imp id fun still => ⟨free, still⟩
  | carved c _ fits dry granted heads links carved next =>
      exact (stocked.fresh heads links next).imp id fun still => ⟨free, still⟩
  | reused c _ _ fits first heads links carved system =>
      obtain ⟨rest, stack⟩ := stocked.stack first
      refine (stocked.popped stack heads links ?_).imp id fun still => ⟨_, still⟩
      rw [system]

/-- A block that comes back lies in front of the list of its class, if it has one. -/
theorem Stocked.freed (stocked : p.Stocked used free) (bytes : Nat) (a : Addr) (isUsed : used a) :
    (p.free a bytes).Stocked (fun b => b ≠ a ∧ used b) fun d =>
      if SizeClass.fit? bytes = some d then a :: free d else free d := by
  unfold Pool.free
  cases SizeClass.fit? bytes with
  | none =>
      -- The system has it back, and hands out no address again.
      simp only [reduceCtorEq, if_false]
      exact stocked.transfer (fun _ => rfl) rfl (Nat.le_refl _) fun _ => And.right
  | some c =>
      have lists : Function.update free c (a :: free c) =
          fun d => if some c = some d then a :: free d else free d := by
        funext d
        by_cases here : d = c
        · subst here
          simp
        · simp [here, Ne.symm here]
      refine lists ▸ stocked.pushed isUsed (fun d => ?_) rfl (Nat.le_refl _)
      rw [shelf_setShelf]
      split <;> rfl

theorem free_stocked (stocked : p.Stocked used free) (bytes : Nat) (a : Addr) (isUsed : used a) :
    ∃ free', (p.free a bytes).Stocked (fun b => b ≠ a ∧ used b) free' :=
  ⟨_, stocked.freed bytes a isUsed⟩

end CountedHeap.Pool
