import CountedHeap.Proofs.Estate

/-!
What a probe tells of a handle, however old it is. It describes the object that stands at the address,
and answers with nothing where none stands: a pooled object that was reclaimed is not seen until
another is made in its block, a large one never again, and an object of another heap never at all.

Two heaps take their memory from one system, which hands out no address twice; so each sees the
addresses that the other took as gone.
-/

namespace CountedHeap

open Entry (tenants)

/-- A probe at its address tells of an object all that it was made with, and its count. -/
structure Heap.Finds (h : Heap) (t : Tenant) : Prop where
  valid : h.isValid t.object = true
  count : h.refCount t.object = h.countAt t.object
  type : h.typeOf? t.object = some t.type
  size : h.sizeOf? t.object = some t.size
  offset : h.dataOffset? t.object = some Object.headerBytes

/-- A probe at the address finds nothing. -/
structure Heap.Misses (h : Heap) (a : Addr) : Prop where
  invalid : h.isValid a = false
  count : h.refCount a = 0
  type : h.typeOf? a = none
  size : h.sizeOf? a = none
  offset : h.dataOffset? a = none

namespace Heap.Kept

variable {h : Heap} {diary : List Entry} {loans : List (Addr × Nat)} {t : Tenant} {a : Addr}

theorem located (kept : h.Kept diary loans) (there : t ∈ Entry.standing diary) :
    (h.pool.owns t.object || h.large.contains t.object) = true := by
  rw [Bool.or_eq_true]
  by_cases big : SizeClass.largest < t.bytes
  · exact Or.inr (Std.TreeSet.mem_iff_contains.mp ((kept.large _).mpr ⟨t, there, rfl, big⟩))
  · refine Or.inl ?_
    have out : t.block ∈ (Entry.standing diary).map Tenant.block ++ loans :=
      List.mem_append_left _ (List.mem_map_of_mem there)
    have home := (kept.lent.home out).1
    cases fits : SizeClass.fit? t.bytes with
    | none => exact absurd ((SizeClass.fit?_eq_none_iff _).mp fits) big
    | some c =>
        rw [fits, Option.map_eq_some_iff] at home
        obtain ⟨made, found, _⟩ := home
        rw [Pool.owns, ← Std.TreeMap.isSome_getElem?_eq_contains, found]
        rfl

theorem probe_standing (kept : h.Kept diary loans) (there : t ∈ Entry.standing diary) :
    ∃ o, h.probe? t.object = some o ∧ h.objects[t.object]? = some o ∧ o.type = t.type ∧
      o.size = t.size := by
  obtain ⟨_, o, found, valid, type, size⟩ := (tenant?_eq_some_iff ..).mp ((kept.told t).mp there)
  refine ⟨o, ?_, found, type, size⟩
  rw [probe?, if_pos (kept.located there), found, Option.filter_some, if_pos valid]

theorem probe_gone (kept : h.Kept diary loans) (gone : ∀ t ∈ Entry.standing diary, t.object ≠ a) :
    h.probe? a = none := by
  unfold probe?
  split
  · rw [Option.filter_eq_none_iff]
    intro o found valid
    refine gone { object := a, type := o.type, size := o.size } ((kept.told _).mpr ?_) rfl
    exact (tenant?_eq_some_iff ..).mpr ⟨rfl, o, found, valid, rfl, rfl⟩
  · rfl

theorem finds (kept : h.Kept diary loans) (there : t ∈ Entry.standing diary) : h.Finds t := by
  obtain ⟨o, probed, found, type, size⟩ := kept.probe_standing there
  constructor <;> simp only [isValid, refCount, typeOf?, sizeOf?, dataOffset?, probed, countAt, found,
    Option.isSome_some, Option.elim_some, Option.map_some, type, size]

theorem misses (kept : h.Kept diary loans) (gone : ∀ t ∈ Entry.standing diary, t.object ≠ a) :
    h.Misses a := by
  constructor <;> simp only [isValid, refCount, typeOf?, sizeOf?, dataOffset?, kept.probe_gone gone,
    Option.isSome_none, Option.elim_none, Option.map_none]

end Heap.Kept

namespace Entry

theorem mem_tenants {diary : List Entry} {t : Tenant} : t ∈ tenants diary ↔ .made t ∈ diary := by
  rw [tenants, List.mem_filterMap]
  constructor
  · rintro ⟨entry, member, isTenant⟩
    cases entry with
    | made u =>
        cases isTenant
        exact member
    | reclaimed _ | recounted => cases isTenant
  · exact fun member => ⟨_, member, rfl⟩

theorem made_since {after past : List Entry} {t : Tenant} (there : t ∈ standing (after ++ past)) :
    .made t ∈ after ∨ t ∈ standing past := by
  induction after with
  | nil => exact Or.inr there
  | cons entry rest ih =>
      rw [List.cons_append] at there
      cases entry with
      | made u =>
          rcases List.mem_cons.mp there with rfl | old
          · exact Or.inl List.mem_cons_self
          · exact (ih old).imp_left (List.mem_cons_of_mem _)
      | reclaimed b => exact (ih (List.mem_filter.mp there).1).imp_left (List.mem_cons_of_mem _)
      | recounted => exact (ih there).imp_left (List.mem_cons_of_mem _)

theorem made_since_reclaimed {after before : List Entry} {t : Tenant}
    (there : t ∈ standing (after ++ .reclaimed t.object :: before)) : .made t ∈ after :=
  (made_since there).resolve_right (by simp [standing])

end Entry

namespace Estate

variable {e : Estate} {a : Addr}

/-- An address that the system handed to this heap: its pool carved a block there, or an object was
made there. -/
def Site (e : Estate) (a : Addr) : Prop :=
  e.heap.pool.owns a = true ∨ ∃ t, .made t ∈ e.diary ∧ t.object = a

theorem Sound.site_below (sound : e.Sound) (site : e.Site a) : a < e.heap.pool.system.next := by
  rcases site with owned | ⟨t, member, rfl⟩
  · exact sound.kept.lent.owned_below owned
  · exact (sound.kept.homes t (Entry.mem_tenants.mpr member)).1

theorem Sound.site_act (sound : e.Sound) (deed : Deed) (may : e.May deed)
    (site : (e.act deed).Site a) : e.Site a ∨ e.heap.pool.system.next ≤ a := by
  rcases site with owned | ⟨t, member, rfl⟩
  · exact ((sound.act deed may).2.owns owned).imp_left Or.inl
  · have old : .made t ∈ e.diary → e.Site t.object ∨ e.heap.pool.system.next ≤ t.object :=
      fun before => Or.inl (Or.inr ⟨t, before, rfl⟩)
    cases deed with
    | deal demand | elsewhere system => exact old member
    | step =>
        refine (List.mem_append.mp member).elim (fun isNew => ?_) old
        simp only [Machine.entering] at isNew
        split at isNew
        · cases List.mem_singleton.mp isNew
        · cases isNew
    | operate operation =>
        refine (List.mem_append.mp member).elim (fun isNew => ?_) old
        simp only [Machine.enters] at isNew
        split at isNew
        · split at isNew
          · rename_i done
            cases List.mem_singleton.mp isNew
            obtain ⟨_, _, served, _⟩ := Heap.alloc_spec _ _ _ _ done
            rcases sound.kept.lent.served served with fresh | ⟨fits, carved⟩
            · exact Or.inr (Nat.le_of_eq fresh.symm)
            · refine Or.inl (Or.inl ?_)
              rw [← carved, ne_eq, Option.map_eq_none_iff] at fits
              rw [Pool.owns, ← Std.TreeMap.isSome_getElem?_eq_contains]
              exact Option.isSome_iff_ne_none.mpr fits
          · cases isNew
        · cases List.mem_singleton.mp isNew
        · cases isNew

end Estate

/-- Two heaps over one system: one whose turn it is, and the other. -/
structure Neighbours where
  mine : Estate
  theirs : Estate
  deriving Inhabited

namespace Neighbours

inductive Move where
  | act (deed : Deed)
  | swap

def move (n : Neighbours) : Move → Neighbours
  | .act deed =>
      let e := n.mine.act deed
      { mine := e, theirs := n.theirs.act (.elsewhere e.heap.pool.system) }
  | .swap => { mine := n.theirs, theirs := n.mine }

def May (n : Neighbours) : Move → Prop
  | .act deed => n.mine.May deed
  | .swap => True

instance (n : Neighbours) : (move : Move) → Decidable (n.May move)
  | .act deed => inferInstanceAs (Decidable (n.mine.May deed))
  | .swap => inferInstanceAs (Decidable True)

inductive Run (n : Neighbours) : Neighbours → Prop where
  | start : Run n n
  | move {k : Neighbours} (move : Move) (run : Run n k) (may : k.May move) : Run n (k.move move)

def Plays (n : Neighbours) : List Move → Prop
  | [] => True
  | move :: rest => n.May move ∧ (n.move move).Plays rest

instance decidablePlays (n : Neighbours) : (moves : List Move) → Decidable (n.Plays moves)
  | [] => inferInstanceAs (Decidable True)
  | move :: rest =>
      let _ := decidablePlays (n.move move) rest
      inferInstanceAs (Decidable (_ ∧ _))

theorem Run.plays {n k : Neighbours} (run : Run n k) (moves : List Move) (plays : k.Plays moves) :
    Run n (moves.foldl Neighbours.move k) := by
  induction moves generalizing k with
  | nil => exact run
  | cons move rest ih => exact ih (run.move move plays.1) plays.2

/-- Both are sound, and no address was handed to both. -/
structure Apart (n : Neighbours) : Prop where
  mine : n.mine.Sound
  theirs : n.theirs.Sound
  system : n.theirs.heap.pool.system = n.mine.heap.pool.system
  apart : ∀ a, n.mine.Site a → ¬ n.theirs.Site a

variable {n k : Neighbours}

theorem Apart.move (apart : n.Apart) (move : Move) (may : n.May move) : (n.move move).Apart := by
  cases move with
  | swap => exact ⟨apart.theirs, apart.mine, apart.system.symm, fun a mine theirs => apart.apart a theirs mine⟩
  | act deed =>
      obtain ⟨sound, later⟩ := apart.mine.act deed may
      have allowed : n.theirs.May (.elsewhere (n.mine.act deed).heap.pool.system) := by
        rw [Estate.May, apart.system]
        exact later.next
      refine ⟨sound, (apart.theirs.act _ allowed).1, rfl, fun a mine theirs => ?_⟩
      -- Their sites are what they were, and all below the next address.
      replace theirs : n.theirs.Site a := theirs
      rcases apart.mine.site_act deed may mine with old | fresh
      · exact apart.apart a old theirs
      · have below := apart.theirs.site_below theirs
        rw [apart.system] at below
        exact absurd below (Nat.not_lt.mpr fresh)

theorem Run.apart (run : Run n k) (start : n.Apart) : k.Apart := by
  induction run with
  | start => exact start
  | move move _ may ih => exact ih.move move may

theorem apart_initial (settings settings' : Settings) (entropy entropy' : UInt64) :
    Apart
      { mine := { machine := { heap := .initial settings entropy } }
        theirs := { machine := { heap := .initial settings' entropy' } } } := by
  refine ⟨.initial settings entropy, .initial settings' entropy', rfl, fun a site => ?_⟩
  have nowhere := (Estate.Sound.initial settings entropy).site_below site
  rcases site with owned | ⟨t, member, _⟩
  · simp [Estate.heap, Heap.initial, Pool.owns] at owned
  · cases member

structure Probing (n : Neighbours) : Prop where
  standing : ∀ t ∈ n.mine.standing, n.mine.heap.Finds t
  absent : ∀ a, (∀ t ∈ n.mine.standing, t.object ≠ a) → n.mine.heap.Misses a
  reclaimed : ∀ after a before, n.mine.diary = after ++ .reclaimed a :: before →
    (∀ t, .made t ∈ after → t.object ≠ a) → n.mine.heap.isValid a = false
  large : ∀ after a before, n.mine.diary = after ++ .reclaimed a :: before →
    ∀ t, .made t ∈ before → t.object = a → SizeClass.largest < t.bytes →
      n.mine.heap.isValid a = false
  foreign : ∀ t, .made t ∈ n.theirs.diary → n.mine.heap.isValid t.object = false

/-- In every state a probe finds just the objects that were made and not reclaimed, each with its own
count, type and size and its payload behind the header. Where none stands it answers with nothing: at
the address of a reclaimed object until another is made there, at that of a large one for good, and at
that of another heap's object always. -/
theorem probing_exact (settings settings' : Settings) (entropy entropy' : UInt64) (heap heap' : Heap)
    (made : Heap.create settings entropy = .ok heap)
    (made' : Heap.create settings' entropy' = .ok heap') (n : Neighbours)
    (run : Run { mine := { machine := { heap } }, theirs := { machine := { heap := heap' } } } n) :
    n.Probing := by
  obtain rfl := Heap.create_initial made
  obtain rfl := Heap.create_initial made'
  have apart := run.apart (apart_initial settings settings' entropy entropy')
  have kept : n.mine.heap.Kept n.mine.diary n.mine.loans := apart.mine.kept
  refine ⟨fun t there => kept.finds there, fun a absent => kept.misses absent,
    fun after a before split unmade => ?_, fun after a before split t member here big => ?_,
    fun t member => ?_⟩
  · refine (kept.misses fun t there here => ?_).invalid
    subst here
    rw [split] at there
    exact unmade t (Entry.made_since_reclaimed there) rfl
  · subst here
    refine (kept.misses fun u there same => ?_).invalid
    rw [split, ← same] at there
    have isNew := Entry.made_since_reclaimed there
    have pairs := kept.large_once
    rw [split, tenants, List.filterMap_append, List.pairwise_append] at pairs
    have old : t ∈ tenants (.reclaimed t.object :: before) :=
      Entry.mem_tenants.mpr (List.mem_cons_of_mem _ member)
    exact absurd big (Nat.not_lt.mpr (pairs.2.2 u (Entry.mem_tenants.mpr isNew) t old same).2)
  · refine (kept.misses fun u there same => ?_).invalid
    have whole : n.mine.diary ++ [] = n.mine.diary := List.append_nil _
    rw [← whole] at there
    exact apart.apart t.object
      (Or.inr ⟨u, (Entry.made_since there).resolve_right (by simp [Entry.standing]), same⟩)
      (Or.inr ⟨t, member, rfl⟩)

/-- One heap makes a small object and a large one, and the other heap one of its own. Both of the first
are released; the small one's block is lent raw in between, and then holds an object of another type. -/
def probingMoves : List Move :=
  let gone : List Move :=
    [.act (.operate (.call (.alloc 16 1 none))), .act (.operate (.call (.alloc 4000 2 none))), .swap,
      .act (.operate (.call (.alloc 16 5 none))), .swap,
      .act (.operate (.releaseBatch [0x6b7000000000, 0x6b7000000060]))]
  let again : List Move :=
    [.act (.deal (.alloc 60)), .act (.deal (.free 0x6b7000000000 60)),
      .act (.operate (.call (.alloc 10 3 none))), .act (.operate (.call (.alloc 4000 4 none)))]
  gone ++ List.replicate 10 (Move.act .step) ++ again

theorem probing_exact_reuse :
    let start : Neighbours :=
      { mine := { machine := { heap := .initial {} 0 } }
        theirs := { machine := { heap := .initial {} 1 } } }
    let n := probingMoves.foldl move start
    start.Plays probingMoves ∧
      n.mine.heap.isValid 0x6b7000000000 = true ∧ n.mine.heap.typeOf? 0x6b7000000000 = some 3 ∧
      n.mine.heap.isValid 0x6b7000000060 = false ∧ n.mine.heap.isValid 0x6b7000001040 = false := by
  intro start n
  have made : Heap.create {} 0 = .ok start.mine.heap := Heap.create_valid {} 0 (by decide +kernel)
  have made' : Heap.create {} 1 = .ok start.theirs.heap := Heap.create_valid {} 1 (by decide +kernel)
  have plays : start.Plays probingMoves := by decide +kernel
  have probing : n.Probing := probing_exact {} {} 0 1 _ _ made made' n (Run.start.plays _ plays)
  have found := probing.standing { object := 0x6b7000000000, type := 3, size := 10 } (by decide +kernel)
  have large := probing.large (n.mine.diary.take 2) 0x6b7000000060 (n.mine.diary.drop 3)
    (by decide +kernel) { object := 0x6b7000000060, type := 2, size := 4000 } (by decide +kernel) rfl
    (by decide +kernel)
  exact ⟨plays, found.valid, found.type, large,
    probing.foreign { object := 0x6b7000001040, type := 5, size := 16 } (by decide +kernel)⟩

end Neighbours

end CountedHeap
