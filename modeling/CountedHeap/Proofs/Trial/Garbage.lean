import CountedHeap.Proofs.Trial.Sweep

/-!
The verdict on a discovery, place by place. A place is dead when no held place leads to it. Every
discovered edge into a dead place comes from a dead one, so its count is made up by the dead, and
edges between dead places stay inside one group.
-/

namespace CountedHeap.Trial.Discovery

open Sweep (Fresh)

/-! Edges into a place -/

theorem modify_count (children : List Nat) (counts : Array Nat) (place n : Nat)
    (here : counts[place]? = some n) (small : n ≤ edgeLimit) :
    (children.foldl (fun counts child => counts.modify child fun n => min (n + 1) edgeLimit)
      counts)[place]? = some (min (n + children.count place) edgeLimit) := by
  induction children generalizing counts n with
  | nil => simp [here, Nat.min_eq_left small]
  | cons child rest ih =>
      rw [List.foldl_cons, List.count_cons]
      by_cases same : child = place
      · subst same
        have next : (counts.modify child fun n => min (n + 1) edgeLimit)[child]? =
            some (min (n + 1) edgeLimit) := by
          simp [Array.getElem?_modify, here]
        rw [ih _ _ next (Nat.min_le_right _ _)]
        simp only [BEq.rfl, ↓reduceIte, Option.some.injEq]
        omega
      · have next : (counts.modify child fun n => min (n + 1) edgeLimit)[place]? = some n := by
          simp [Array.getElem?_modify, here, same]
        rw [ih _ _ next small]
        simp [same]

def edgesInto (d : Discovery) (place : Nat) : Nat :=
  (d.vertices.toList.map fun v => v.children.count place).sum

theorem inside_eq (d : Discovery) (place : Nat) (there : place < d.vertices.size) :
    d.inside.getD place 0 = min (d.edgesInto place) edgeLimit := by
  have key : ∀ (vertices : List Vertex) (counts : Array Nat) (n : Nat),
      counts[place]? = some n → n ≤ edgeLimit →
      (vertices.foldl (fun counts v => v.children.foldl
        (fun counts child => counts.modify child fun n => min (n + 1) edgeLimit) counts)
        counts)[place]? =
      some (min (n + (vertices.map fun v => v.children.count place).sum) edgeLimit) := by
    intro vertices
    induction vertices with
    | nil =>
        intro counts n here small
        simp [here, Nat.min_eq_left small]
    | cons v rest ih =>
        intro counts n here small
        rw [List.foldl_cons]
        rw [ih _ _ (modify_count v.children counts place n here small) (Nat.min_le_right _ _)]
        simp only [List.map_cons, List.sum_cons, Option.some.injEq]
        omega
  have start : (Array.replicate d.vertices.size 0)[place]? = some 0 := by
    simp [there]
  have total := key d.vertices.toList _ 0 start (Nat.zero_le _)
  rw [Array.getD_eq_getD_getElem?, inside, ← Array.foldl_toList, total]
  simp [edgesInto]

/-! Dead places -/

def Dead (d : Discovery) (place : Nat) : Prop := Fresh d.live place

/-- One place is found from another along discovered edges. -/
inductive Leads (d : Discovery) : Nat → Nat → Prop where
  | here {place} : place < d.vertices.size → Leads d place place
  | step {source place target} : Leads d source place → target ∈ d.childrenAt place →
      target < d.vertices.size → Leads d source target

theorem mem_held (d : Discovery) (place : Nat) :
    place ∈ d.held ↔ ∃ v, d.vertices[place]? = some v ∧
      (v.pinned = true ∨ v.count ≠ min (d.edgesInto place) edgeLimit) := by
  simp only [held, List.mem_filter, List.mem_range]
  constructor
  · rintro ⟨there, ok⟩
    rw [Option.any_eq_true] at ok
    obtain ⟨v, found, why⟩ := ok
    refine ⟨v, found, ?_⟩
    rw [inside_eq d place there] at why
    simpa using why
  · rintro ⟨v, found, why⟩
    obtain ⟨there, _⟩ := Array.getElem?_eq_some_iff.mp found
    refine ⟨there, ?_⟩
    rw [found, inside_eq d place there]
    simpa using why

/-- What the marks of the live places say. -/
structure Judged (d : Discovery) : Prop where
  size : d.live.size = d.vertices.size
  balanced : ∀ place, d.Dead place → ∃ v, d.vertices[place]? = some v ∧ v.pinned = false ∧
    v.count = min (d.edgesInto place) edgeLimit
  backward : ∀ source place, d.Dead place → source < d.vertices.size →
    place ∈ d.childrenAt source → d.Dead source
  reached : ∀ place, place < d.vertices.size → ¬ d.Dead place →
    ∃ root ∈ d.held, d.Leads root place

theorem judged (d : Discovery) : d.Judged := by
  generalize start : (d.held.foldl Sweep.push
    { marked := Array.replicate d.vertices.size false, pending := [] }) = s
  obtain ⟨news, pending, once, member, fresh, size, ahead⟩ := Sweep.foldl_push d.held
    { marked := Array.replicate d.vertices.size false, pending := [] }
  rw [start] at pending fresh size ahead
  have blank : ∀ place, Fresh (Array.replicate d.vertices.size false) place ↔
      place < d.vertices.size := by
    intro place
    simp [Fresh, Array.getElem?_replicate]
  have heldInside : ∀ place ∈ d.held, place < d.vertices.size := by
    intro place isHeld
    obtain ⟨v, found, _⟩ := (mem_held d place).mp isHeld
    exact (Array.getElem?_eq_some_iff.mp found).1
  simp only [List.append_nil] at pending
  have ready : s.Ready := by
    constructor
    · rw [pending]
      exact once
    · intro place waits still
      rw [pending, member] at waits
      exact ((fresh place).mp still).2 waits.1
  have swept := Sweep.drain_swept d.childrenAt d.vertices.size s
    (by rw [ahead]; simp [Sweep.ahead]) ready
  have live : (Sweep.drain d.childrenAt d.vertices.size s).1 = d.live := by
    rw [Discovery.live, start]
  rw [live] at swept
  simp only [Array.size_replicate] at size
  have startFresh : ∀ place, Fresh s.marked place ↔ place < d.vertices.size ∧ place ∉ d.held := by
    intro place
    rw [fresh, blank]
  constructor
  · exact swept.size.trans size
  · intro place dead
    obtain ⟨inside, unheld⟩ := (startFresh place).mp ((swept.fresh place).mp dead).1
    refine ⟨d.vertices[place], Array.getElem?_eq_getElem inside, ?_⟩
    rw [mem_held] at unheld
    have free := not_exists.mp unheld d.vertices[place]
    simpa [Array.getElem?_eq_getElem inside] using free
  · intro source place dead inside edge
    apply (swept.fresh source).mpr
    have untaken : source ∉ (Sweep.drain d.childrenAt d.vertices.size s).2 := fun taken =>
      swept.closed source taken place edge dead
    refine ⟨(startFresh source).mpr ⟨inside, fun isHeld => untaken ?_⟩, untaken⟩
    apply swept.pending
    rw [pending, member]
    exact ⟨isHeld, (blank source).mpr inside⟩
  · intro place inside alive
    have taken : place ∈ (Sweep.drain d.childrenAt d.vertices.size s).2 ∨ place ∈ d.held := by
      by_contra neither
      rw [not_or] at neither
      exact alive ((swept.fresh place).mpr ⟨(startFresh place).mpr ⟨inside, neither.2⟩, neither.1⟩)
    rcases taken with taken | isHeld
    · refine swept.least (fun place => ∃ root ∈ d.held, d.Leads root place) ?_ ?_ place taken
      · intro place waits
        rw [pending, member] at waits
        exact ⟨place, waits.1, .here (heldInside place waits.1)⟩
      · rintro place other ⟨root, isHeld, leads⟩ edge still
        exact ⟨root, isHeld, .step leads edge ((startFresh other).mp still).1⟩
    · exact ⟨place, isHeld, .here inside⟩

/-! Groups -/

theorem mem_deadEdges (d : Discovery) (source target : Nat) :
    (source, target) ∈ d.deadEdges d.live ↔
      d.Dead source ∧ d.Dead target ∧ target ≠ source ∧ target ∈ d.childrenAt source := by
  simp only [deadEdges, List.mem_flatMap, List.mem_range]
  constructor
  · rintro ⟨place, _, member⟩
    split at member
    · cases member
    · rename_i dead
      rw [Bool.not_eq_true, Sweep.fresh_iff] at dead
      simp only [List.mem_map, List.mem_filter, Bool.and_eq_true, Bool.not_eq_true',
        bne_iff_ne, Prod.mk.injEq] at member
      obtain ⟨child, ⟨edge, childDead, apart⟩, rfl, rfl⟩ := member
      exact ⟨dead, (Sweep.fresh_iff _ _).mp childDead, apart, edge⟩
  · rintro ⟨sourceDead, targetDead, apart, edge⟩
    have inside := Sweep.fresh_inside _ _ sourceDead
    rw [(judged d).size] at inside
    refine ⟨source, inside, ?_⟩
    rw [(Sweep.fresh_iff _ _).mpr sourceDead]
    simp only [Bool.false_eq_true, ↓reduceIte, List.mem_map, List.mem_filter, Bool.and_eq_true,
      Bool.not_eq_true', bne_iff_ne, Prod.mk.injEq]
    exact ⟨target, ⟨edge, (Sweep.fresh_iff _ _).mpr targetDead, apart⟩, trivial, rfl⟩

def beside (d : Discovery) (place : Nat) : List Nat := (d.neighbours d.live).getD place []

theorem mem_beside (d : Discovery) (place other : Nat) (inside : place < d.vertices.size) :
    other ∈ d.beside place ↔
      (place, other) ∈ d.deadEdges d.live ∨ (other, place) ∈ d.deadEdges d.live := by
  rw [beside, neighbours, Array.getD_eq_getD_getElem?]
  have key : ∀ edges : List (Nat × Nat), ∃ row, (edges.foldr
      (fun edge lists => (lists.modify edge.1 (edge.2 :: ·)).modify edge.2 (edge.1 :: ·))
      (Array.replicate d.vertices.size []))[place]? = some row ∧
      (other ∈ row ↔ (place, other) ∈ edges ∨ (other, place) ∈ edges) := by
    intro edges
    induction edges with
    | nil => exact ⟨[], by simp [inside], by simp⟩
    | cons edge rest ih =>
        obtain ⟨row, found, member⟩ := ih
        obtain ⟨source, target⟩ := edge
        simp only [List.foldr_cons, Array.getElem?_modify, found, List.mem_cons, Prod.mk.injEq]
        by_cases isSource : source = place <;> by_cases isTarget : target = place
        · refine ⟨source :: target :: row, by simp [isSource, isTarget], ?_⟩
          simp only [List.mem_cons, member, isSource, isTarget, true_and]
          tauto
        · refine ⟨target :: row, by simp [isSource, isTarget], ?_⟩
          simp only [List.mem_cons, member, isSource, true_and, Ne.symm isTarget, and_false,
            false_or]
          tauto
        · refine ⟨source :: row, by simp [isSource, isTarget], ?_⟩
          simp only [List.mem_cons, member, isTarget, and_true, Ne.symm isSource, false_and,
            false_or]
          tauto
        · refine ⟨row, by simp [isSource, isTarget], ?_⟩
          simp only [member, Ne.symm isSource, Ne.symm isTarget, false_and, and_false, false_or]
  obtain ⟨row, found, member⟩ := key (d.deadEdges d.live)
  rw [found]
  exact member

theorem beside_symm (d : Discovery) (place other : Nat) (inside : place < d.vertices.size)
    (edge : other ∈ d.beside place) : other < d.vertices.size ∧ place ∈ d.beside other := by
  rw [mem_beside d place other inside] at edge
  have otherDead : d.Dead other := by
    rcases edge with out | back
    · exact ((mem_deadEdges d place other).mp out).2.1
    · exact ((mem_deadEdges d other place).mp back).1
  have otherInside := Sweep.fresh_inside _ _ otherDead
  rw [(judged d).size] at otherInside
  exact ⟨otherInside, (mem_beside d other place otherInside).mpr (Or.comm.mp edge)⟩

/-- Groups of places: each as a sweep takes it, no two with a common place, and none with an edge
to an open place outside it. -/
structure Grouped (next : Nat → List Nat) (seeds : List Nat) (marked : Array Bool)
    (groups : List (List Nat)) : Prop where
  inhabited : ∀ group ∈ groups, group ≠ []
  once : groups.flatten.Nodup
  fresh : ∀ place ∈ groups.flatten, Fresh marked place
  covers : ∀ place ∈ seeds, Fresh marked place → place ∈ groups.flatten
  closed : ∀ group ∈ groups, ∀ place ∈ group, ∀ other ∈ next place, Fresh marked other →
    other ∈ group

section Groups

variable {next : Nat → List Nat} {seed : Nat} {rest taken : List Nat} {marked left : Array Bool}
  {groups : List (List Nat)}

theorem Grouped.skip (grouped : Grouped next rest marked groups) (closed : ¬ Fresh marked seed) :
    Grouped next (seed :: rest) marked groups := by
  refine ⟨grouped.inhabited, grouped.once, grouped.fresh, ?_, grouped.closed⟩
  intro place member old
  rcases List.mem_cons.mp member with same | later
  · exact absurd (same ▸ old) closed
  · exact grouped.covers place later old

theorem Grouped.cons (grouped : Grouped next rest left groups)
    (flood : Sweep.Flood next marked seed left taken)
    (symm : ∀ place other, Fresh marked place → other ∈ next place → place ∈ next other) :
    Grouped next (seed :: rest) marked (taken :: groups) := by
  constructor
  · intro group member
    rcases List.mem_cons.mp member with same | later
    · subst same
      exact List.ne_nil_of_mem flood.seed
    · exact grouped.inhabited group later
  · rw [List.flatten_cons, List.nodup_append]
    refine ⟨flood.once, grouped.once, ?_⟩
    intro place here other there equal
    subst equal
    exact ((flood.marks place).mp (grouped.fresh place there)).2 here
  · intro place member
    rw [List.flatten_cons, List.mem_append] at member
    rcases member with here | there
    · exact flood.fresh place here
    · exact ((flood.marks place).mp (grouped.fresh place there)).1
  · intro place member old
    rw [List.flatten_cons, List.mem_append]
    by_cases here : place ∈ taken
    · exact Or.inl here
    · rcases List.mem_cons.mp member with same | later
      · exact absurd (same ▸ flood.seed) here
      · exact Or.inr (grouped.covers place later ((flood.marks place).mpr ⟨old, here⟩))
  · intro group member place here other edge old
    rcases List.mem_cons.mp member with same | later
    · subst same
      by_contra untaken
      exact flood.closed place here other edge ((flood.marks other).mpr ⟨old, untaken⟩)
    · have placeLeft := grouped.fresh place (List.mem_flatten_of_mem later here)
      have placeFresh := ((flood.marks place).mp placeLeft).1
      -- An edge back into the first group would have taken this place with it.
      have untaken : other ∉ taken := fun isTaken =>
        flood.closed other isTaken place (symm place other placeFresh edge) placeLeft
      exact grouped.closed group later place here other edge ((flood.marks other).mpr ⟨old, untaken⟩)

end Groups

/-- Each group hangs together, and the groups come in the order of their first places. -/
structure Led (next : Nat → List Nat) (groups : List (List Nat)) : Prop where
  linked : ∀ group ∈ groups, ∃ seed ∈ group, ∀ place ∈ group,
    Relation.ReflTransGen (fun x y => y ∈ next x) seed place
  ordered : groups.Pairwise fun before after => ∃ first ∈ before, ∀ other ∈ after, first < other

theorem Led.cons {next : Nat → List Nat} {seed : Nat} {taken : List Nat}
    {groups : List (List Nat)} (led : Led next groups) (isTaken : seed ∈ taken)
    (linked : ∀ place ∈ taken, Relation.ReflTransGen (fun x y => y ∈ next x) seed place)
    (later : ∀ place ∈ groups.flatten, seed < place) : Led next (taken :: groups) := by
  constructor
  · intro group member
    rcases List.mem_cons.mp member with same | other
    · subst same
      exact ⟨seed, isTaken, linked⟩
    · exact led.linked group other
  · refine List.pairwise_cons.mpr ⟨fun group member => ⟨seed, isTaken, ?_⟩, led.ordered⟩
    exact fun place here => later place (List.mem_flatten_of_mem member here)

/-- The seeds are in order, and nothing but seeds is open. -/
theorem groupsFrom_grouped (d : Discovery) (next : Nat → List Nat) (seeds : List Nat)
    (marked : Array Bool) (size : marked.size = d.vertices.size)
    (symm : ∀ place other, place < d.vertices.size → other ∈ next place → place ∈ next other)
    (sorted : seeds.Pairwise (· < ·)) (all : ∀ place, Fresh marked place → place ∈ seeds) :
    ∃ groups, d.groupsFrom next seeds marked = groups.map (·.filterMap d.entry) ∧
      Grouped next seeds marked groups ∧ Led next groups := by
  induction seeds generalizing marked with
  | nil => exact ⟨[], rfl, by constructor <;> simp, by constructor <;> simp⟩
  | cons seed rest ih =>
      obtain ⟨first, sortedRest⟩ := List.pairwise_cons.mp sorted
      by_cases fresh : Fresh marked seed
      · have unmarked := (Sweep.fresh_iff marked seed).mpr fresh
        have flood := Sweep.flood next d.vertices.size marked seed (Nat.le_of_eq size) fresh
        have linked := Sweep.flood_linked next d.vertices.size marked seed (Nat.le_of_eq size) fresh
        generalize drained : Sweep.drain next d.vertices.size
          (Sweep.push { marked, pending := [] } seed) = out at flood linked
        obtain ⟨left, taken⟩ := out
        have remain : ∀ place, Fresh left place → place ∈ rest := by
          intro place still
          obtain ⟨old, untaken⟩ := (flood.marks place).mp still
          rcases List.mem_cons.mp (all place old) with same | later
          · exact absurd (same ▸ flood.seed) untaken
          · exact later
        obtain ⟨groups, listed, grouped, led⟩ :=
          ih left (flood.size.trans size) sortedRest remain
        refine ⟨taken :: groups, ?_, grouped.cons flood fun place other fresh => ?_,
          led.cons flood.seed linked fun place here => ?_⟩
        · simp [groupsFrom, unmarked, drained, listed]
        · exact symm place other (size ▸ Sweep.fresh_inside marked place fresh)
        · exact first place (remain place (grouped.fresh place here))
      · have skipped : d.groupsFrom next (seed :: rest) marked = d.groupsFrom next rest marked := by
          rw [← Sweep.fresh_iff, Bool.not_eq_false] at fresh
          simp [groupsFrom, fresh]
        have remain : ∀ place, Fresh marked place → place ∈ rest := by
          intro place still
          rcases List.mem_cons.mp (all place still) with same | later
          · exact absurd (same ▸ still) fresh
          · exact later
        obtain ⟨groups, listed, grouped, led⟩ := ih marked size sortedRest remain
        exact ⟨groups, skipped.trans listed, grouped.skip fresh, led⟩

theorem garbage_led (d : Discovery) : ∃ groups,
    d.verdict.garbage = groups.map (·.filterMap d.entry) ∧
      Grouped d.beside (List.range d.vertices.size) d.live groups ∧ Led d.beside groups := by
  apply groupsFrom_grouped d d.beside (List.range d.vertices.size) d.live (judged d).size
  · exact fun place other inside edge => (beside_symm d place other inside edge).2
  · exact List.pairwise_lt_range
  · intro place fresh
    rw [List.mem_range, ← (judged d).size]
    exact Sweep.fresh_inside _ _ fresh

theorem garbage_grouped (d : Discovery) : ∃ groups,
    d.verdict.garbage = groups.map (·.filterMap d.entry) ∧
      Grouped d.beside (List.range d.vertices.size) d.live groups := by
  obtain ⟨groups, listed, grouped, _⟩ := garbage_led d
  exact ⟨groups, listed, grouped⟩

end CountedHeap.Trial.Discovery
