import CountedHeap.Trial.Walk
import Mathlib

/-!
A search over a graph whose edges stay put while its counts may move. Whatever is asked and in
whatever order, the discovery lists collectable nodes only, each once, and a vertex that was
expanded knows the place of every collectable child. A vertex that was not is pinned, or the
search under way has still to come to it.
-/

namespace CountedHeap.Trial

/-- A look at the graph: it finds exactly the collectable nodes live, and the count it reports for
one is a count that this node may have been seen with. -/
structure Agrees (collectable : Node → Prop) (counted : Node → Nat → Prop) (look : Node → Look) :
    Prop where
  live : ∀ node count, look node = .live count → collectable node ∧ counted node count
  found : ∀ node, collectable node → ∃ count, look node = .live count

variable {collectable : Node → Prop} {counted : Node → Nat → Prop}

namespace Discovery

/-- The index is the inverse of the row of vertices, and only collectable nodes are in either. -/
structure Sound (collectable : Node → Prop) (counted : Node → Nat → Prop) (d : Discovery) :
    Prop where
  indexed : ∀ node place, d.index[node]? = some place ↔
    (d.vertices[place]?).map Vertex.node = some node
  seen : ∀ (place : Nat) (v : Vertex), d.vertices[place]? = some v →
    collectable v.node ∧ counted v.node v.count
  excluded : ∀ node ∈ d.excluded, ¬ collectable node

theorem Sound.collectable_of_index {d : Discovery} (sound : d.Sound collectable counted)
    (node : Node) (place : Nat) (found : d.index[node]? = some place) : collectable node := by
  obtain ⟨v, there, same⟩ := Option.map_eq_some_iff.mp ((sound.indexed node place).mp found)
  exact same ▸ (sound.seen place v there).1

theorem Sound.mono {d : Discovery} {counted' : Node → Nat → Prop}
    (sound : d.Sound collectable counted)
    (more : ∀ node count, counted node count → counted' node count) :
    d.Sound collectable counted' :=
  ⟨sound.indexed,
    fun place v there => ⟨(sound.seen place v there).1, more _ _ (sound.seen place v there).2⟩,
    sound.excluded⟩

def Grows (d e : Discovery) : Prop :=
  (∀ (place : Nat) (v : Vertex), d.vertices[place]? = some v → e.vertices[place]? = some v) ∧
  (∀ (place : Nat) (v : Vertex), e.vertices[place]? = some v →
    d.vertices[place]? = some v ∨
      d.vertices.size ≤ place ∧ v.children = [] ∧ v.pinned = false)

theorem Grows.refl (d : Discovery) : d.Grows d := ⟨fun _ _ there => there, fun _ _ => Or.inl⟩

theorem Grows.size {d e : Discovery} (grows : d.Grows e) : d.vertices.size ≤ e.vertices.size := by
  by_contra fewer
  have inside : e.vertices.size < d.vertices.size := by omega
  have there := grows.1 _ _ (Array.getElem?_eq_getElem inside)
  have before := (Array.getElem?_eq_some_iff.mp there).1
  omega

theorem Grows.trans {d e f : Discovery} (first : d.Grows e) (second : e.Grows f) : d.Grows f := by
  refine ⟨fun place v there => second.1 place v (first.1 place v there), ?_⟩
  intro place v there
  rcases second.2 place v there with old | ⟨beyond, new⟩
  · exact first.2 place v old
  · exact Or.inr ⟨Nat.le_trans first.size beyond, new⟩

theorem Grows.index {d e : Discovery} (grows : d.Grows e) (before : d.Sound collectable counted)
    (after : e.Sound collectable counted) (node : Node) (place : Nat)
    (found : d.index[node]? = some place) : e.index[node]? = some place := by
  obtain ⟨v, there, same⟩ := Option.map_eq_some_iff.mp ((before.indexed node place).mp found)
  exact (after.indexed node place).mpr (Option.map_eq_some_iff.mpr ⟨v, grows.1 place v there, same⟩)

theorem Grows.known {d e : Discovery} (grows : d.Grows e) (before : d.Sound collectable counted)
    (after : e.Sound collectable counted) (node : Node) (known : (d.index[node]?).isSome) :
    (e.index[node]?).isSome := by
  obtain ⟨place, found⟩ := Option.isSome_iff_exists.mp known
  rw [grows.index before after node place found]
  rfl

section Changes

variable {d e : Discovery} {node : Node} {count : Nat}

/-- A vertex that is new goes behind the others. -/
theorem Sound.push (sound : d.Sound collectable counted) (absent : d.index[node]? = none)
    (isIn : collectable node) (seen : counted node count)
    (vertices : e.vertices = d.vertices.push { node, count })
    (index : e.index = d.index.insert node d.vertices.size) (excluded : e.excluded = d.excluded) :
    e.Sound collectable counted ∧ d.Grows e := by
  have lookup : ∀ place : Nat, e.vertices[place]? =
      if place = d.vertices.size then some { node, count } else d.vertices[place]? := by
    intro place
    rw [vertices, Array.getElem?_push]
  refine ⟨⟨?_, ?_, excluded ▸ sound.excluded⟩, ?_, ?_⟩
  · intro other place
    rw [index, lookup]
    simp only [Std.TreeMap.getElem?_insert, compare_eq_iff_eq]
    by_cases same : node = other
    · subst same
      simp only [if_true, Option.some.injEq]
      by_cases last : place = d.vertices.size
      · simp [last]
      · rw [if_neg last, ← sound.indexed, absent]
        simp [Ne.symm last]
    · rw [if_neg same]
      by_cases last : place = d.vertices.size
      · subst last
        rw [sound.indexed]
        simp [same]
      · rw [if_neg last, sound.indexed]
  · intro place v there
    rw [lookup] at there
    split at there
    · cases there
      exact ⟨isIn, seen⟩
    · exact sound.seen place v there
  · intro place v there
    have inside := (Array.getElem?_eq_some_iff.mp there).1
    rw [lookup, if_neg (by omega)]
    exact there
  · intro place v there
    rw [lookup] at there
    split at there
    · rename_i last
      cases there
      exact Or.inr ⟨by omega, rfl, rfl⟩
    · exact Or.inl there

theorem Sound.exclude (sound : d.Sound collectable counted) (unfit : ¬ collectable node) :
    ({ d with excluded := d.excluded.insert node } : Discovery).Sound collectable counted := by
  refine ⟨sound.indexed, sound.seen, fun other member => ?_⟩
  rw [Std.TreeSet.mem_insert] at member
  rcases member with same | old
  · rw [compare_eq_iff_eq] at same
    exact same ▸ unfit
  · exact sound.excluded other old

theorem Sound.relabel (sound : d.Sound collectable counted) (change : Nat → Vertex → Vertex)
    (lookup : ∀ place : Nat, e.vertices[place]? = (d.vertices[place]?).map (change place))
    (face : ∀ place v, (change place v).node = v.node ∧ (change place v).count = v.count)
    (index : e.index = d.index) (excluded : e.excluded = d.excluded) :
    e.Sound collectable counted := by
  refine ⟨fun other place => ?_, fun place v there => ?_, excluded ▸ sound.excluded⟩
  · have kept : Vertex.node ∘ change place = Vertex.node := funext fun v => (face place v).1
    rw [index, lookup, Option.map_map, kept]
    exact sound.indexed other place
  · rw [lookup] at there
    obtain ⟨was, old, equal⟩ := Option.map_eq_some_iff.mp there
    rw [← equal, (face place was).1, (face place was).2]
    exact sound.seen place was old

end Changes

/-- What looking for a node, or for several in turn, does to a discovery. -/
theorem visit_sound (look : Node → Look) (agrees : Agrees collectable counted look)
    (d : Discovery) (node : Node) (sound : d.Sound collectable counted) :
    (d.visit look node).2.Sound collectable counted ∧ d.Grows (d.visit look node).2 ∧
      (d.visit look node).1 = (d.visit look node).2.index[node]? ∧
      (collectable node → ((d.visit look node).2.index[node]?).isSome) := by
  unfold visit
  split
  · rename_i place found
    exact ⟨sound, Grows.refl d, found.symm, fun _ => by simp [found]⟩
  · rename_i absent
    split
    · rename_i isOut
      refine ⟨sound, Grows.refl d, absent.symm, fun isIn => ?_⟩
      exact absurd isIn (sound.excluded node (Std.TreeSet.contains_iff_mem.mp isOut))
    · split
      · rename_i count seen
        obtain ⟨isIn, isCounted⟩ := agrees.live node count seen
        have pushed := sound.push (e := { d with
          vertices := d.vertices.push { node, count }
          index := d.index.insert node d.vertices.size }) absent isIn isCounted rfl rfl rfl
        exact ⟨pushed.1, pushed.2, by simp, by simp⟩
      all_goals
        rename_i seen
        have unfit : ¬ collectable node := fun isIn => by
          obtain ⟨count, live⟩ := agrees.found node isIn
          rw [seen] at live
          cases live
        exact ⟨sound.exclude unfit, Grows.refl d, absent.symm, fun isIn => absurd isIn unfit⟩

theorem visitAll_sound (look : Node → Look) (agrees : Agrees collectable counted look)
    (nodes : List Node) (d : Discovery) (sound : d.Sound collectable counted) :
    (d.visitAll look nodes).2.Sound collectable counted ∧ d.Grows (d.visitAll look nodes).2 ∧
      (d.visitAll look nodes).1 = nodes.filterMap ((d.visitAll look nodes).2.index[·]?) ∧
      (∀ node ∈ nodes, collectable node → ((d.visitAll look nodes).2.index[node]?).isSome) := by
  induction nodes generalizing d with
  | nil => exact ⟨sound, Grows.refl d, rfl, by simp⟩
  | cons node rest ih =>
      obtain ⟨soundOne, growsOne, here, foundOne⟩ := visit_sound look agrees d node sound
      simp only [visitAll]
      generalize d.visit look node = one at soundOne growsOne here foundOne
      obtain ⟨place, e⟩ := one
      obtain ⟨soundAll, growsAll, listed, foundAll⟩ := ih e soundOne
      simp only at here foundOne growsOne ⊢
      generalize e.visitAll look rest = all at soundAll growsAll listed foundAll
      obtain ⟨places, f⟩ := all
      simp only at listed foundAll soundAll growsAll ⊢
      -- What the first node was not found as, it is not found as later either.
      have stays : f.index[node]? = place := by
        cases place with
        | some place => exact growsAll.index soundOne soundAll node place here.symm
        | none =>
            cases later : f.index[node]? with
            | none => rfl
            | some place =>
                have isIn := soundAll.collectable_of_index node place later
                have found := foundOne isIn
                rw [← here] at found
                cases found
      refine ⟨soundAll, growsOne.trans growsAll, ?_, ?_⟩
      · rw [List.filterMap_cons, stays, listed]
        cases place <;> rfl
      · intro other member isIn
        rcases List.mem_cons.mp member with same | later
        · subst same
          rw [stays, here]
          exact foundOne isIn
        · exact foundAll other later isIn

/-- The vertex was expanded: it has the place of each collectable child, in the order of the
edges. -/
def Whole (collectable : Node → Prop) (kids : Node → List Node) (d : Discovery) (v : Vertex) :
    Prop :=
  v.children = (kids v.node).filterMap (d.index[·]?) ∧
    ∀ child ∈ kids v.node, collectable child → (d.index[child]?).isSome

theorem Whole.grows {kids : Node → List Node} {d e : Discovery} {v : Vertex}
    (whole : d.Whole collectable kids v) (grows : d.Grows e) (before : d.Sound collectable counted)
    (after : e.Sound collectable counted) : e.Whole collectable kids v := by
  obtain ⟨listed, found⟩ := whole
  have stays : ∀ child ∈ kids v.node, d.index[child]? = e.index[child]? := by
    intro child member
    cases later : e.index[child]? with
    | some place =>
        have old := found child member (after.collectable_of_index child place later)
        obtain ⟨was, here⟩ := Option.isSome_iff_exists.mp old
        have same := grows.index before after child was here
        rw [here, ← same, later]
    | none =>
        cases early : d.index[child]? with
        | none => rfl
        | some place =>
            rw [grows.index before after child place early] at later
            cases later
  refine ⟨listed.trans (List.filterMap_congr stays), ?_⟩
  intro child member isIn
  rw [← stays child member]
  exact found child member isIn

end Discovery

namespace Walk

variable (kids : Node → List Node)

/-- What holds of a walk at every step, whatever the counts do between two questions. -/
structure Sound (collectable : Node → Prop) (counted : Node → Nat → Prop)
    (kids : Node → List Node) (roots : List Node) (w : Walk) : Prop where
  found : w.found.Sound collectable counted
  expanded : ∀ (place : Nat) (v : Vertex), w.found.vertices[place]? = some v →
    w.found.Whole collectable kids v ∨
      v.children = [] ∧ (v.pinned = true ∨ ∃ s, w.search = some s ∧ s.cursor ≤ place)
  search : ∀ s, w.search = some s → s.start ≤ s.cursor
  roots : ∀ root ∈ roots, collectable root →
    root ∈ w.roots ∨ (w.found.index[root]?).isSome
  /-- Only a search that found more than its budget pins anything. -/
  roomy : w.found.vertices.size ≤ w.budget →
    ∀ (place : Nat) (v : Vertex), w.found.vertices[place]? = some v → v.pinned = false

variable {kids} {roots : List Node}

theorem Sound.mono {w : Walk} {counted' : Node → Nat → Prop}
    (sound : w.Sound collectable counted kids roots)
    (more : ∀ node count, counted node count → counted' node count) :
    w.Sound collectable counted' kids roots :=
  ⟨sound.found.mono more, sound.expanded, sound.search, sound.roots, sound.roomy⟩

theorem start_sound (budget : Nat) :
    Sound collectable counted kids roots { budget, roots } := by
  constructor
  · constructor <;> simp
  · simp
  · simp
  · exact fun root member _ => Or.inl member
  · simp

theorem asked_vertex (w : Walk) (node : Node) (asked : w.asks? = some node) :
    ∃ s v, w.search = some s ∧ w.found.vertices[s.cursor]? = some v ∧ v.node = node := by
  unfold asks? at asked
  split at asked
  · cases asked
  · rename_i s same
    split at asked
    · obtain ⟨v, there, equal⟩ := Option.map_eq_some_iff.mp asked
      exact ⟨s, v, same, there, equal⟩
    · cases asked

theorem expand_sound (look : Node → Look) (agrees : Agrees collectable counted look)
    (w : Walk) (node : Node) (asked : w.asks? = some node)
    (sound : w.Sound collectable counted kids roots) :
    (w.expand look (kids node)).Sound collectable counted kids roots := by
  obtain ⟨s, placed, same, there, isNode⟩ := asked_vertex w node asked
  obtain ⟨soundAll, grows, listed, foundAll⟩ :=
    Discovery.visitAll_sound look agrees (kids node) w.found sound.found
  simp only [expand, same]
  generalize w.found.visitAll look (kids node) = all at soundAll grows listed foundAll
  obtain ⟨places, found⟩ := all
  simp only at listed foundAll soundAll grows ⊢
  have lookup : ∀ place : Nat, (found.setChildren s.cursor places).vertices[place]? =
      (found.vertices[place]?).map fun v =>
        if place = s.cursor then { v with children := places } else v := by
    intro place
    simp only [Discovery.setChildren, Array.getElem?_modify]
    by_cases here : s.cursor = place
    · simp [here]
    · simp [here, Ne.symm here]
  constructor
  · apply soundAll.relabel _ lookup _ rfl rfl
    intro place v
    split <;> exact ⟨rfl, rfl⟩
  · intro place v isThere
    rw [lookup] at isThere
    obtain ⟨was, old, equal⟩ := Option.map_eq_some_iff.mp isThere
    by_cases here : place = s.cursor
    · subst here
      rw [grows.1 _ _ there] at old
      cases old
      simp only [if_true] at equal
      subst equal
      rw [← isNode] at listed foundAll
      exact Or.inl ⟨listed, foundAll⟩
    · rw [if_neg here] at equal
      subst equal
      rcases grows.2 place was old with before | ⟨beyond, empty, _⟩
      · rcases sound.expanded place was before with whole | ⟨empty, pinned | ⟨t, searching, later⟩⟩
        · have still := whole.grows grows sound.found soundAll
          exact Or.inl ⟨still.1, still.2⟩
        · exact Or.inr ⟨empty, Or.inl pinned⟩
        · rw [same] at searching
          cases searching
          exact Or.inr ⟨empty, Or.inr ⟨_, rfl, by simp only; omega⟩⟩
      · have inside := (Array.getElem?_eq_some_iff.mp there).1
        exact Or.inr ⟨empty, Or.inr ⟨_, rfl, by simp only; omega⟩⟩
  · intro t searching
    cases searching
    have ordered := sound.search s same
    simp only
    omega
  · intro root member isIn
    exact (sound.roots root member isIn).imp id (grows.known sound.found soundAll root)
  · intro room place v isThere
    rw [lookup] at isThere
    obtain ⟨was, old, equal⟩ := Option.map_eq_some_iff.mp isThere
    have size : (found.setChildren s.cursor places).vertices.size = found.vertices.size := by
      simp [Discovery.setChildren]
    have fewer := grows.size
    simp only [size] at room
    have unpinned : was.pinned = false := by
      rcases grows.2 place was old with before | ⟨_, _, new⟩
      · exact sound.roomy (by omega) place was before
      · exact new
    rw [← equal]
    split <;> exact unpinned

/-- What the end of a search leaves of the discovery: pins, if the search was cut off. -/
theorem close_found (w : Walk) (s : Search) :
    (∀ place : Nat, (w.close s).found.vertices[place]? = (w.found.vertices[place]?).map fun v =>
        if s.cursor < w.found.vertices.size ∧ s.start ≤ place then { v with pinned := true }
        else v) ∧
      (w.close s).found.vertices.size = w.found.vertices.size ∧
      (w.close s).found.index = w.found.index ∧ (w.close s).found.excluded = w.found.excluded := by
  simp only [close]
  split
  · rename_i left
    refine ⟨fun place => ?_, ?_, rfl, rfl⟩
    · simp [left, Discovery.pinFrom, Array.getElem?_mapIdx]
    · simp [Discovery.pinFrom]
  · rename_i done
    exact ⟨fun place => by simp [done], rfl, rfl, rfl⟩

theorem close_sound (w : Walk) (s : Search) (same : w.search = some s) (asked : w.asks? = none)
    (sound : w.Sound collectable counted kids roots) :
    (w.close s).Sound collectable counted kids roots := by
  obtain ⟨lookup, size, index, excluded⟩ := close_found w s
  constructor
  · apply sound.found.relabel _ lookup _ index excluded
    intro place v
    split <;> exact ⟨rfl, rfl⟩
  · intro place v there
    rw [lookup] at there
    obtain ⟨was, old, equal⟩ := Option.map_eq_some_iff.mp there
    have inside := (Array.getElem?_eq_some_iff.mp old).1
    have ordered := sound.search s same
    rcases sound.expanded place was old with whole | ⟨empty, pinned | ⟨t, searching, later⟩⟩
    · refine Or.inl ?_
      rw [Discovery.Whole, index, ← equal]
      split <;> exact whole
    · refine Or.inr ?_
      rw [← equal]
      split
      · exact ⟨empty, Or.inl rfl⟩
      · exact ⟨empty, Or.inl pinned⟩
    · rw [same] at searching
      cases searching
      have cut : s.cursor < w.found.vertices.size ∧ s.start ≤ place := by omega
      refine Or.inr ?_
      rw [← equal, if_pos cut]
      exact ⟨empty, Or.inl rfl⟩
  · intro t searching
    simp [close] at searching
  · intro root member isIn
    rw [index]
    exact sound.roots root member isIn
  · intro room place v there
    rw [size] at room
    rw [lookup] at there
    obtain ⟨was, old, equal⟩ := Option.map_eq_some_iff.mp there
    -- Within the budget a search ends only when it has nothing left to expand.
    have done : ¬ s.cursor < w.found.vertices.size := by
      intro left
      have few : w.found.vertices.size ≤ w.budget := room
      have budget : w.found.vertices.size - s.start ≤ w.budget := by omega
      simp [asks?, same, budget, left] at asked
    rw [← equal, if_neg (fun cut => done cut.1)]
    exact sound.roomy room place was old

theorem begin_sound (look : Node → Look) (agrees : Agrees collectable counted look) (w : Walk)
    (root : Node) (rest : List Node) (idle : w.search = none) (more : w.roots = root :: rest)
    (sound : w.Sound collectable counted kids roots) :
    (start look root { w with roots := rest }).Sound collectable counted kids roots := by
  obtain ⟨soundOne, grows, _, foundOne⟩ :=
    Discovery.visit_sound look agrees w.found root sound.found
  simp only [start]
  generalize w.found.visit look root = one at soundOne grows foundOne
  obtain ⟨place, found⟩ := one
  simp only at soundOne grows foundOne ⊢
  constructor
  · exact soundOne
  · intro other v there
    rcases grows.2 other v there with before | ⟨beyond, empty, _⟩
    · rcases sound.expanded other v before with whole | ⟨empty, pinned | ⟨t, searching, _⟩⟩
      · exact Or.inl (whole.grows grows sound.found soundOne)
      · exact Or.inr ⟨empty, Or.inl pinned⟩
      · rw [idle] at searching
        cases searching
    · have inside : other < found.vertices.size := (Array.getElem?_eq_some_iff.mp there).1
      have new : w.found.vertices.size < found.vertices.size := by omega
      refine Or.inr ⟨empty, Or.inr ⟨⟨w.found.vertices.size, w.found.vertices.size⟩, ?_, beyond⟩⟩
      simp [new]
  · intro s searching
    simp only at searching
    split at searching
    · cases searching
      exact Nat.le_refl _
    · cases searching
  · intro other member isIn
    rcases sound.roots other member isIn with waits | old
    · rw [more] at waits
      rcases List.mem_cons.mp waits with same | later
      · exact Or.inr (same ▸ foundOne (same ▸ isIn))
      · exact Or.inl later
    · exact Or.inr (grows.known sound.found soundOne other old)
  · intro room other v there
    have fewer := grows.size
    rcases grows.2 other v there with before | ⟨_, _, new⟩
    · exact sound.roomy (by simp only at room; omega) other v before
    · exact new

theorem turn_sound (look : Node → Look) (agrees : Agrees collectable counted look) (w : Walk)
    (asked : w.asks? = none) (sound : w.Sound collectable counted kids roots) :
    (w.turn look).Sound collectable counted kids roots := by
  unfold turn
  split
  · rename_i s same
    exact close_sound w s same asked sound
  · rename_i idle
    split
    · exact sound
    · rename_i root rest more
      exact begin_sound look agrees w root rest idle more sound

/-- A finished walk has expanded or pinned all it found, and found every collectable root. -/
structure Finished (collectable : Node → Prop) (kids : Node → List Node) (roots : List Node)
    (d : Discovery) : Prop where
  expanded : ∀ (place : Nat) (v : Vertex), d.vertices[place]? = some v →
    d.Whole collectable kids v ∨ v.children = [] ∧ v.pinned = true
  roots : ∀ root ∈ roots, collectable root → (d.index[root]?).isSome

theorem Sound.finished {w : Walk} (sound : w.Sound collectable counted kids roots)
    (done : w.finished = true) : Finished collectable kids roots w.found := by
  simp only [Walk.finished, Bool.and_eq_true, Option.isNone_iff_eq_none, List.isEmpty_iff] at done
  obtain ⟨idle, empty⟩ := done
  constructor
  · intro place v there
    rcases sound.expanded place v there with whole | ⟨children, pinned | ⟨s, searching, _⟩⟩
    · exact Or.inl whole
    · exact Or.inr ⟨children, pinned⟩
    · rw [idle] at searching
      cases searching
  · intro root member isIn
    rcases sound.roots root member isIn with waits | old
    · rw [empty] at waits
      cases waits
    · exact old

end Walk

end CountedHeap.Trial
