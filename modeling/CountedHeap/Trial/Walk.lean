import Std.Data.TreeMap
import Std.Data.TreeSet

/-!
Discovery of what candidate roots reach, breadth first. A search past its `budget` is cut off and
everything it found pinned: an edge not seen could be what keeps those nodes alive.

A walk asks for one thing at a time, since the heap may change between two questions.
-/

namespace CountedHeap.Trial

abbrev Node := Nat

inductive Look where
  | live (count : Nat)
  /-- Being destroyed: never expanded and never collected. -/
  | dying
  /-- Without a tracer: a leaf that no cycle runs through. -/
  | untracked
  deriving DecidableEq, Repr

structure Graph where
  look : Node → Look
  /-- The outgoing edges of a node, one for each reference it owns. -/
  children : Node → List Node

structure Vertex where
  node : Node
  count : Nat
  children : List Nat := []
  pinned : Bool := false
  deriving DecidableEq, Repr, Inhabited

structure Discovery where
  vertices : Array Vertex := #[]
  index : Std.TreeMap Node Nat := {}
  excluded : Std.TreeSet Node := {}
  deriving Inhabited

namespace Discovery

/-- The place of a node among the vertices; a node seen for the first time is looked at. -/
def visit (look : Node → Look) (d : Discovery) (node : Node) : Option Nat × Discovery :=
  match d.index[node]? with
  | some place => (some place, d)
  | none =>
      if d.excluded.contains node then (none, d) else
      match look node with
      | .live count =>
          let place := d.vertices.size
          (some place,
            { d with
              vertices := d.vertices.push { node, count }
              index := d.index.insert node place })
      | .dying | .untracked => (none, { d with excluded := d.excluded.insert node })

def visitAll (look : Node → Look) (d : Discovery) : List Node → List Nat × Discovery
  | [] => ([], d)
  | node :: rest =>
      let (place, d) := d.visit look node
      let (places, d) := d.visitAll look rest
      (place.toList ++ places, d)

def setChildren (d : Discovery) (place : Nat) (children : List Nat) : Discovery :=
  { d with vertices := d.vertices.modify place fun v => { v with children } }

def pinFrom (d : Discovery) (start : Nat) : Discovery :=
  { d with
    vertices := d.vertices.mapIdx fun place v => if start ≤ place then { v with pinned := true } else v }

end Discovery

structure Search where
  start : Nat
  cursor : Nat
  deriving DecidableEq, Repr

structure Walk where
  budget : Nat
  roots : List Node
  search : Option Search := none
  found : Discovery := {}
  deriving Inhabited

namespace Walk

def finished (w : Walk) : Bool := w.search.isNone && w.roots.isEmpty

/-- The node whose children the walk asks for next: the search under way has a vertex left to
expand and has not found more than its budget. -/
def asks? (w : Walk) : Option Node :=
  match w.search with
  | none => none
  | some s =>
      if w.found.vertices.size - s.start ≤ w.budget
      then (w.found.vertices[s.cursor]?).map Vertex.node else none

def expand (look : Node → Look) (children : List Node) (w : Walk) : Walk :=
  match w.search with
  | none => w
  | some s =>
      let (places, found) := w.found.visitAll look children
      { w with
        found := found.setChildren s.cursor places
        search := some { s with cursor := s.cursor + 1 } }

def close (s : Search) (w : Walk) : Walk :=
  { w with
    search := none
    found := if s.cursor < w.found.vertices.size then w.found.pinFrom s.start else w.found }

def start (look : Node → Look) (root : Node) (w : Walk) : Walk :=
  let place := w.found.vertices.size
  let (_, found) := w.found.visit look root
  { w with
    found
    search := if place < found.vertices.size then some ⟨place, place⟩ else none }

/-- A step that asks for no children: a search ends, or the next one starts. -/
def turn (look : Node → Look) (w : Walk) : Walk :=
  match w.search with
  | some s => w.close s
  | none =>
      match w.roots with
      | [] => w
      | root :: rest => { w with roots := rest }.start look root

def step (g : Graph) (w : Walk) : Walk :=
  match w.asks? with
  | some node => w.expand g.look (g.children node)
  | none => w.turn g.look

/-- How much is left of the search under way: it expands no more vertices than its budget. -/
def left (w : Walk) : Nat :=
  match w.search with
  | none => 0
  | some s => s.start + w.budget + 1 - s.cursor + 1

theorem step_decreases (g : Graph) (w : Walk) (unfinished : w.finished = false) :
    Prod.Lex (· < ·) (· < ·) ((w.step g).roots.length, (w.step g).left)
      (w.roots.length, w.left) := by
  unfold step
  split
  · rename_i node asked
    unfold asks? at asked
    split at asked
    · cases asked
    · rename_i s same
      split at asked
      · rename_i bound
        obtain ⟨v, there, _⟩ := Option.map_eq_some_iff.mp asked
        obtain ⟨inside, _⟩ := Array.getElem?_eq_some_iff.mp there
        simp only [expand, same, left]
        apply Prod.Lex.right
        omega
      · cases asked
  · unfold turn
    split
    · rename_i s same
      simp only [close, left, same]
      apply Prod.Lex.right
      omega
    · rename_i unasked
      split
      · rename_i empty
        simp [finished, unasked, empty] at unfinished
      · rename_i root rest more
        apply Prod.Lex.left
        simp [start, more]

def run (g : Graph) (w : Walk) : Walk :=
  if _ : w.finished then w else run g (w.step g)
  termination_by (w.roots.length, w.left)
  decreasing_by exact step_decreases g w (by simp_all)

end Walk

end CountedHeap.Trial
