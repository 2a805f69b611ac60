import CountedHeap.Trial.Walk

/-!
What a finished discovery says. A vertex whose count differs from the number of discovered edges
into it is live, and so is everything it reaches; the rest is garbage, in groups joined by edges.
-/

namespace CountedHeap.Trial

/-- Members with the count that was seen for each. -/
abbrev Group := List (Node × Nat)

structure Verdict where
  visited : List (Node × Nat)
  garbage : List Group
  deriving DecidableEq, Repr

/-- A depth-first sweep: which places are marked, and the marked ones not taken yet, the one
pushed last in front. -/
structure Sweep where
  marked : Array Bool
  pending : List Nat
  deriving Inhabited

namespace Sweep

def push (s : Sweep) (place : Nat) : Sweep :=
  if s.marked.getD place true then s
  else { marked := s.marked.setIfInBounds place true, pending := place :: s.pending }

/-- Takes pending places and pushes the neighbours of each in order, until none is pending. The
places come out in the order they are taken. A place is pushed only when it gets its mark, so no
more rounds are needed than there are places. -/
def drain (next : Nat → List Nat) : (rounds : Nat) → Sweep → Array Bool × List Nat
  | 0, s => (s.marked, [])
  | rounds + 1, s =>
      match s.pending with
      | [] => (s.marked, [])
      | place :: pending =>
          let (marked, taken) := drain next rounds ((next place).foldl push { s with pending })
          (marked, place :: taken)

end Sweep

namespace Discovery

/-- The counter of edges into a place stops here. -/
def edgeLimit : Nat := UInt32.size - 1

def inside (d : Discovery) : Array Nat :=
  d.vertices.foldl (fun counts v =>
    v.children.foldl (fun counts child => counts.modify child fun n => min (n + 1) edgeLimit) counts)
    (Array.replicate d.vertices.size 0)

def childrenAt (d : Discovery) (place : Nat) : List Nat :=
  (d.vertices[place]?).elim [] Vertex.children

def held (d : Discovery) : List Nat :=
  let counts := d.inside
  (List.range d.vertices.size).filter fun place =>
    (d.vertices[place]?).any fun v => v.pinned || v.count != counts.getD place 0

def live (d : Discovery) : Array Bool :=
  let blank : Sweep := { marked := Array.replicate d.vertices.size false, pending := [] }
  ((d.held.foldl Sweep.push blank).drain d.childrenAt d.vertices.size).1

def deadEdges (d : Discovery) (live : Array Bool) : List (Nat × Nat) :=
  (List.range d.vertices.size).flatMap fun place =>
    if live.getD place true then []
    else ((d.childrenAt place).filter fun child =>
      !live.getD child true && child != place).map fun child => (place, child)

def neighbours (d : Discovery) (live : Array Bool) : Array (List Nat) :=
  (d.deadEdges live).foldr
    (fun edge lists => (lists.modify edge.1 (edge.2 :: ·)).modify edge.2 (edge.1 :: ·))
    (Array.replicate d.vertices.size [])

def entry (d : Discovery) (place : Nat) : Option (Node × Nat) :=
  (d.vertices[place]?).map fun v => (v.node, v.count)

def groupsFrom (d : Discovery) (next : Nat → List Nat) : List Nat → Array Bool → List Group
  | [], _ => []
  | seed :: rest, marked =>
      if marked.getD seed true then d.groupsFrom next rest marked else
      let (marked, taken) := (Sweep.push { marked, pending := [] } seed).drain next d.vertices.size
      taken.filterMap d.entry :: d.groupsFrom next rest marked

def verdict (d : Discovery) : Verdict :=
  let live := d.live
  let lists := d.neighbours live
  { visited := (List.range d.vertices.size).filterMap d.entry
    garbage := d.groupsFrom (fun place => lists.getD place []) (List.range d.vertices.size) live }

end Discovery

def analyze (g : Graph) (roots : List Node) (budget : Nat) : Verdict :=
  (Walk.run g { budget, roots }).found.verdict

end CountedHeap.Trial
