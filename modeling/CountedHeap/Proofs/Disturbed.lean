import CountedHeap.Proofs.NoDangling

/-!
A pass whose counts move while it searches. Each time the search waits for a tracer the client may
retain, upgrade and release what it owns. A count may have been seen before a move or after it; the
groups that are claimed are those whose counts, at the end, are still the ones that were seen.
-/

namespace CountedHeap

open Client (gain lose)
open Heap (Same Changed)

def Machine.analysing (m : Machine) : Bool :=
  match m.tasks with
  | .callback (.tracer _) :: .expand _ _ :: _ => true
  | _ => false

namespace Client

/-- A release of an owned reference that leaves the object one, by the side of a search that has
the traced ones registered. -/
def Lowers (c : Client) (a : Addr) : Prop :=
  0 < c.owned a ∧ 2 ≤ c.machine.heap.countAt a ∧
    (c.machine.heap.tracedAt a = true → c.machine.heap.bufferedAt a = true)

/-- What the client may do at a tracer call of the search. -/
def Drift (c : Client) (request : Call) : Prop :=
  c.machine.analysing = true ∧
    match request with
    | .retain _ | .upgrade _ => True
    | .release a | .tryRelease a => c.Lowers a
    | _ => False

/-- What such a call does: a count moves with the ledger, neither from nor to zero. -/
structure Drifted (c d : Client) : Prop where
  tasks : d.machine.tasks = c.machine.tasks
  same : Same Object.shape c.machine.heap d.machine.heap
  frame : d.machine.heap =
    { c.machine.heap with objects := d.machine.heap.objects, books := d.machine.heap.books }
  bits : ∀ a, d.machine.heap.bufferedAt a = c.machine.heap.bufferedAt a
  counts : ∀ a, c.machine.heap.Live a →
    d.machine.heap.countAt a + c.owned a = c.machine.heap.countAt a + d.owned a
  zero : ∀ a, c.machine.heap.Live a →
    (0 < d.machine.heap.countAt a ↔ 0 < c.machine.heap.countAt a)
  listed : ∀ a, d.owned a < c.owned a → c.machine.heap.tracedAt a = true →
    c.machine.heap.bufferedAt a = true

variable {c d : Client}

theorem Drifted.refl (c : Client) : Drifted c c :=
  ⟨rfl, Same.refl _, rfl, fun _ => rfl, fun _ _ => rfl, fun _ _ => Iff.rfl,
    fun _ less => absurd less (Nat.lt_irrefl _)⟩

theorem drifted_of_changed {a : Addr} {o p : Object} {k : Heap} {owned : Addr → Nat}
    (there : c.machine.heap.objects[a]? = some o) (changed : Changed c.machine.heap a p k)
    (registry : k.collector.registry = c.machine.heap.collector.registry)
    (shape : p.shape = o.shape) (bit : p.buffered = o.buffered)
    (elsewhere : ∀ b, b ≠ a → owned b = c.owned b) (count : p.count + c.owned a = o.count + owned a)
    (zero : 0 < p.count ↔ 0 < o.count)
    (listed : owned a < c.owned a → o.traced = true → o.buffered = true) :
    Drifted c { c.onHeap k with owned } := by
  have was : c.machine.heap.countAt a = o.count := Heap.countAt_of_there there
  have bits : Same Object.buffered c.machine.heap k := changed.same there bit
  constructor
  · rfl
  · exact changed.same there shape
  · have frame := changed.rest
    rw [registry] at frame
    simp only [onHeap]
    rw [frame]
  · exact fun b => bits.any_eq b Object.buffered id fun _ => rfl
  · intro b _
    by_cases here : b = a
    · simp only [onHeap, here, changed.countAt_here, was, count]
    · simp only [onHeap, changed.countAt_others b here, elsewhere b here]
  · intro b _
    by_cases here : b = a
    · simp only [onHeap, here, changed.countAt_here, was, zero]
    · simp only [onHeap, changed.countAt_others b here]
  · intro b less traced
    by_cases here : b = a
    · subst here
      rw [Heap.tracedAt_of_there there] at traced
      exact (Heap.bufferedAt_of_there there).trans (listed less traced)
    · exact absurd (elsewhere b here) less.ne

theorem drifted_raised {a : Addr} {k : Heap} (raised : c.machine.heap.Raised a k) :
    Drifted c { c.onHeap k with owned := gain c.owned a } := by
  obtain ⟨o, word, there, positive, count, bit⟩ := raised
  have now : ({ o with word } : Object).count = o.count + 1 := count
  have owns : gain c.owned a a = c.owned a + 1 := gain_self ..
  refine drifted_of_changed there (Changed.of_update ({ · with word }) there) rfl rfl bit
    (fun b => gain_of_ne c.owned) ?_ ?_ ?_
  · omega
  · omega
  · omega

theorem drifted_upgrade (handle : SlotId) : Drifted c (c.call (.upgrade handle)) := by
  rcases upgrade_raised c.machine.heap handle with ⟨a, k, out, raised⟩ | ⟨k, out, same, frame⟩
  · simp only [call, out]
    exact drifted_raised raised
  · have standing := same.standing_of_face
    simp only [call, out]
    constructor
    · rfl
    · exact standing.shape_of_standing
    · simp only [onHeap]
      rw [frame]
    · exact same.bufferedAt
    · intro b _
      simp [onHeap, standing.countAt]
    · intro b _
      simp [onHeap, standing.countAt]
    · exact fun b less => absurd less (Nat.lt_irrefl _)

theorem Lowers.lowered {a : Addr} (lowers : c.Lowers a) (live : c.machine.heap.Live a) :
    ∃ o word k, c.machine.heap.objects[a]? = some o ∧
      c.machine.tryRelease a = .ok { c.machine with heap := k } ∧
      Changed c.machine.heap a { o with word } k ∧ word.count.toNat + 1 = o.count ∧ 2 ≤ o.count ∧
      k.collector.registry = c.machine.heap.collector.registry ∧ word.buffered = o.buffered := by
  obtain ⟨_, many, listed⟩ := lowers
  obtain ⟨o, there, valid⟩ := (c.machine.heap.live_iff a).mp live
  rw [Heap.countAt_of_there there] at many
  rw [Heap.tracedAt_of_there there, Heap.bufferedAt_of_there there] at listed
  obtain ⟨last, k, word, lowered, changed, count, isLast, noted⟩ :=
    c.machine.heap.lower_spec a o there valid (by omega)
  have notLast : last = false := Bool.eq_false_iff.mpr fun yes => by
    have one := (isLast.mp yes).1
    omega
  subst notLast
  rw [Bool.or_false] at changed
  refine ⟨o, word, k, there, ?_, changed, count, many, noted.calm rfl listed⟩
  simp [Machine.tryRelease, lowered, Machine.push]

theorem drifted_release (a : Addr) (lowers : c.Lowers a) :
    Drifted c { machine := c.machine.release a, owned := lose c.owned a } := by
  have elsewhere : ∀ b, b ≠ a → lose c.owned a b = c.owned b := fun b => lose_of_ne c.owned
  have less : lose c.owned a a = c.owned a - 1 := lose_self ..
  by_cases live : c.machine.heap.Live a
  · obtain ⟨o, word, k, there, done, changed, count, many, registry, bit⟩ := lowers.lowered live
    obtain ⟨owns, _, listed⟩ := lowers
    have now : ({ o with word } : Object).count + 1 = o.count := count
    rw [tryRelease_release _ _ a done]
    refine drifted_of_changed there changed registry rfl bit elsewhere ?_ ?_ fun _ => ?_
    · omega
    · omega
    · simpa only [Heap.tracedAt_of_there there, Heap.bufferedAt_of_there there] using listed
  · obtain ⟨fault, refused⟩ := c.machine.heap.lower_refused a fun both => live both.1
    have apart : ∀ b, c.machine.heap.Live b → b ≠ a := fun b alive here => live (here ▸ alive)
    simp only [Machine.release, Machine.tryRelease, refused]
    refine ⟨rfl, ⟨rfl, fun _ => rfl⟩, rfl, fun _ => rfl, ?_, fun _ _ => Iff.rfl, ?_⟩
    · intro b alive
      simp only [elsewhere b (apart b alive)]
      rfl
    · intro b fewer traced
      have here : b = a := by
        by_contra away
        exact fewer.ne (elsewhere b away)
      rw [here] at traced ⊢
      exact lowers.2.2 traced

theorem Drift.drifted {request : Call} (drift : c.Drift request) :
    Drifted c (c.call request) := by
  obtain ⟨_, may⟩ := drift
  cases request with
  | retain a =>
      simp only [call]
      split
      · rename_i k done
        exact drifted_raised (tryRetain_raised _ k a done)
      · exact Drifted.refl c
  | upgrade handle => exact drifted_upgrade handle
  | release a => exact drifted_release a may
  | tryRelease a =>
      simp only [call]
      split
      · rename_i m done
        rw [← tryRelease_release _ _ _ done]
        exact drifted_release a may
      · exact Drifted.refl c
  | _ => cases may

theorem Drifted.accounted (drifted : Drifted c d) (accounted : c.machine.heap.Accounted c.owned) :
    d.machine.heap.Accounted d.owned := by
  intro a live
  have wasLive := (drifted.same.live_iff a).mp live
  have moved := drifted.counts a wasLive
  have enough := accounted a wasLive
  rw [drifted.same.held]
  omega

theorem analysing_cascade (m : Machine) (analysing : m.analysing = true) :
    ∃ t ∈ m.tasks, t.cascades = false := by
  unfold Machine.analysing at analysing
  split at analysing
  · rename_i a p b rest tasks
    exact ⟨.expand p b, by rw [tasks]; simp, rfl⟩
  · cases analysing

/-- Until a search is over its books stay in order, whatever the client does meanwhile. -/
theorem Run.scanning (idle : c.machine.idle = true)
    (accounted : c.machine.heap.Accounted c.owned)
    (run : Run Drift { c with machine := c.machine.collect } d) :
    (∃ p roots, d.machine.Searching p (fun _ count => count < Trial.Discovery.edgeLimit) roots ∧
      d.machine.heap.Accounted d.owned) ∨ ∀ t ∈ d.machine.tasks, t.cascades = true := by
  induction run with
  | start =>
      have searching := Machine.collect_searching idle
        fun _ count => count < Trial.Discovery.edgeLimit
      exact Or.inl ⟨_, _, searching, accounted⟩
  | call request run drift ih =>
      rename_i e
      rcases ih with ⟨p, roots, searching, books⟩ | cascade
      · have drifted := drift.drifted
        exact Or.inl ⟨p, roots, searching.moved drifted.tasks drifted.same drifted.zero,
          drifted.accounted books⟩
      · obtain ⟨t, member, other⟩ := analysing_cascade e.machine drift.1
        rw [cascade t member] at other
        cases other
  | step run ih =>
      rename_i e
      rcases ih with ⟨p, roots, searching, books⟩ | cascade
      · rcases searching.step fun a _ => e.machine.heap.countAt_lt a with found | ⟨q, _, _, same, goesOn⟩
        · exact Or.inr found.cascades
        · refine Or.inl ⟨q, roots, goesOn, ?_⟩
          simp only [Client.step, same]
          exact books
      · exact Or.inr (Machine.cascades_step cascade)

/-- The safety of a pass whose counts move while it searches. Whatever the client retains, upgrades
and releases at the tracer calls of the search, what the scan claims at its end is owned by nobody
and held by members of its own group only; and what can be reached from the ledger at that moment
is never destroyed. -/
theorem scan_spares_owned (c : Client) (idle : c.machine.idle = true)
    (accounted : c.machine.heap.Accounted c.owned) (d : Client)
    (run : Run Drift { c with machine := c.machine.collect } d) (p : Pass)
    (found : d.machine.Found p) :
    let groups := (d.machine.heap.claimGroups p.minimum p.walk.found.verdict.garbage).1
    let scanned := d.machine.step
    (∀ a, scanned.heap.claimedAt a = true → d.machine.heap.claimedAt a = false →
      ∃ group ∈ groups, a ∈ group.map Prod.fst) ∧
    (∀ group ∈ groups, ∀ a ∈ group.map Prod.fst,
      scanned.heap.claimedAt a = true ∧ d.machine.heap.claimedAt a = false ∧ d.owned a = 0 ∧
        ∀ b, scanned.heap.Live b → 0 < scanned.heap.edges b a → b ∈ group.map Prod.fst) ∧
    ∀ a, scanned.heap.Live a → scanned.heap.Reachable d.owned a →
      ∀ n, (scanned.steps n).heap.Live a := by
  intro groups scanned
  rcases Run.scanning idle accounted run with ⟨q, roots, searching, books⟩ | cascade
  · have same := searching.unique found
    subst same
    have small : ∀ (a : Addr) (count : Nat), count < Trial.Discovery.edgeLimit →
        count < Trial.Discovery.edgeLimit := fun _ _ bound => bound
    have fresh := fun a isGarbage => (searching.collectable found small a isGarbage).fresh
    obtain ⟨k, claimed, _⟩ := d.machine.heap.claimGroups_fresh q.minimum
      q.walk.found.verdict.garbage searching.garbage_nodup fresh
    obtain ⟨_, _, ended, accounts, _⟩ := searching.disposed found small books
    have isGroups : groups = d.machine.heap.claims q.minimum q.walk.found.verdict.garbage := by
      simp only [groups, claimed]
    have inGarbage : ∀ group ∈ groups, ∀ a ∈ group.map Prod.fst, a ∈ d.machine.heap.garbage q := by
      intro group isGroup a inGroup
      obtain ⟨member, listed, isA⟩ := List.mem_map.mp inGroup
      rw [isGroups] at isGroup
      exact List.mem_map.mpr ⟨member, List.mem_flatten.mpr ⟨group, isGroup, listed⟩, isA⟩
    refine ⟨?_, ?_, ?_⟩
    · intro a now before
      rcases ended.only a now with already | isGarbage
      · rw [before] at already
        cases already
      · obtain ⟨member, listed, isA⟩ := List.mem_map.mp isGarbage
        obtain ⟨group, isGroup, inGroup⟩ := List.mem_flatten.mp listed
        rw [← isGroups] at isGroup
        exact ⟨group, isGroup, List.mem_map.mpr ⟨member, inGroup, isA⟩⟩
    · intro group isGroup a inGroup
      have isGarbage := inGarbage group isGroup a inGroup
      rw [isGroups] at isGroup
      obtain ⟨isVerdict, may⟩ := List.mem_filter.mp isGroup
      rw [Bool.and_eq_true] at may
      obtain ⟨unowned, alone, _⟩ := searching.isolated found small books group isVerdict may.2 a inGroup
      obtain ⟨member, listed, isA⟩ := List.mem_map.mp inGroup
      have collectable := searching.collectable found small a
        (List.mem_map.mpr ⟨member, List.mem_flatten.mpr ⟨group, isVerdict, listed⟩, isA⟩)
      refine ⟨?_, collectable.unclaimed, unowned, ?_⟩
      · rw [ended.claims a collectable.live, decide_eq_true isGarbage, Bool.or_true]
      · intro b alive holds
        rw [ended.body.edges] at holds
        exact alone b ((ended.live b).mp alive) holds
    · intro a live reachable n
      have orderly : d.machine.step.Orderly := Machine.Orderly.step (Or.inr ⟨_, _, searching⟩)
      obtain ⟨_, _, later⟩ := accounts.steps orderly n
      exact ((later a).2 reachable).mpr live
  · have impossible := cascade (.search p) (by rw [found.1]; exact List.mem_singleton_self _)
    cases impossible

instance (c : Client) (a : Addr) : Decidable (c.Lowers a) :=
  inferInstanceAs (Decidable (_ ∧ _ ∧ (_ → _)))

instance (c : Client) : (request : Call) → Decidable (c.Drift request)
  | .retain _ | .upgrade _ => inferInstanceAs (Decidable (_ ∧ True))
  | .release a | .tryRelease a => inferInstanceAs (Decidable (_ ∧ c.Lowers a))
  | .declare _ _ | .alloc _ _ _ | .assign _ _ _ | .load _ _ | .take _ _ | .addCandidate _
  | .downgrade _ | .cloneHandle _ | .dropHandle _ | .configure _ | .collect | .trigger | .memory _
  | .room _ | .reorder _ => inferInstanceAs (Decidable (_ ∧ False))

/-- Two objects that hold each other, both candidates, the second one still owned. -/
def heldScript : List (Call × Nat) :=
  [(.declare 1 (.leading 2), 0), (.alloc 16 1 none, 0), (.alloc 16 1 none, 0),
    (.assign 0x6b7000000000 0 (some 0x6b7000000060), 0),
    (.assign 0x6b7000000060 1 (some 0x6b7000000000), 0), (.addCandidate 0x6b7000000060, 0),
    (.release 0x6b7000000000, 0)]

/-- While the first tracer is called the owned one is let go, and the other is retained for a
moment. -/
def letGoScript : List (Call × Nat) :=
  [(.retain 0x6b7000000000, 0), (.release 0x6b7000000060, 0), (.release 0x6b7000000000, 7)]

theorem scan_spares_owned_cycle :
    let c := (fresh (Heap.initial {} 0)).session heldScript
    let d := (({ c with machine := c.machine.collect } : Client).steps 2).session letGoScript
    c.owned 0x6b7000000060 = 1 ∧ d.machine.step.heap.claimedAt 0x6b7000000060 = true ∧
      d.owned 0x6b7000000060 = 0 := by
  intro c d
  have run : Run Rule.lax.AtRest (fresh (Heap.initial {} 0)) c :=
    Run.session .start heldScript (by decide +kernel)
  have idle : c.machine.idle = true := by decide +kernel
  have accounted := ((run.sound (fresh_sound _ 0)).heap (Machine.calm_of_idle idle)).accounted
  have drifts : Run Drift { c with machine := c.machine.collect } d :=
    Run.session (Run.start.steps 2) letGoScript (by decide +kernel)
  have isSome : d.machine.found?.isSome = true := by decide +kernel
  obtain ⟨p, same⟩ := Option.isSome_iff_exists.mp isSome
  obtain ⟨claimed, alone, _⟩ :=
    scan_spares_owned c idle accounted d drifts p (Machine.found_of_found? same)
  have now : d.machine.step.heap.claimedAt 0x6b7000000060 = true := by decide +kernel
  obtain ⟨group, isGroup, member⟩ := claimed 0x6b7000000060 now (by decide +kernel)
  exact ⟨by decide +kernel, now, (alone group isGroup _ member).2.2.1⟩

end Client

end CountedHeap
