import CountedHeap.Proofs.Completeness
import CountedHeap.Proofs.Disturbed

/-!
References that are released while a pass searches. A release may come before or after its object is
inspected, and before or after its neighbours are. Either way the pass does not take the object for
garbage by mistake, and keeps it as a candidate, since its count is no longer the one recorded when
the pass started.
-/

namespace CountedHeap

open Client (lose)
open Heap (Same)

namespace Client

variable {c d : Client} {request : Call}

def LetsGo (c : Client) (request : Call) : Prop :=
  c.machine.analysing = true ∧
    match request with
    | .release a | .tryRelease a => c.Lowers a
    | _ => False

theorem LetsGo.drift (letsGo : c.LetsGo request) : c.Drift request := by
  refine ⟨letsGo.1, ?_⟩
  cases request with
  | release a | tryRelease a => exact letsGo.2
  | _ => exact letsGo.2.elim

/-- What becomes of a heap whose client lets one reference to a live object go. -/
structure Less (c d : Client) : Prop where
  counts : ∀ a, d.machine.heap.countAt a ≤ c.machine.heap.countAt a
  ledger : ∀ a, d.owned a ≤ c.owned a
  intact : c.machine.heap.Intact → d.machine.heap.Intact

theorem less_release (a : Addr) (lowers : c.Lowers a) (live : c.machine.heap.Live a) :
    c.machine.tryRelease a = .ok (c.machine.release a) ∧
      Less c { machine := c.machine.release a, owned := lose c.owned a } := by
  obtain ⟨o, word, k, there, done, changed, count, _⟩ := lowers.lowered live
  have was : c.machine.heap.countAt a = o.count := Heap.countAt_of_there there
  have now : k.countAt a = word.count.toNat := changed.countAt_here
  have frame := changed.rest
  have released := tryRelease_release _ _ a done
  refine ⟨by rw [done, released], ?_⟩
  rw [released]
  constructor
  · intro b
    by_cases here : b = a
    · subst here
      simp only [now]
      omega
    · exact (changed.countAt_others b here).le
  · intro b
    by_cases here : b = a
    · simp [here]
    · exact (lose_of_ne c.owned here).le
  · intro intact
    refine intact.transfer (changed.live_iff there rfl) (fun b dead => ?_) (by rw [frame])
    apply changed.countAt_others
    rintro rfl
    exact dead live

theorem LetsGo.less (letsGo : c.LetsGo request)
    (grounded : ∀ a, 0 < c.owned a → c.machine.heap.Live a) : Less c (c.call request) := by
  obtain ⟨_, may⟩ := letsGo
  cases request with
  | release a => exact (less_release a may (grounded a may.1)).2
  | tryRelease a =>
      obtain ⟨done, less⟩ := less_release a may (grounded a may.1)
      simp only [call, done]
      exact less
  | _ => cases may

end Client

namespace Machine

open Client (Drifted Less)

variable {c d : Client} {p : Pass} {before : Heap} {was : Addr → Nat}

/-- The search does not notice. -/
theorem Watching.letsGo (watching : c.machine.Watching p before was) (drifted : Drifted c d)
    (less : Less c d) (tidy : c.machine.Tidy) : d.machine.Watching p before was := by
  have alive := watching.same.live_iff
  have calm := watching.searching.calm
  constructor
  · refine (watching.searching.moved drifted.tasks drifted.same drifted.zero).mono fun a count seen => ?_
    exact ⟨(less.counts a).trans seen.1, seen.2⟩
  · exact watching.same.trans drifted.same
  · rw [drifted.frame]
    exact watching.registry
  · exact watching.entries
  · exact watching.minimum
  · exact watching.roomy
  · exact watching.accurate
  · exact watching.covered
  · exact fun a live => (less.counts a).trans (watching.fallen a live)
  · intro a wasLive moved traced
    have live := (alive a).mpr wasLive
    rcases Nat.lt_or_ge (c.machine.heap.countAt a) (before.countAt a) with already | level
    · exact watching.letGo a wasLive already traced
    · -- It is this release that moves the count, so the object bears the mark of a candidate.
      have counts := drifted.counts a live
      have lost : d.owned a < c.owned a := by omega
      have isSet := drifted.listed a lost (by rw [watching.same.body_of_shape.tracedAt]; exact traced)
      rw [← watching.registry]
      exact tidy.mirrored a live (tidy.unclaimed calm a live) isSet

end Machine

namespace Client

variable {c d : Client} {request : Call}

theorem LetsGo.complete (letsGo : c.LetsGo request) (complete : c.machine.Complete c.owned) :
    (c.call request).machine.Complete (c.call request).owned := by
  have drifted := letsGo.drift.drifted
  have grounded : ∀ a, 0 < c.owned a → c.machine.heap.Live a := by
    intro a owns
    apply complete.sound.grounded
    rw [Machine.owed]
    omega
  have less := letsGo.less grounded
  rcases complete.seen with ⟨cascade, _⟩ | ⟨p, before, was, watching⟩
  · obtain ⟨t, member, other⟩ := analysing_cascade c.machine letsGo.1
    rw [cascade t member] at other
    cases other
  · have calm := watching.searching.calm
    have after := watching.letsGo drifted less complete.tidy
    have tidy := complete.tidy.heap calm
    have accurate := complete.accurate.heap calm
    have heap := complete.sound.heap calm
    have body := drifted.same.body_of_shape
    have alive := drifted.same.live_iff
    generalize c.call request = d at drifted less after body alive
    have orderly : d.machine.Orderly :=
      Or.inr ⟨p, _, after.searching.mono (Machine.seen_small d.machine.heap before)⟩
    have calmAfter := after.searching.calm
    constructor
    · refine Machine.Sound.of_calm calmAfter orderly
        ⟨drifted.accounted heap.accounted, fun a owes => ?_, less.intact heap.intact⟩
      rw [drifted.same.held] at owes
      have ledger := less.ledger a
      exact (alive a).mpr (heap.grounded a (by omega))
    · refine Machine.Exact.of_calm calmAfter
        ⟨accurate.reported.shrink body fun a => (alive a).mp, fun a live => ?_⟩
      have wasLive := (alive a).mp live
      have moved := drifted.counts a wasLive
      have balance := accurate.balanced a wasLive
      rw [drifted.same.held]
      omega
    · apply Machine.Tidy.of_heap
      · constructor
        · exact fun a live =>
            (drifted.zero a ((alive a).mp live)).mpr (tidy.vital a ((alive a).mp live))
        · intro a live
          rw [drifted.same.claimedAt]
          exact tidy.unclaimed a ((alive a).mp live)
        · intro a live isSet
          rw [drifted.bits] at isSet
          rw [drifted.frame]
          exact tidy.mirrored a ((alive a).mp live) isSet
      · rw [Heap.Recorded, drifted.frame]
        exact complete.tidy.recorded
    · rw [Heap.Eager, drifted.frame]
      exact complete.eager
    · exact Or.inr ⟨p, before, was, after⟩

theorem Run.letsGo (run : Run LetsGo c d) (start : c.machine.Complete c.owned) :
    d.machine.Complete d.owned := by
  induction run with
  | start => exact start
  | call request run permitted ih => exact permitted.complete ih
  | step run ih => exact ih.step

/-- A reference that is released while a pass searches is not lost. The heap has exact counts and
nothing live is out of sight of the ledger and the registry; at the tracer calls of the search the
client releases what it owns, in any order. Then the pass ends, with nothing live out of sight; so
that, as soon as nothing is owned, one more pass leaves nothing live. -/
theorem late_release_kept (c : Client) (idle : c.machine.idle = true)
    (sound : c.machine.heap.Sound c.owned) (tidy : c.machine.heap.Tidy)
    (accurate : c.machine.heap.Exact c.owned) (covered : c.machine.heap.Covered c.owned)
    (eager : c.machine.heap.Eager) (may : Rule.thorough.passes c.machine.heap) (d : Client)
    (run : Run LetsGo { c with machine := c.machine.collect } d) :
    (∃ n, (d.machine.steps n).idle = true) ∧
    (d.machine.idle = true → d.machine.heap.Covered d.owned ∧
      ∀ e, Run Rule.thorough.AtRest d e → (∀ a, e.owned a = 0) → e.machine.idle = true →
        Rule.thorough.passes e.machine.heap →
        (∃ n, (e.machine.collect.steps n).idle = true) ∧
        ∀ n, (e.machine.collect.steps n).idle = true →
          ∀ a, ¬ (e.machine.collect.steps n).heap.Live a) := by
  obtain ⟨_, start⟩ := Machine.Complete.of_pass idle sound accurate tidy eager covered may
  have complete := run.letsGo start
  refine ⟨complete.sound.accounts.ends complete.sound.orderly, fun rests => ?_⟩
  refine ⟨complete.covered rests, fun e later nothing eRests eMay => ?_⟩
  obtain ⟨ends, exactly⟩ := (later.complete complete).collected eRests eMay
  refine ⟨ends, fun n nRests a live => ?_⟩
  exact Machine.unreachable_of_unowned e.machine.heap nothing a ((exactly n nRests a).1.mp live)

instance (c : Client) : (request : Call) → Decidable (c.LetsGo request)
  | .release a | .tryRelease a => inferInstanceAs (Decidable (_ ∧ c.Lowers a))
  | .declare _ _ | .alloc _ _ _ | .retain _ | .assign _ _ _ | .load _ _ | .take _ _
  | .addCandidate _ | .downgrade _ | .upgrade _ | .cloneHandle _ | .dropHandle _ | .configure _
  | .collect | .trigger | .memory _ | .room _ | .reorder _ =>
      inferInstanceAs (Decidable (_ ∧ False))

-- The reference goes while the tracer of the second object is called, after both were inspected.
theorem late_release_kept_cycle :
    let heap := Heap.initial { collector := { minimum := 1 } } 0
    let c := (fresh heap).session heldScript
    let d := (({ c with machine := c.machine.collect } : Client).steps 5).session
      [(.release 0x6b7000000060, 40)]
    d.machine.idle = true ∧ d.machine.heap.Covered d.owned ∧ d.machine.heap.Live 0x6b7000000060 ∧
      ¬ (d.machine.collect.steps 40).heap.Live 0x6b7000000060 := by
  intro heap c d
  have follows : Run Rule.thorough.AtRest (fresh heap) c :=
    Run.session .start heldScript (by decide +kernel)
  have idle : c.machine.idle = true := by decide +kernel
  have calm := Machine.calm_of_idle idle
  have complete := follows.complete (fresh_complete _ 0 rfl)
  have run : Run LetsGo { c with machine := c.machine.collect } d :=
    Run.session (Run.start.steps 5) [(.release 0x6b7000000060, 40)] (by decide +kernel)
  have may : Rule.thorough.passes c.machine.heap := by decide +kernel
  have kept := late_release_kept c idle (complete.sound.heap calm) (complete.tidy.heap calm)
    (complete.accurate.heap calm) (complete.covered idle) complete.eager may d run
  have rests : d.machine.idle = true := by decide +kernel
  obtain ⟨covered, later⟩ := kept.2 rests
  have nothing : ∀ a, d.owned a = 0 := by
    intro a
    by_contra owns
    have ended := run.letsGo (complete.collect idle may).2
    have live := ended.sound.grounded a (by rw [Machine.owed]; omega)
    have disowned : ∀ b ∈ d.machine.heap.live, d.owned b = 0 := by decide +kernel
    exact owns (disowned a ((d.machine.heap.mem_live a).mpr live))
  have passes : Rule.thorough.passes d.machine.heap := by decide +kernel
  have gone := (later d .start nothing rests passes).2 40 (by decide +kernel) 0x6b7000000060
  exact ⟨rests, covered, by decide +kernel, gone⟩

end Client

end CountedHeap
