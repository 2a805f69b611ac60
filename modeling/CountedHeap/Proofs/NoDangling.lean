import CountedHeap.Proofs.Books
import CountedHeap.Proofs.Exactness

/-!
The contract of a heap towards its client, over every sequence of calls and in every state between
two steps.
-/

namespace CountedHeap

namespace Machine

variable {m : Machine} {owned : Addr → Nat}

theorem Sound.held_live (sound : m.Sound owned) (a : Addr) (loaded : a ∈ m.loaded) (b : Addr)
    (holds : 0 < m.heap.edges a b) : m.heap.Live b := by
  apply sound.grounded
  have held : 0 < m.held b := (m.held_pos_iff b).mpr ⟨a, loaded, holds⟩
  rw [owed]
  omega

theorem Sound.reachable_live (sound : m.Sound owned) (a : Addr)
    (reachable : m.heap.Reachable owned a) : m.heap.Live a := by
  induction reachable with
  | root owns =>
      apply sound.grounded
      rw [owed]
      omega
  | edge before edge ih =>
      rename_i b c
      have spared := sound.accounts.reachable_spared b before
      exact sound.held_live b ((m.mem_loaded b).mpr ⟨edge.1, fun doomed => absurd doomed spared⟩) c edge.2

theorem Sound.reachable_stays (sound : m.Sound owned) (a : Addr)
    (reachable : m.heap.Reachable owned a) (n : Nat) : (m.steps n).heap.Live a := by
  obtain ⟨_, _, later⟩ := sound.accounts.steps sound.orderly n
  exact ((later a).2 reachable).mpr (sound.reachable_live a reachable)

end Machine

namespace Client

variable {rule : Rule} {c d : Client}

theorem Run.accurate (run : Run rule.AtRest c d) (strict : rule.reporting)
    (sound : c.machine.Sound c.owned) (start : c.machine.Exact c.owned) :
    d.machine.Exact d.owned :=
  (run.keeps (fun _ _ small => small.accurate strict) sound start).2

theorem fresh_exact (settings : Settings) (entropy : UInt64) :
    (fresh (.initial settings entropy)).machine.Exact (fun _ => 0) := by
  constructor
  · intro a o there
    simp [fresh, Heap.initial] at there
  · exact fun a live => absurd live (Heap.initial_dead a)

/-- What a client that keeps to a rule can rely on, while work waits and at rest. -/
structure Secure (c : Client) (rule : Rule) : Prop where
  owned : ∀ a, 0 < c.owned a → c.machine.heap.Live a
  held : ∀ a ∈ c.machine.loaded, ∀ b, 0 < c.machine.heap.edges a b → c.machine.heap.Live b
  enough : ∀ a, c.machine.heap.Live a → c.machine.owed c.owned a ≤ c.machine.heap.countAt a
  balanced : rule.reporting → ∀ a, c.machine.heap.Live a →
    c.machine.heap.countAt a = c.machine.owed c.owned a
  clean : c.machine.heap.books.misuse = 0
  stays : ∀ a, c.machine.heap.Reachable c.owned a → ∀ n, (c.machine.steps n).heap.Live a
  restHeld : c.machine.idle = true → ∀ a b, c.machine.heap.Live a → 0 < c.machine.heap.edges a b →
    c.machine.heap.Live b
  restEnough : c.machine.idle = true → ∀ a, c.machine.heap.Live a →
    c.owned a + c.machine.heap.held a ≤ c.machine.heap.countAt a
  restBalanced : c.machine.idle = true → rule.reporting → ∀ a, c.machine.heap.Live a →
    c.machine.heap.countAt a = c.owned a + c.machine.heap.held a
  spared : c.machine.idle = true → ∀ a, c.machine.heap.Reachable c.owned a →
    ∀ n, (c.machine.collect.steps n).heap.Live a

/-- The books on references, over every run. What the ledger owns and what a loaded object holds is
live; no count is less than what is owed, and none is more if references are stored only where they
are reported; no release was ever refused. What can be reached from the ledger outlives whatever is
under way, and every pass. -/
theorem run_accounts (settings : Settings) (entropy : UInt64) (heap : Heap)
    (made : Heap.create settings entropy = .ok heap) (rule : Rule) (c : Client)
    (run : Run rule.AtRest (fresh heap) c) : c.Secure rule := by
  obtain rfl := Heap.create_initial made
  have start := fresh_sound settings entropy
  have sound := run.sound start
  have booked := run.booked start (fresh_booked settings entropy)
  have accurate := fun strict => run.accurate strict start (fresh_exact settings entropy)
  refine ⟨fun a owns => ?_, sound.held_live, sound.accounts.enough,
    fun strict => (accurate strict).balanced, booked.clean, sound.reachable_stays,
    fun idle a b live => ?_, fun idle => (sound.heap (Machine.calm_of_idle idle)).accounted,
    fun idle strict => ((accurate strict).heap (Machine.calm_of_idle idle)).balanced,
    fun idle a reachable n => (sound.collect idle).reachable_stays a reachable n⟩
  · apply sound.grounded
    rw [Machine.owed]
    omega
  · rw [← Heap.mem_live, ← (Machine.calm_of_idle idle).loaded] at live
    exact sound.held_live a live b

/-- Two objects that hold each other are made, dropped and collected, while a third is kept. -/
def cycleScript : List (Call × Nat) :=
  [(.declare 1 (.leading 2), 0), (.alloc 16 1 none, 0), (.alloc 16 1 none, 0),
    (.alloc 16 1 none, 0), (.assign 0x6b7000000000 0 (some 0x6b7000000060), 0),
    (.assign 0x6b7000000060 1 (some 0x6b7000000000), 0), (.release 0x6b7000000000, 0),
    (.release 0x6b7000000060, 0), (.collect, 40)]

theorem run_accounts_cycle :
    let heap := Heap.initial { collector := { minimum := 1 } } 0
    let c := (fresh heap).session cycleScript
    Run Rule.thorough.AtRest (fresh heap) c ∧ c.machine.idle = true ∧ c.owned 0x6b70000000c0 = 1 ∧
      c.machine.heap.Live 0x6b70000000c0 ∧ c.machine.heap.books.objects = 1 ∧
      c.machine.heap.books.misuse = 0 := by
  intro heap c
  have made : Heap.create { collector := { minimum := 1 } } 0 = .ok heap :=
    Heap.create_valid _ 0 (by decide +kernel)
  have run : Run Rule.thorough.AtRest (fresh heap) c :=
    Run.session .start cycleScript (by decide +kernel)
  have secure : c.Secure Rule.thorough := run_accounts _ 0 heap made Rule.thorough c run
  exact ⟨run, by decide +kernel, by decide +kernel, secure.owned _ (by decide +kernel),
    by decide +kernel, secure.clean⟩

end Client

end CountedHeap
