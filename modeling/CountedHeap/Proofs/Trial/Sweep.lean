import CountedHeap.Trial.Verdict
import Mathlib

/-!
A sweep takes exactly the places that its pending ones lead to. It never takes a place twice,
since a place is pushed only when it gets its mark, and it has rounds enough for all of them.
-/

namespace CountedHeap.Trial.Sweep

variable (next : Nat → List Nat)

def Fresh (marked : Array Bool) (place : Nat) : Prop := marked[place]? = some false

theorem fresh_iff (marked : Array Bool) (place : Nat) :
    marked.getD place true = false ↔ Fresh marked place := by
  rw [Fresh, Array.getD_eq_getD_getElem?]
  cases marked[place]? <;> simp

theorem fresh_inside (marked : Array Bool) (place : Nat) (fresh : Fresh marked place) :
    place < marked.size := by
  obtain ⟨inside, _⟩ := Array.getElem?_eq_some_iff.mp fresh
  exact inside

/-- Every place is still to be taken or was never marked: the rounds a sweep needs. -/
def ahead (s : Sweep) : Nat := s.pending.length + s.marked.count false

theorem push_stale (s : Sweep) (place : Nat) (stale : ¬ Fresh s.marked place) :
    s.push place = s := by
  rw [← fresh_iff, Bool.not_eq_false] at stale
  simp [push, stale]

theorem push_fresh (s : Sweep) (place : Nat) (fresh : Fresh s.marked place) :
    (s.push place).pending = place :: s.pending ∧
      (∀ other, Fresh (s.push place).marked other ↔ Fresh s.marked other ∧ other ≠ place) ∧
      (s.push place).marked.size = s.marked.size ∧ (s.push place).ahead = s.ahead := by
  have inside := fresh_inside s.marked place fresh
  have unmarked := (fresh_iff s.marked place).mpr fresh
  have pushed : s.push place =
      { marked := s.marked.setIfInBounds place true, pending := place :: s.pending } := by
    simp [push, unmarked]
  rw [pushed]
  refine ⟨rfl, ?_, Array.size_setIfInBounds, ?_⟩
  · intro other
    simp only [Fresh, Array.getElem?_setIfInBounds]
    by_cases same : place = other
    · subst same
      simp [inside]
    · simp [same, Ne.symm same]
  · obtain ⟨_, here⟩ := Array.getElem?_eq_some_iff.mp fresh
    have member : false ∈ s.marked := by
      rw [← here]
      exact Array.getElem_mem inside
    have positive := Array.count_pos_iff.mpr member
    simp only [ahead, Array.setIfInBounds, inside, ↓reduceDIte, List.length_cons]
    rw [Array.count_set]
    simp only [here]
    simp
    omega

theorem foldl_push (places : List Nat) (s : Sweep) :
    ∃ news, (places.foldl push s).pending = news ++ s.pending ∧ news.Nodup ∧
      (∀ place, place ∈ news ↔ place ∈ places ∧ Fresh s.marked place) ∧
      (∀ place, Fresh (places.foldl push s).marked place ↔
        Fresh s.marked place ∧ place ∉ places) ∧
      (places.foldl push s).marked.size = s.marked.size ∧
      (places.foldl push s).ahead = s.ahead := by
  induction places generalizing s with
  | nil => exact ⟨[], by simp⟩
  | cons first rest ih =>
      obtain ⟨news, pending, nodup, member, fresh, size, ahead⟩ := ih (s.push first)
      simp only [List.foldl_cons]
      by_cases new : Fresh s.marked first
      · obtain ⟨front, marks, same, steady⟩ := push_fresh s first new
        refine ⟨news ++ [first], ?_, ?_, ?_, ?_, size.trans same, ahead.trans steady⟩
        · rw [pending, front, List.append_assoc, List.singleton_append]
        · rw [List.nodup_append]
          refine ⟨nodup, List.nodup_singleton first, ?_⟩
          intro place inNews other single equal
          rw [List.mem_singleton] at single
          have apart := ((marks place).mp ((member place).mp inNews).2).2
          exact apart (equal.trans single)
        · intro place
          rw [List.mem_append, member, marks, List.mem_singleton, List.mem_cons]
          by_cases same : place = first
          · subst same
            simp [new]
          · simp [same]
        · intro place
          rw [fresh, marks, List.mem_cons, not_or]
          constructor
          · rintro ⟨⟨old, apart⟩, unpushed⟩
            exact ⟨old, apart, unpushed⟩
          · rintro ⟨old, apart, unpushed⟩
            exact ⟨⟨old, apart⟩, unpushed⟩
      · rw [push_stale s first new] at *
        refine ⟨news, pending, nodup, ?_, ?_, size, ahead⟩
        · intro place
          rw [member, List.mem_cons]
          constructor
          · rintro ⟨inRest, old⟩
            exact ⟨Or.inr inRest, old⟩
          · rintro ⟨same | inRest, old⟩
            · exact absurd (same ▸ old) new
            · exact ⟨inRest, old⟩
        · intro place
          rw [fresh, List.mem_cons, not_or]
          constructor
          · rintro ⟨old, unpushed⟩
            exact ⟨old, fun same => new (same ▸ old), unpushed⟩
          · rintro ⟨old, _, unpushed⟩
            exact ⟨old, unpushed⟩

/-- What a sweep from `s` leaves behind: the marks, and the places it took. -/
structure Swept (s : Sweep) (marked : Array Bool) (taken : List Nat) : Prop where
  size : marked.size = s.marked.size
  fresh : ∀ place, Fresh marked place ↔ Fresh s.marked place ∧ place ∉ taken
  origin : ∀ place ∈ taken, place ∈ s.pending ∨ Fresh s.marked place
  pending : ∀ place ∈ s.pending, place ∈ taken
  closed : ∀ place ∈ taken, ∀ other ∈ next place, ¬ Fresh marked other
  nodup : taken.Nodup
  least : ∀ within : Nat → Prop, (∀ place ∈ s.pending, within place) →
    (∀ place other, within place → other ∈ next place → Fresh s.marked other → within other) →
    ∀ place ∈ taken, within place

/-- Every pending place has its mark, and is pending once. -/
structure Ready (s : Sweep) : Prop where
  once : s.pending.Nodup
  marks : ∀ place ∈ s.pending, ¬ Fresh s.marked place

/-- One round: a pending place makes way for the fresh ones that it leads to. -/
structure Round (s : Sweep) (head : Nat) (middle : Sweep) : Prop where
  size : middle.marked.size = s.marked.size
  fresh : ∀ place, Fresh middle.marked place ↔ Fresh s.marked place ∧ place ∉ next head
  pending : ∀ place, place ∈ middle.pending ↔
    place ∈ s.pending ∧ place ≠ head ∨ place ∈ next head ∧ Fresh s.marked place

variable {next} {s middle : Sweep} {head : Nat} {tail taken : List Nat} {marked : Array Bool}

theorem Ready.round (ready : s.Ready) (waiting : s.pending = head :: tail)
    (pushed : (next head).foldl push { s with pending := tail } = middle) :
    Round next s head middle ∧ middle.Ready ∧ middle.ahead + 1 = s.ahead := by
  obtain ⟨once, marks⟩ := ready
  rw [waiting] at once marks
  obtain ⟨headOnce, tailOnce⟩ := List.nodup_cons.mp once
  obtain ⟨news, pending, newsOnce, member, fresh, size, steady⟩ :=
    foldl_push (next head) { s with pending := tail }
  rw [pushed] at pending fresh size steady
  simp only at pending member fresh size
  have waits : ∀ place, place ∈ middle.pending ↔
      place ∈ tail ∨ place ∈ next head ∧ Fresh s.marked place := by
    intro place
    rw [pending, List.mem_append, member, or_comm]
  refine ⟨⟨size, fresh, fun place => ?_⟩, ⟨?_, ?_⟩, ?_⟩
  · rw [waits, waiting, List.mem_cons]
    apply or_congr_left
    constructor
    · intro inTail
      exact ⟨Or.inr inTail, fun same => headOnce (same ▸ inTail)⟩
    · rintro ⟨here, apart⟩
      exact here.resolve_left apart
  · rw [pending, List.nodup_append]
    refine ⟨newsOnce, tailOnce, ?_⟩
    intro place inNews other inTail equal
    rw [← equal] at inTail
    exact marks place (List.mem_cons_of_mem head inTail) ((member place).mp inNews).2
  · intro place isPending still
    obtain ⟨old, unpushed⟩ := (fresh place).mp still
    rcases (waits place).mp isPending with inTail | isNew
    · exact marks place (List.mem_cons_of_mem head inTail) old
    · exact unpushed isNew.1
  · rw [steady]
    simp only [ahead, waiting, List.length_cons]
    omega

theorem Round.swept (round : Round next s head middle) (ready : s.Ready)
    (isPending : head ∈ s.pending) (swept : Swept next middle marked taken) :
    Swept next s marked (head :: taken) := by
  have isMarked := ready.marks head isPending
  -- The place of the round is not pending any more, nor can it become so again.
  have unpending : head ∉ middle.pending := by
    rw [round.pending]
    rintro (⟨_, apart⟩ | ⟨_, fresh⟩)
    · exact apart rfl
    · exact isMarked fresh
  constructor
  · exact swept.size.trans round.size
  · intro place
    rw [swept.fresh, round.fresh, List.mem_cons, not_or]
    constructor
    · rintro ⟨⟨old, _⟩, untaken⟩
      exact ⟨old, fun same => isMarked (same ▸ old), untaken⟩
    · rintro ⟨old, _, untaken⟩
      refine ⟨⟨old, fun inNext => untaken ?_⟩, untaken⟩
      exact swept.pending place ((round.pending place).mpr (Or.inr ⟨inNext, old⟩))
  · intro place here
    rcases List.mem_cons.mp here with same | later
    · exact Or.inl (same ▸ isPending)
    · rcases swept.origin place later with waits | still
      · exact ((round.pending place).mp waits).imp And.left And.right
      · exact Or.inr ((round.fresh place).mp still).1
  · intro place waits
    by_cases same : place = head
    · exact same ▸ List.mem_cons_self
    · apply List.mem_cons_of_mem
      exact swept.pending place ((round.pending place).mpr (Or.inl ⟨waits, same⟩))
  · intro place here other inNext still
    rcases List.mem_cons.mp here with same | later
    · subst same
      exact ((round.fresh other).mp ((swept.fresh other).mp still).1).2 inNext
    · exact swept.closed place later other inNext still
  · apply List.nodup_cons.mpr
    refine ⟨fun again => ?_, swept.nodup⟩
    rcases swept.origin head again with waits | still
    · exact unpending waits
    · exact isMarked ((round.fresh head).mp still).1
  · intro within start step
    have first := start head isPending
    have rest : ∀ place ∈ taken, within place := by
      apply swept.least within
      · intro place waits
        rcases (round.pending place).mp waits with old | isNew
        · exact start place old.1
        · exact step head place first isNew.1 isNew.2
      · intro place other inside inNext still
        exact step place other inside inNext ((round.fresh other).mp still).1
    intro place here
    rcases List.mem_cons.mp here with same | later
    · exact same ▸ first
    · exact rest place later

theorem drain_swept (next : Nat → List Nat) (rounds : Nat) (s : Sweep) (enough : s.ahead ≤ rounds)
    (ready : s.Ready) : Swept next s (drain next rounds s).1 (drain next rounds s).2 := by
  induction rounds generalizing s with
  | zero =>
      have empty : s.pending = [] := by
        rw [ahead] at enough
        exact List.eq_nil_of_length_eq_zero (by omega)
      constructor <;> simp [drain, empty]
  | succ rounds ih =>
      cases waiting : s.pending with
      | nil => constructor <;> simp [drain, waiting]
      | cons head tail =>
          generalize pushed : (next head).foldl push { s with pending := tail } = middle
          obtain ⟨round, middleReady, fewer⟩ := ready.round waiting pushed
          have unfolded : drain next (rounds + 1) s =
              ((drain next rounds middle).1, head :: (drain next rounds middle).2) := by
            simp [drain, waiting, pushed]
          rw [unfolded]
          have isPending : head ∈ s.pending := by
            rw [waiting]
            exact List.mem_cons_self
          exact round.swept ready isPending (ih middle (by omega) middleReady)

/-- A sweep from one fresh place: the places it took, and the marks it left. -/
structure Flood (next : Nat → List Nat) (marked : Array Bool) (seed : Nat) (left : Array Bool)
    (taken : List Nat) : Prop where
  size : left.size = marked.size
  marks : ∀ place, Fresh left place ↔ Fresh marked place ∧ place ∉ taken
  fresh : ∀ place ∈ taken, Fresh marked place
  seed : seed ∈ taken
  closed : ∀ place ∈ taken, ∀ other ∈ next place, ¬ Fresh left other
  once : taken.Nodup

/-- A sweep from one fresh place has just that one pending, and takes all that it leads to. -/
theorem push_swept (next : Nat → List Nat) (rounds : Nat) (marked : Array Bool) (seed : Nat)
    (enough : marked.size ≤ rounds) (fresh : Fresh marked seed) :
    (push { marked, pending := [] } seed).pending = [seed] ∧
      Swept next (push { marked, pending := [] } seed)
        (drain next rounds (push { marked, pending := [] } seed)).1
        (drain next rounds (push { marked, pending := [] } seed)).2 := by
  obtain ⟨front, marks, size, ahead⟩ := push_fresh { marked, pending := [] } seed fresh
  generalize push { marked, pending := [] } seed = s at front marks size ahead
  simp only at front marks size
  have room : s.ahead ≤ rounds := by
    have few : marked.count false ≤ marked.size := Array.count_le_size
    rw [ahead]
    simp only [Sweep.ahead, List.length_nil, Nat.zero_add]
    omega
  have ready : s.Ready := by
    constructor
    · rw [front]
      exact List.nodup_singleton seed
    · intro place waits still
      rw [front, List.mem_singleton] at waits
      exact ((marks place).mp still).2 waits
  exact ⟨front, drain_swept next rounds s room ready⟩

theorem flood (next : Nat → List Nat) (rounds : Nat) (marked : Array Bool) (seed : Nat)
    (enough : marked.size ≤ rounds) (fresh : Fresh marked seed) :
    Flood next marked seed
      (drain next rounds (push { marked, pending := [] } seed)).1
      (drain next rounds (push { marked, pending := [] } seed)).2 := by
  obtain ⟨front, swept⟩ := push_swept next rounds marked seed enough fresh
  obtain ⟨_, marks, size, _⟩ := push_fresh { marked, pending := [] } seed fresh
  generalize push { marked, pending := [] } seed = s at front marks size swept
  simp only at marks size
  have isTaken : seed ∈ (drain next rounds s).2 :=
    swept.pending seed (by rw [front]; exact List.mem_singleton_self seed)
  constructor
  · exact swept.size.trans size
  · intro place
    rw [swept.fresh, marks]
    constructor
    · rintro ⟨⟨old, _⟩, untaken⟩
      exact ⟨old, untaken⟩
    · rintro ⟨old, untaken⟩
      exact ⟨⟨old, fun same => untaken (same ▸ isTaken)⟩, untaken⟩
  · intro place here
    rcases swept.origin place here with waits | old
    · rw [front, List.mem_singleton] at waits
      exact waits ▸ fresh
    · exact ((marks place).mp old).1
  · exact isTaken
  · exact swept.closed
  · exact swept.nodup

/-- All that a sweep takes hangs together: its one seed leads there. -/
theorem flood_linked (next : Nat → List Nat) (rounds : Nat) (marked : Array Bool) (seed : Nat)
    (enough : marked.size ≤ rounds) (fresh : Fresh marked seed) (place : Nat)
    (taken : place ∈ (drain next rounds (push { marked, pending := [] } seed)).2) :
    Relation.ReflTransGen (fun x y => y ∈ next x) seed place := by
  obtain ⟨front, swept⟩ := push_swept next rounds marked seed enough fresh
  apply swept.least (Relation.ReflTransGen (fun x y => y ∈ next x) seed) _ _ place taken
  · intro other waits
    rw [front, List.mem_singleton] at waits
    exact waits ▸ .refl
  · intro x y path edge _
    exact path.tail edge

end CountedHeap.Trial.Sweep
