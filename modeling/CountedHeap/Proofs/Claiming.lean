import CountedHeap.Pass
import CountedHeap.Proofs.Searching

/-!
The end of a pass. Of the groups that the search took for garbage those are claimed whose counts
are the ones that were seen; then each candidate is judged, which moves no count. A claim is on the
whole group or on nothing of it.
-/

namespace CountedHeap

open Trial (Group)

theorem Object.flags_claimed (o : Object) (unclaimed : o.claimed = false) :
    ({ o with claimed := true } : Object).flags = o.flags + 2 := by
  simp only [flags, unclaimed, Bool.toNat_true, Bool.toNat_false]
  omega

namespace Heap

variable {h k l : Heap}

/-- A heap and the same with a row of objects claimed. -/
structure Claimed (h : Heap) (row : List Addr) (k : Heap) : Prop where
  objects : ∀ a : Addr, k.objects[a]? =
    (h.objects[a]?).map fun o => if a ∈ row then { o with claimed := true } else o
  rest : k = { h with objects := k.objects }

def Fresh (h : Heap) (a : Addr) : Prop := ∃ o, h.objects[a]? = some o ∧ o.claimed = false

theorem Collectable.fresh {a : Addr} (collectable : h.Collectable a) : h.Fresh a := by
  rcases collectable with ⟨o, there, _, unclaimed, _⟩
  exact ⟨o, there, unclaimed⟩

namespace Claimed

variable {row more : List Addr}

theorem refl (h : Heap) : Claimed h [] h :=
  ⟨fun a => by simp, rfl⟩

theorem trans (first : Claimed h row k) (second : Claimed k more l) :
    Claimed h (row ++ more) l := by
  refine ⟨fun a => ?_, by rw [second.rest, first.rest]⟩
  rw [second.objects, first.objects, Option.map_map]
  congr 1
  funext o
  by_cases early : a ∈ row <;> by_cases late : a ∈ more <;> simp [early, late]

theorem of_update (h : Heap) (a : Addr) : Claimed h [a] (h.update a ({ · with claimed := true })) := by
  refine ⟨fun b => ?_, rfl⟩
  rw [getElem?_update]
  by_cases same : a = b
  · simp [same]
  · simp [same, Ne.symm same]

theorem same {α : Type} {view : Object → α} (claimed : Claimed h row k)
    (equal : ∀ o : Object, view { o with claimed := true } = view o) : Same view h k := by
  refine ⟨by rw [claimed.rest], fun a => ?_⟩
  rw [claimed.objects, Option.map_map]
  congr 1
  funext o
  by_cases member : a ∈ row
  · simp [member, equal]
  · simp [member]

theorem countAt (claimed : Claimed h row k) (a : Addr) : k.countAt a = h.countAt a := by
  have same : Same Object.count h k := claimed.same fun _ => rfl
  exact same.elim_eq a 0 Object.count id fun _ => rfl

theorem words (claimed : Claimed h row k) (a : Addr) :
    (k.objects[a]?).map Object.word = (h.objects[a]?).map Object.word := by
  have same : Same Object.word h k := claimed.same fun _ => rfl
  exact same.objects a

theorem fresh_iff (claimed : Claimed h row k) (a : Addr) : k.Fresh a ↔ h.Fresh a ∧ a ∉ row := by
  rw [Fresh, Fresh, claimed.objects]
  by_cases member : a ∈ row
  · simp [member]
  · simp [member]

end Claimed

theorem Claimed.undone {row : List Addr} {m : Heap} (claimed : Claimed h row k)
    (back : Claimed k [] l) (fresh : ∀ a ∈ row, h.Fresh a)
    (objects : ∀ a : Addr, m.objects[a]? = (l.objects[a]?).map fun o =>
      if a ∈ row then { o with claimed := false } else o)
    (rest : m = { l with objects := m.objects }) : Claimed h [] m := by
  refine ⟨fun a => ?_, by rw [rest, back.rest, claimed.rest]⟩
  rw [objects, back.objects, claimed.objects, Option.map_map, Option.map_map]
  cases there : h.objects[a]? with
  | none => rfl
  | some o =>
      by_cases member : a ∈ row
      · obtain ⟨p, found, unclaimed⟩ := fresh a member
        rw [there, Option.some.injEq] at found
        subst found
        simp [member, ← unclaimed]
      · simp [member]

/-- All of a row are claimed, which were different and there to be claimed; or nothing changes. -/
theorem claimAll_cases (h : Heap) (row : List Addr) :
    (∃ k, h.claimAll row = (true, k) ∧ row.Nodup ∧ (∀ a ∈ row, h.Fresh a) ∧ Claimed h row k) ∨
      ∃ k, h.claimAll row = (false, k) ∧ ¬ (row.Nodup ∧ ∀ a ∈ row, h.Fresh a) ∧ Claimed h [] k := by
  induction row generalizing h with
  | nil => exact Or.inl ⟨h, rfl, List.nodup_nil, by simp, Claimed.refl h⟩
  | cons a rest ih =>
      cases there : h.objects[a]? with
      | none =>
          refine Or.inr ⟨h, by simp [claimAll, tryClaim, there], fun both => ?_, Claimed.refl h⟩
          obtain ⟨o, found, _⟩ := both.2 a List.mem_cons_self
          rw [there] at found
          cases found
      | some o =>
          have first := Claimed.of_update h a
          have tried : h.tryClaim a = (!o.claimed, h.update a ({ · with claimed := true })) := by
            simp [tryClaim, there]
          generalize h.update a ({ · with claimed := true }) = k at first tried
          cases claimed : o.claimed with
          | true =>
              refine Or.inr ⟨k, by simp [claimAll, tried, claimed], fun both => ?_, ?_, first.rest⟩
              · obtain ⟨p, found, unclaimed⟩ := both.2 a List.mem_cons_self
                rw [there, Option.some.injEq] at found
                rw [← found, claimed] at unclaimed
                cases unclaimed
              · intro b
                rw [first.objects]
                by_cases here : b = a
                · subst here
                  simp [there, ← claimed]
                · simp [here]
          | false =>
              have freshHere : h.Fresh a := ⟨o, there, claimed⟩
              have before : ∀ b, k.Fresh b ↔ h.Fresh b ∧ b ≠ a := fun b => by
                rw [first.fresh_iff, List.mem_singleton]
              rcases ih k with ⟨l, done, once, fresh, others⟩ | ⟨l, done, refused, others⟩
              · refine Or.inl ⟨l, by simp [claimAll, tried, claimed, done], ?_, ?_, first.trans others⟩
                · exact List.nodup_cons.mpr ⟨fun member => ((before a).mp (fresh a member)).2 rfl, once⟩
                · intro b member
                  rcases List.mem_cons.mp member with isHere | later
                  · exact isHere ▸ freshHere
                  · exact ((before b).mp (fresh b later)).1
              · refine Or.inr ⟨l.unclaim a, by simp [claimAll, tried, claimed, done], fun both => ?_, ?_⟩
                · obtain ⟨notIn, once⟩ := List.nodup_cons.mp both.1
                  refine refused ⟨once, fun b member => (before b).mpr ⟨?_, ?_⟩⟩
                  · exact both.2 b (List.mem_cons_of_mem a member)
                  · rintro rfl
                    exact notIn member
                · refine first.undone others (fun b member => ?_) (fun b => ?_) rfl
                  · rw [List.mem_singleton.mp member]
                    exact freshHere
                  · rw [unclaim, getElem?_update]
                    by_cases here : a = b
                    · simp [here]
                    · simp [here, Ne.symm here]

theorem foldl_unclaim (group : Group) (h : Heap) :
    (∀ a : Addr, (group.foldl (fun h member => h.unclaim member.1) h).objects[a]? =
      (h.objects[a]?).map fun o =>
        if a ∈ group.map Prod.fst then { o with claimed := false } else o) ∧
    group.foldl (fun h member => h.unclaim member.1) h =
      { h with objects := (group.foldl (fun h member => h.unclaim member.1) h).objects } := by
  induction group generalizing h with
  | nil => exact ⟨fun a => by simp, rfl⟩
  | cons member rest ih =>
      obtain ⟨objects, frame⟩ := ih (h.unclaim member.1)
      rw [List.foldl_cons]
      refine ⟨fun a => ?_, by rw [frame]; rfl⟩
      rw [objects, unclaim, getElem?_update]
      by_cases here : member.1 = a
      · subst here
        rw [if_pos rfl, Option.map_map]
        congr 1
        funext o
        by_cases again : member.1 ∈ rest.map Prod.fst <;> simp [again]
      · rw [if_neg here]
        congr 1
        funext o
        have only : a ∈ (member :: rest).map Prod.fst ↔ a ∈ rest.map Prod.fst := by
          rw [List.map_cons, List.mem_cons, or_iff_right (Ne.symm here)]
        by_cases later : a ∈ rest.map Prod.fst
        · rw [if_pos later, if_pos (only.mpr later)]
        · rw [if_neg later, if_neg (mt only.mp later)]

def steady (h : Heap) (group : Group) : Bool := group.all fun member => h.countAt member.1 == member.2

/-- A group is claimed if its members were different, there to be claimed, and have the counts that
were seen; or nothing changes. -/
theorem claimGroup_cases (h : Heap) (group : Group) :
    (∃ k, h.claimGroup group = (true, k) ∧ (group.map Prod.fst).Nodup ∧
        (∀ a ∈ group.map Prod.fst, h.Fresh a) ∧ h.steady group = true ∧
        Claimed h (group.map Prod.fst) k) ∨
      ∃ k, h.claimGroup group = (false, k) ∧
        ¬ ((group.map Prod.fst).Nodup ∧ (∀ a ∈ group.map Prod.fst, h.Fresh a) ∧
          h.steady group = true) ∧ Claimed h [] k := by
  rcases h.claimAll_cases (group.map Prod.fst) with ⟨k, done, once, fresh, claimed⟩ |
    ⟨k, done, refused, same⟩
  · have checked : (group.all fun member => (k.objects[member.1]?).any (·.count == member.2)) =
        h.steady group := by
      rw [Bool.eq_iff_iff, steady, List.all_eq_true, List.all_eq_true]
      apply forall₂_congr
      intro member inGroup
      obtain ⟨o, there, _⟩ := fresh member.1 (List.mem_map_of_mem inGroup)
      rw [claimed.objects, countAt, there]
      simp only [Option.map_some, Option.any_some, Option.elim_some, List.mem_map_of_mem inGroup,
        if_true]
      rfl
    cases steady : h.steady group with
    | true => exact Or.inl ⟨k, by simp [claimGroup, done, checked, steady], once, fresh, rfl, claimed⟩
    | false =>
        obtain ⟨objects, frame⟩ := foldl_unclaim group k
        refine Or.inr ⟨_, by simp only [claimGroup, done, checked, steady]; rfl, ?_, ?_⟩
        · rintro ⟨_, _, impossible⟩
          cases impossible
        · exact claimed.undone (Claimed.refl k) fresh objects frame
  · exact Or.inr ⟨k, by simp [claimGroup, done], fun all => refused ⟨all.1, all.2.1⟩, same⟩

theorem claimGroup_fresh (h : Heap) (group : Group) (once : (group.map Prod.fst).Nodup)
    (fresh : ∀ a ∈ group.map Prod.fst, h.Fresh a) :
    ∃ k, h.claimGroup group = (h.steady group, k) ∧
      Claimed h (if h.steady group then group.map Prod.fst else []) k := by
  rcases h.claimGroup_cases group with ⟨k, done, _, _, steady, claimed⟩ | ⟨k, done, refused, same⟩
  · rw [steady, if_pos rfl]
    exact ⟨k, done, claimed⟩
  · have moved : h.steady group = false := by
      rw [← Bool.not_eq_true]
      exact fun steady => refused ⟨once, fresh, steady⟩
    rw [moved, if_neg Bool.false_ne_true]
    exact ⟨k, done, same⟩

/-- Whatever the groups are, the claimed ones have no member in common and none twice, and all their
members were there to be claimed. -/
theorem claimGroups_cases (h : Heap) (minimum : Nat) (groups : List Group) :
    ((h.claimGroups minimum groups).1.flatten.map Prod.fst).Nodup ∧
      (∀ a ∈ (h.claimGroups minimum groups).1.flatten.map Prod.fst, h.Fresh a) ∧
      Claimed h ((h.claimGroups minimum groups).1.flatten.map Prod.fst)
        (h.claimGroups minimum groups).2 := by
  induction groups generalizing h with
  | nil => exact ⟨List.nodup_nil, by simp [claimGroups], Claimed.refl h⟩
  | cons group rest ih =>
      by_cases small : group.length < minimum
      · simp only [claimGroups, small, if_true]
        exact ih h
      · rcases h.claimGroup_cases group with ⟨k, done, once, fresh, _, claimed⟩ | ⟨k, done, _, same⟩
        · obtain ⟨onceRest, freshRest, claimedRest⟩ := ih k
          simp only [claimGroups, small, if_false, done, List.flatten_cons, List.map_append]
          -- What later groups claim was there to be claimed after this one, so it is not in this one.
          refine ⟨List.nodup_append.mpr ⟨once, onceRest, ?_⟩, ?_, claimed.trans claimedRest⟩
          · rintro a here b there rfl
            exact ((claimed.fresh_iff a).mp (freshRest a there)).2 here
          · intro a member
            rcases List.mem_append.mp member with here | there
            · exact fresh a here
            · exact ((claimed.fresh_iff a).mp (freshRest a there)).1
        · obtain ⟨onceRest, freshRest, claimedRest⟩ := ih k
          simp only [claimGroups, small, if_false, done]
          refine ⟨onceRest, fun a member => ?_, same.trans claimedRest⟩
          exact ((same.fresh_iff a).mp (freshRest a member)).1

/-- The groups that a pass claims: big enough, and with the counts that were seen. -/
def claims (h : Heap) (minimum : Nat) (groups : List Group) : List Group :=
  groups.filter fun group => decide (minimum ≤ group.length) && h.steady group

theorem claims_congr (counts : ∀ a, k.countAt a = h.countAt a) (minimum : Nat)
    (groups : List Group) : k.claims minimum groups = h.claims minimum groups := by
  simp only [claims, steady, counts]

theorem claimGroups_fresh (h : Heap) (minimum : Nat) (groups : List Group)
    (once : (groups.flatten.map Prod.fst).Nodup)
    (fresh : ∀ a ∈ groups.flatten.map Prod.fst, h.Fresh a) :
    ∃ k, h.claimGroups minimum groups = (h.claims minimum groups, k) ∧
      Claimed h ((h.claims minimum groups).flatten.map Prod.fst) k := by
  induction groups generalizing h with
  | nil => exact ⟨h, rfl, Claimed.refl h⟩
  | cons group rest ih =>
      rw [List.flatten_cons, List.map_append] at once fresh
      obtain ⟨onceHere, onceRest, apart⟩ := List.nodup_append.mp once
      have freshHere := fun a member => fresh a (List.mem_append_left _ member)
      have freshRest := fun a member => fresh a (List.mem_append_right _ member)
      by_cases small : group.length < minimum
      · obtain ⟨k, done, claimed⟩ := ih h onceRest freshRest
        have skipped : h.claims minimum (group :: rest) = h.claims minimum rest := by
          simp [claims, small]
        rw [skipped]
        exact ⟨k, by simp [claimGroups, small, done], claimed⟩
      · obtain ⟨k, tried, one⟩ := h.claimGroup_fresh group onceHere freshHere
        have big : minimum ≤ group.length := Nat.le_of_not_lt small
        cases steady : h.steady group with
        | false =>
            rw [steady, if_neg Bool.false_ne_true] at one
            have freshStill : ∀ a ∈ rest.flatten.map Prod.fst, k.Fresh a := fun a member =>
              (one.fresh_iff a).mpr ⟨freshRest a member, List.not_mem_nil⟩
            obtain ⟨l, done, claimed⟩ := ih k onceRest freshStill
            rw [claims_congr one.countAt] at done claimed
            have skipped : h.claims minimum (group :: rest) = h.claims minimum rest := by
              simp [claims, steady]
            rw [skipped]
            exact ⟨l, by simp [claimGroups, small, tried, steady, done], one.trans claimed⟩
        | true =>
            rw [steady, if_pos rfl] at one
            have freshStill : ∀ a ∈ rest.flatten.map Prod.fst, k.Fresh a := fun a member =>
              (one.fresh_iff a).mpr ⟨freshRest a member, fun inGroup => apart a inGroup a member rfl⟩
            obtain ⟨l, done, claimed⟩ := ih k onceRest freshStill
            rw [claims_congr one.countAt] at done claimed
            have taken : h.claims minimum (group :: rest) = group :: h.claims minimum rest := by
              simp [claims, steady, big]
            rw [taken]
            refine ⟨l, by simp [claimGroups, small, tried, steady, done], ?_⟩
            rw [List.flatten_cons, List.map_append]
            exact one.trans claimed

theorem ready_iff (h : Heap) (group : Group) :
    ((∀ a ∈ group.map Prod.fst, h.Fresh a) ∧ h.steady group = true) ↔
      ∀ member ∈ group, ∃ o, h.objects[member.1]? = some o ∧ o.claimed = false ∧
        o.count = member.2 := by
  simp only [List.forall_mem_map, steady, List.all_eq_true, beq_iff_eq, ← forall₂_and]
  refine forall₂_congr fun member _ => ?_
  constructor
  · rintro ⟨⟨o, there, unclaimed⟩, count⟩
    refine ⟨o, there, unclaimed, ?_⟩
    rw [← count, countAt, there, Option.elim_some]
  · rintro ⟨o, there, unclaimed, count⟩
    refine ⟨⟨o, there, unclaimed⟩, ?_⟩
    rw [countAt, there, Option.elim_some, count]

/-- The answer to a claim on a group, and what the claim makes of a heap. -/
structure AllOrNothing (h : Heap) (group : Group) (answer : Bool) (k : Heap) : Prop where
  granted : answer = true ↔ ∀ member ∈ group, ∃ o, h.objects[member.1]? = some o ∧
    o.claimed = false ∧ o.count = member.2
  gained : ∀ a, h.claimedAt a = false ∧ k.claimedAt a = true ↔ answer = true ∧ a ∈ group.map Prod.fst
  flags : answer = true → ∀ a : Addr, (k.objects[a]?).map Object.flags =
    (h.objects[a]?).map fun o => if a ∈ group.map Prod.fst then o.flags + 2 else o.flags
  undone : answer = false → ∀ a : Addr, k.objects[a]? = h.objects[a]?
  words : ∀ a : Addr, (k.objects[a]?).map Object.word = (h.objects[a]?).map Object.word
  rest : k = { h with objects := k.objects }

/-- A group of different members is claimed as a whole, where nobody had a claim on a member and no
count has moved, and then the members are what has been claimed; or it is left as it was, with the
claims that were there before. Only flags change, and only by the bit of the claim. -/
theorem claim_all_or_nothing (h : Heap) (group : Group) (once : (group.map Prod.fst).Nodup) :
    ∃ answer k, h.claimGroup group = (answer, k) ∧ h.AllOrNothing group answer k := by
  have ready := h.ready_iff group
  rcases h.claimGroup_cases group with ⟨k, done, _, fresh, steady, claimed⟩ | ⟨k, done, refused, same⟩
  · refine ⟨true, k, done, by simpa using ready.mp ⟨fresh, steady⟩, fun a => ?_, fun _ a => ?_,
      fun wrong => absurd wrong (by decide), claimed.words, claimed.rest⟩
    · rw [claimedAt, claimedAt, claimed.objects]
      by_cases member : a ∈ group.map Prod.fst
      · obtain ⟨o, there, unclaimed⟩ := fresh a member
        simp [there, unclaimed, member]
      · simp [member]
    · rw [claimed.objects, Option.map_map]
      by_cases member : a ∈ group.map Prod.fst
      · obtain ⟨o, there, unclaimed⟩ := fresh a member
        simp [there, member, o.flags_claimed unclaimed]
      · simp only [member, if_false]
        rfl
  · have back : ∀ a : Addr, k.objects[a]? = h.objects[a]? := fun a => by simp [same.objects a]
    refine ⟨false, k, done, ?_, fun a => ?_, fun wrong => absurd wrong (by decide), fun _ => back,
      same.words, same.rest⟩
    · simp only [Bool.false_eq_true, false_iff, ← ready]
      exact fun both => refused ⟨once, both⟩
    · rw [claimedAt, claimedAt, back]
      cases (h.objects[a]?).any Object.claimed <;> simp

/-- Two objects that are free to be claimed, the second held twice and a candidate, and one that somebody
else is destroying. -/
def contested : Heap :=
  let made := Object.create 8 1 none true []
  { collector := { draws := .seeded 1 }
    objects := .ofList [(0x10, made), (0x20, { made with word := ⟨CountWord.bufferedBit + 2⟩ }),
      (0x30, { made with claimed := true })] }

theorem claim_all_or_nothing_contested :
    ([(0x10, 1), (0x20, 2)].map Prod.fst : List Addr).Nodup ∧
      (∃ k, contested.claimGroup [(0x10, 1), (0x20, 2)] = (true, k) ∧
        k.claimedAt 0x10 = true ∧ k.claimedAt 0x20 = true ∧ k.countAt 0x20 = 2) ∧
      (∃ k, contested.claimGroup [(0x10, 1), (0x30, 1), (0x20, 2)] = (false, k) ∧
        k.claimedAt 0x10 = false ∧ k.claimedAt 0x30 = true) ∧
      ∃ k, contested.claimGroup [(0x20, 2), (0x10, 2)] = (false, k) ∧ k.claimedAt 0x20 = false := by
  refine ⟨by decide, ?_, ?_, ?_⟩
  · obtain ⟨answer, k, done, all⟩ :=
      claim_all_or_nothing contested [(0x10, 1), (0x20, 2)] (by decide)
    obtain rfl : answer = true := all.granted.mpr (by decide +kernel)
    have word : (k.objects[0x20]?).map Object.word = some ⟨CountWord.bufferedBit + 2⟩ :=
      (all.words 0x20).trans (by decide +kernel)
    obtain ⟨o, there, isWord⟩ := Option.map_eq_some_iff.mp word
    refine ⟨k, done, ((all.gained 0x10).mpr (by decide)).2, ((all.gained 0x20).mpr (by decide)).2, ?_⟩
    rw [countAt, there, Option.elim_some, Object.count, isWord]
    decide
  · obtain ⟨answer, k, done, nothing⟩ :=
      claim_all_or_nothing contested [(0x10, 1), (0x30, 1), (0x20, 2)] (by decide)
    obtain rfl : answer = false := by
      rw [← Bool.not_eq_true, nothing.granted]
      decide +kernel
    refine ⟨k, done, ?_, ?_⟩ <;> rw [claimedAt, nothing.undone rfl] <;> decide +kernel
  · obtain ⟨answer, k, done, nothing⟩ :=
      claim_all_or_nothing contested [(0x20, 2), (0x10, 2)] (by decide)
    obtain rfl : answer = false := by
      rw [← Bool.not_eq_true, nothing.granted]
      decide +kernel
    refine ⟨k, done, ?_⟩
    rw [claimedAt, nothing.undone rfl]
    decide +kernel

end Heap

end CountedHeap
