import CountedHeap.Binary64
import CountedHeap.Fault
import Std.Data.TreeMap

/-!
Weak handles. Handles made by one downgrade and its copies share a slot that names the object;
being listed does not keep a slot alive.
-/

namespace CountedHeap

abbrev SlotId := Nat

structure WeakSlot where
  target : Option Addr
  handles : Nat := 1
  deriving DecidableEq, Repr

structure WeakStats where
  created : Nat := 0
  nullified : Nat := 0
  /-- Listed slots that still have a handle. -/
  active : Nat := 0
  deriving DecidableEq, Repr, Inhabited

namespace WeakStats

def nullificationRate (s : WeakStats) : Binary64 := .ofCounts s.nullified s.created

def describe (s : WeakStats) : String :=
  let rate := s.nullificationRate.percent.fixed 1
  s!"weak: {s.created} created, {s.active} active, {s.nullified} nullified ({rate}%)"

end WeakStats

structure WeakTable where
  slots : Std.TreeMap SlotId WeakSlot := {}
  listed : List (Addr × SlotId) := []
  created : Nat := 0
  nullified : Nat := 0
  deriving Inhabited

namespace WeakTable

def target? (t : WeakTable) (slot : SlotId) : Option Addr := t.slots[slot]?.bind WeakSlot.target

def held (t : WeakTable) (slot : SlotId) : Bool := t.slots[slot]?.any (0 < ·.handles)

/-- A new slot for an object, with one handle. Slots of the same object that lost their last
handle leave the list. -/
def insert (t : WeakTable) (object : Addr) : SlotId × WeakTable :=
  let slot := t.slots.size
  let kept := t.listed.filter fun entry => entry.1 != object || t.held entry.2
  (slot,
    { t with
      slots := t.slots.insert slot { target := some object }
      listed := kept ++ [(object, slot)]
      created := t.created + 1 })

/-- Clears every slot of an object that still has a handle, and unlists them all. -/
def detach (t : WeakTable) (object : Addr) : WeakTable :=
  let mine := (t.listed.filter fun entry => entry.1 == object && t.held entry.2).map Prod.snd
  { t with
    slots := mine.foldl (fun slots slot => slots.modify slot ({ · with target := none })) t.slots
    listed := t.listed.filter fun entry => entry.1 != object
    nullified := t.nullified + mine.length }

def clone (t : WeakTable) (slot : SlotId) : WeakTable :=
  { t with slots := t.slots.modify slot fun s => { s with handles := s.handles + 1 } }

def drop (t : WeakTable) (slot : SlotId) : WeakTable :=
  { t with slots := t.slots.modify slot fun s => { s with handles := s.handles - 1 } }

def stats (t : WeakTable) : WeakStats :=
  { created := t.created
    nullified := t.nullified
    active := t.listed.countP fun entry => t.held entry.2 }

def resetStats (t : WeakTable) : WeakTable := { t with created := 0, nullified := 0 }

end WeakTable

end CountedHeap
