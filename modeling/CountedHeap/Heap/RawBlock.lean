import CountedHeap.Heap

/-! A block that is held raw. Old handles to it still read its bytes as an object's. -/

namespace CountedHeap.Heap

def readBlock (h : Heap) (block : Addr) (offset count : Nat) : List UInt8 :=
  stretch (h.memoryAt block) offset count

def writeBlock (h : Heap) (block : Addr) (offset : Nat) (bytes : List UInt8) : Heap :=
  { h.update block (·.overwrite offset bytes) with pool := h.pool.write block offset bytes }

end CountedHeap.Heap
