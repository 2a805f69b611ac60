/-! The block sizes of a pool. A request above the largest has no class. -/

namespace CountedHeap

abbrev SizeClass := Fin 16

namespace SizeClass

def sizes : Vector Nat 16 :=
  #v[8, 16, 24, 32, 48, 64, 96, 128, 192, 256, 384, 512, 768, 1024, 1536, 2048]

def bytes (c : SizeClass) : Nat := sizes[c]

def largest : Nat := bytes 15

def fit? (n : Nat) : Option SizeClass :=
  (List.finRange 16).find? fun c => n ≤ bytes c

def capacity (n : Nat) : Nat := (fit? n).elim n bytes

end SizeClass

end CountedHeap
