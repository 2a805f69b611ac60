import CountedHeap.Heap

namespace CountedHeap.Heap

/-- Records a candidate root. Objects that are invalid, untraced, claimed or recorded already are
not eligible; the registry may fail to grow. -/
def register (h : Heap) (a : Addr) : Except Fault (Bool × Heap) :=
  match h.objects[a]? with
  | none => .ok (false, h)
  | some o =>
      if !o.valid || !o.traced || o.claimed then .ok (false, h)
      else if o.buffered || h.collector.registry.holds a then .ok (false, h)
      else if !h.collector.canGrow then .error .registrationFailure
      else
        let entry : Candidate := { object := a, recorded := o.word.count }
        let h := h.update a fun o => { o with word := o.word.setBuffered true }
        .ok (true,
          { h with collector := { h.collector with registry := entry :: h.collector.registry } })

def addCandidate (h : Heap) (a : Addr) : Bool × Heap :=
  if (h.objects[a]?).any Object.traced then
    match h.register a with
    | .ok (added, h) => (added, h)
    | .error _ => (false, h)
  else (false, h)

def forget (h : Heap) (a : Addr) : Heap :=
  if h.collector.registry.holds a then
    let h := h.update a fun o => { o with word := o.word.setBuffered false }
    { h with
      collector := { h.collector with registry := h.collector.registry.erase a } }
  else h

end CountedHeap.Heap
