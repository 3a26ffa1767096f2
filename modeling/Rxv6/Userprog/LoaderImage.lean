import Rxv6.Userprog.Loader
import Rxv6.Vm.FrameIndex

namespace Rxv6.Userprog.Paging

open Rxv6.Thread Rxv6.Vm

end Rxv6.Userprog.Paging

namespace Rxv6.Userprog.Loader

open Function Rxv6.Thread Rxv6.Vm Rxv6.Userprog.Process Rxv6.Userprog.Paging List Option

section Demand

variable {m m' : Memory} {tid : Tid} {e : SptEntry} {page k upage : Nat}

end Demand

def Range.byte (r : Range) (d : List UInt8) (v : Nat) : UInt8 :=
  if r.loadBaseVaddr ≤ v ∧ v < r.loadEndFile then d.getD (r.loadBaseFoff + (v - r.loadBaseVaddr)) 0 else 0

def SegInfo.byte (s : SegInfo) (d : List UInt8) (v : Nat) : UInt8 :=
  if v - s.vaddr < s.filesz then d.getD (s.fileOff + (v - s.vaddr)) 0 else 0

section Entry

variable {r : Range} {segs : List SegInfo} {sector : Nat}

end Entry

section Image

variable {d : List UInt8} {sector : Nat} {created : Bool} {setup : Option Nat} {l : Loaded}
  {segs : List SegInfo} {r : Range} {room : Room}

end Image

end Rxv6.Userprog.Loader
