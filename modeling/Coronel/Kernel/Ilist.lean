import Coronel.Kernel.Allocators
import Mathlib.Logic.Function.Basic

/-!
# The nodes of `virt`

`libs/ilist.hpp` and `memory/virtual.cpp` with their pointers. A list links slots, each slot points
to the node of a region, and both are drawn from the placement watermark. `Virt` has the regions in
a Lean list; `stepLists` runs the same calls there.
-/

namespace Coronel

/-- `ilist<virt::node *>::node` -/
structure IlistNode where
  data : Nat
  next : Nat
deriving DecidableEq, Repr

/-- `ilist<virt::node *>` -/
structure Ilist where
  head : Nat
  tail : Nat
  size : Nat
deriving DecidableEq, Repr

/-- Placement memory: the watermark, and the nodes that were built in it. -/
structure NodeStore where
  placement : Nat
  regions : Nat → Option VirtNode
  links : Nat → Option IlistNode

namespace NodeStore

def setRegion (m : NodeStore) (place : Nat) (n : VirtNode) : NodeStore :=
  { m with regions := Function.update m.regions place (some n) }

def setLink (m : NodeStore) (place : Nat) (n : IlistNode) : NodeStore :=
  { m with links := Function.update m.links place (some n) }

/-- `placement_kalloc(size)`, when the window reaches over what it returns. -/
def place (m : NodeStore) (size : Nat) : Option (Nat × NodeStore) :=
  match window m.placement size with
  | some _ => some (m.placement, { m with placement := add64 m.placement size })
  | none => none

end NodeStore

namespace Ilist

/-! ### ilist.hpp -/

/-- `ilist::ilist` -/
def new : Ilist := ⟨0, 0, 0⟩

/-- `ilist::push_back` -/
def pushBack (self : Ilist) (data : Nat) (m : NodeStore) : Option (Ilist × NodeStore) := do
  let (place, m) ← m.place Virt.sizeofNode
  let m := m.setLink place ⟨data, 0⟩
  if self.tail = 0 then
    return (⟨place, place, add64 self.size 1⟩, m)
  else
    let last ← m.links self.tail
    return (⟨self.head, place, add64 self.size 1⟩, m.setLink self.tail { last with next := place })

/-- `for (auto data : list)` at the node `current`. The body goes on or leaves with a result. -/
def eachFrom {ρ : Type} (m : NodeStore) (body : Nat → Option (Option ρ)) :
    Nat → Nat → Option (Option ρ)
  | 0, _ => none
  | n + 1, current =>
    if current = 0 then
      some none
    else
      match m.links current with
      | none => none
      | some node =>
        match body node.data with
        | some none => eachFrom m body n node.next
        | r => r

/-- `for (auto data : list)`; there are fewer nodes than addresses below the watermark. -/
def each {ρ : Type} (self : Ilist) (m : NodeStore) (body : Nat → Option (Option ρ)) :
    Option (Option ρ) :=
  eachFrom m body (m.placement + 1) self.head

/-- `ilist::clear`. It walks over the list; `operator delete` does nothing. -/
def clear (self : Ilist) (m : NodeStore) : Option Ilist :=
  match self.each m fun _ => some (none : Option Unit) with
  | none => none
  | some _ => some new

/-! ### virtual.cpp -/

/-- `free_mem_list_.push_back(new (placement_kalloc(sizeof(node))) node(...))` -/
def pushNode (self : Ilist) (n : VirtNode) (m : NodeStore) : Option (Ilist × NodeStore) := do
  let (place, m) ← m.place Virt.sizeofNode
  self.pushBack place (m.setRegion place n)

/-- `virt::virt` -/
def construct (m : NodeStore) : Option (Ilist × NodeStore) :=
  pushNode new ⟨Virt.vaddrStart, Virt.vaddrSize⟩ m

/-- The loop of the copies, at the node `current` of the other list. -/
def copyFrom : Nat → Nat → Ilist → NodeStore → Option (Ilist × NodeStore)
  | 0, _, _, _ => none
  | n + 1, current, self, m =>
    if current = 0 then
      some (self, m)
    else do
      let slot ← m.regions (← m.links current).data
      let (self, m) ← self.pushNode slot m
      copyFrom n (← m.links current).next self m

/-- `virt::operator=`, from another object. -/
def assign (self other : Ilist) (m : NodeStore) : Option (Ilist × NodeStore) := do
  let self ← self.clear m
  copyFrom (m.placement + 1) other.head self m

/-- `virt::virt(const virt &)` -/
def copy (other : Ilist) (m : NodeStore) : Option (Ilist × NodeStore) := assign new other m

/-- The body of the loop of `alloc(size)`. -/
def takeAt (alignedSize : Nat) (m : NodeStore) (freeSpot : Nat) :
    Option (Option (Nat × NodeStore)) := do
  let spot ← m.regions freeSpot
  if spot.size = 0 ∨ spot.size < alignedSize then
    some none
  else if spot.size = alignedSize then
    some (some (spot.start, m.setRegion freeSpot { spot with size := 0 }))
  else
    some (some (spot.start, m.setRegion freeSpot
      ⟨add64 spot.start alignedSize, spot.size - alignedSize⟩))

/-- `virt::alloc(size)`; 0 is `nullptr`. -/
def alloc (self : Ilist) (size : Nat) (m : NodeStore) : Option (Nat × NodeStore) := do
  let r ← self.each m (takeAt (alignUp size) m)
  return r.getD (0, m)

/-- The body of the loop of `alloc(initial_addr, size)`. -/
def reserveAt (self : Ilist) (addr size : Nat) (m : NodeStore) (freeSpot : Nat) :
    Option (Option ((Bool × Ilist) × NodeStore)) := do
  let spot ← m.regions freeSpot
  if spot.start < addr ∧ add64 spot.start spot.size ≤ add64 addr size then
    some none
  else
    let (list, m) ← self.pushNode ⟨add64 addr size, spot.size⟩ m
    some (some ((true, list), m.setRegion freeSpot
      { (← m.regions freeSpot) with size := sub64 addr spot.start }))

/-- `virt::alloc(initial_addr, size)` -/
def allocAt (self : Ilist) (addr size : Nat) (m : NodeStore) :
    Option ((Bool × Ilist) × NodeStore) := do
  let r ← self.each m (self.reserveAt addr size m)
  return r.getD ((false, self), m)

/-- The body of the inner loop of `free`, with `current` grown to `[start, start + size)`. -/
def absorbAt (current start size : Nat) (m : NodeStore) (next : Nat) :
    Option (Option NodeStore) := do
  let other ← m.regions next
  if next = current ∨ other.size = 0 then
    some none
  else if add64 start size = other.start then
    some (some ((m.setRegion current ⟨start, add64 size other.size⟩).setRegion next
      { other with size := 0 }))
  else
    some none

/-- The inner loop. -/
def absorb (self : Ilist) (current start size : Nat) (m : NodeStore) : Option NodeStore := do
  let r ← self.each m (absorbAt current start size m)
  return r.getD m

/-- The body of the outer loop. -/
def freeAt (self : Ilist) (addr alignedSize : Nat) (m : NodeStore) (current : Nat) :
    Option (Option NodeStore) := do
  let region ← m.regions current
  if region.size = 0 then
    some none
  else if add64 addr alignedSize = region.start then
    some (some (m.setRegion current ⟨addr, add64 region.size alignedSize⟩))
  else if add64 region.start region.size = addr then
    let grown := add64 region.size alignedSize
    let m ← self.absorb current region.start grown (m.setRegion current ⟨region.start, grown⟩)
    some (some m)
  else
    some none

/-- `virt::free` -/
def free (self : Ilist) (addr size : Nat) (m : NodeStore) : Option (Ilist × NodeStore) := do
  let alignedSize := alignUp size
  match ← self.each m (self.freeAt addr alignedSize m) with
  | some m => return (self, m)
  | none => self.pushNode ⟨addr, alignedSize⟩ m

end Ilist

/-! ### Runs over several objects -/

/-- A call on one of several `virt` objects, or other code that draws from the watermark. -/
inductive VirtCall
  | construct (i : Nat)
  | copy (i j : Nat)
  | assign (i j : Nat)
  | alloc (i size : Nat)
  | allocAt (i addr size : Nat)
  | free (i addr size : Nat)
  | place (size : Nat)
deriving DecidableEq, Repr

namespace VirtCall

/-- The call on the nodes: what it answers, and the objects. -/
def step (objs : Nat → Ilist) (m : NodeStore) :
    VirtCall → Option ((Nat × (Nat → Ilist)) × NodeStore)
  | construct i => do
    let (l, m) ← Ilist.construct m
    return ((0, Function.update objs i l), m)
  | copy i j => do
    let (l, m) ← (objs j).copy m
    return ((0, Function.update objs i l), m)
  | assign i j =>
    if i = j then
      return ((0, objs), m)
    else do
      let (l, m) ← (objs i).assign (objs j) m
      return ((0, Function.update objs i l), m)
  | alloc i size => do
    let (addr, m) ← (objs i).alloc size m
    return ((addr, objs), m)
  | allocAt i addr size => do
    let ((r, l), m) ← (objs i).allocAt addr size m
    return ((r.toNat, Function.update objs i l), m)
  | free i addr size => do
    let (l, m) ← (objs i).free addr size m
    return ((0, Function.update objs i l), m)
  | place size => do
    let (_, m) ← m.place size
    return ((0, objs), m)

/-- The calls in order, with their answers. -/
def exec : List VirtCall → (Nat → Ilist) → NodeStore →
    Option ((List Nat × (Nat → Ilist)) × NodeStore)
  | [], objs, m => some (([], objs), m)
  | c :: cs, objs, m => do
    let ((r, objs), m) ← step objs m c
    let ((rs, objs), m) ← exec cs objs m
    return ((r :: rs, objs), m)

/-- The call on the lists of `Virt`. -/
def stepLists (vs : Nat → Virt) : VirtCall → Kernel (Nat × (Nat → Virt))
  | construct i => do
    let v ← Virt.new
    return (0, Function.update vs i v)
  | copy i j => do
    let v ← (vs j).freeMemList.foldlM Virt.pushBack ⟨[]⟩
    return (0, Function.update vs i v)
  | assign i j => do
    if i = j then
      return (0, vs)
    let v ← (vs j).freeMemList.foldlM Virt.pushBack ⟨[]⟩
    return (0, Function.update vs i v)
  | alloc i size =>
    let r := (vs i).alloc size
    return (r.1, Function.update vs i r.2)
  | allocAt i addr size => do
    let r ← (vs i).allocAt addr size
    return (r.1.toNat, Function.update vs i r.2)
  | free i addr size => do
    let v ← (vs i).free addr size
    return (0, Function.update vs i v)
  | place size => do
    touch (← placementKalloc size) size
    return (0, vs)

def execLists : List VirtCall → (Nat → Virt) → Kernel (List Nat × (Nat → Virt))
  | [], vs => return ([], vs)
  | c :: cs, vs => do
    let r ← stepLists vs c
    let rs ← execLists cs r.2
    return (r.1 :: rs.1, rs.2)

end VirtCall
end Coronel
