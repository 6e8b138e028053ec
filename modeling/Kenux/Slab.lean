import Kenux.Buddy
import Kenux.Bytes

/-!
The slab allocator (`slab.c`). The header of a slab stands at the end of its
pages, in the same bytes as the last objects may do, so the memory is one of
bytes; the first word of a free object points to the next free one. What the page
allocator returns for a new slab is an argument, with 0 for `NULL`.
-/
namespace Kenux.Slab
open Kenux.Bytes Kenux.Links Kenux.Words
open Kenux.Buddy (pageSize maxOrder)

/-- The fields of `slab_t` that the code reads. -/
inductive Slot where
  | next
  | prev
  | mem
  | objSize
  | objCount
  | freeCount
  | freeList
  | state
  deriving DecidableEq, Repr

def Slot.field : Slot → Field
  | .next => ⟨0,8⟩
  | .prev => ⟨8,8⟩
  | .mem => ⟨16,8⟩
  | .objSize => ⟨24,4⟩
  | .objCount => ⟨28,4⟩
  | .freeCount => ⟨32,4⟩
  | .freeList => ⟨40,8⟩
  | .state => ⟨48,4⟩

def sizeofSlab : Nat := 56

inductive Kind where
  | full
  | part
  | empty
  deriving DecidableEq, Repr

/-- `SLAB_FULL`, `SLAB_PARTIAL` and `SLAB_EMPTY`. -/
def Kind.code : Kind → Nat
  | .full => 0
  | .part => 1
  | .empty => 2

def Kind.ofState (state : Nat) : Kind :=
  if state = Kind.full.code then .full else if state = Kind.part.code then .part else .empty

/-- The list that the number of free objects asks for. -/
def Kind.ofCount (freeCount objCount : Nat) : Kind :=
  if freeCount = 0 then .full else if freeCount = objCount then .empty else .part

/-- A cache without its name; `heads` are `full_slabs`, `partial_slabs` and `empty_slabs`. -/
structure Cache where
  objSize : Nat
  align : Nat
  objsPerSlab : Nat
  slabOrder : Nat
  heads : Kind → Nat
  totalObjs : Nat
  freeObjs : Nat

def Cache.counts (c : Cache) (total unused : Nat) : Cache := { c with totalObjs := total, freeObjs := unused }

def Cache.slabSize (c : Cache) : Nat := pageSize <<< c.slabOrder

/-- The memory, and a cache. -/
structure World where
  mem : Nat → UInt8
  cache : Cache

namespace World

def get (w : World) (f : Slot) (slab : Nat) : Nat := f.field.get w.mem slab

def set (w : World) (f : Slot) (slab v : Nat) : World := { w with mem := f.field.set w.mem slab v }

def link (w : World) (obj : Nat) : Nat := load w.mem obj 8

def setLink (w : World) (obj v : Nat) : World := { w with mem := store w.mem obj v 8 }

def setHead (w : World) (k : Kind) (slab : Nat) : World :=
  { w with cache := { w.cache with heads := Function.update w.cache.heads k slab } }

end World

/-- The loop that looks for the first order whose pages hold so many bytes. -/
def orderFor (need : Nat) : Nat → Nat → Nat
  | 0, order => order
  | rounds+1, order => if pageSize <<< order < need then orderFor need rounds (order+1) else order

def slabOrder (objSize objsPerSlab : Nat) : Nat := orderFor (objSize * objsPerSlab % 2^32) maxOrder 0

def slabMaxCaches : Nat := 64

/-- `kmem_cache_create`, with `cache_count` caches in the table. -/
def kmemCacheCreate (cacheCount : Nat) (size align : BitVec 32) : Option Cache :=
  if size = 0 ∨ size.toNat > pageSize <<< maxOrder then none
  else if slabMaxCaches ≤ cacheCount then none
  else
    let align := if align = 0 then 8 else align
    let objSize := ((size + align - 1) &&& ~~~(align - 1)).toNat
    let objSize := if objSize < 8 then 8 else objSize
    let objsPerSlab := pageSize * 2 / objSize
    let objsPerSlab := if objsPerSlab < 1 then 1 else objsPerSlab
    some ⟨objSize,align.toNat,objsPerSlab,slabOrder objSize objsPerSlab,fun _ => 0,0,0⟩

/-- The loop of `__slab_create` over the objects: each points to the one before. -/
def linkObjects (base objSize : Nat) : Nat → Nat → Nat → World → Nat × World
  | 0, _, current, w => (current,w)
  | rounds+1, i, current, w =>
    let obj := add64 base (i * objSize % 2^32)
    linkObjects base objSize rounds (i+1) obj (w.setLink obj current)

/-- `__slab_create` on the pages that the page allocator returns. -/
def slabCreate (pages : Nat) (w : World) : Nat × World :=
  if pages = 0 then (0,w)
  else
    let s := add64 pages (w.cache.slabSize - sizeofSlab)
    let w := { w with mem := store w.mem s 0 sizeofSlab }
    let w := w.set .mem s pages
    let w := w.set .objSize s w.cache.objSize
    let w := w.set .objCount s w.cache.objsPerSlab
    let w := w.set .freeCount s w.cache.objsPerSlab
    let w := w.set .state s Kind.empty.code
    let (current,w) := linkObjects pages w.cache.objSize w.cache.objsPerSlab 0 0 w
    (s,w.set .freeList s current)

def slabAdd (k : Kind) (slab : Nat) (w : World) : World :=
  let head := w.cache.heads k
  let w := w.set .next slab head
  let w := w.set .prev slab 0
  let w := if head ≠ 0 then w.set .prev head slab else w
  w.setHead k slab

/-- The slab before, or the list, names the slab after. -/
def slabSkip (k : Kind) (slab : Nat) (w : World) : World :=
  if w.get .prev slab ≠ 0 then w.set .next (w.get .prev slab) (w.get .next slab) else w.setHead k (w.get .next slab)

/-- The slab after names the slab before. -/
def slabBack (slab : Nat) (w : World) : World :=
  if w.get .next slab ≠ 0 then w.set .prev (w.get .next slab) (w.get .prev slab) else w

def slabRemove (k : Kind) (slab : Nat) (w : World) : World :=
  ((slabBack slab (slabSkip k slab w)).set .prev slab 0).set .next slab 0

def slabRehome (slab : Nat) (w : World) : World :=
  let source := Kind.ofState (w.get .state slab)
  let target := Kind.ofCount (w.get .freeCount slab) (w.get .objCount slab)
  let w := w.set .state slab target.code
  if source ≠ target then slabAdd target slab (slabRemove source slab w) else w

/-- The slab that `kmem_cache_alloc` takes an object from, 0 if there is none. -/
def slabForAlloc (pages : Nat) (w : World) : Nat × World :=
  let slab := w.cache.heads .part
  if slab ≠ 0 then (slab,w)
  else
    let slab := w.cache.heads .empty
    if slab ≠ 0 then (slab,slabAdd .part slab (slabRemove .empty slab w))
    else
      let (slab,w) := slabCreate pages w
      if slab = 0 then (0,w) else (slab,slabAdd .part slab w)

def kmemCacheAlloc (pages : Nat) (w : World) : Nat × World :=
  let (slab,w) := slabForAlloc pages w
  if slab = 0 then (0,w)
  else
    let obj := w.get .freeList slab
    if obj ≠ 0 then
      let w := w.set .freeList slab (w.link obj)
      let w := w.set .freeCount slab ((w.get .freeCount slab + (2^32 - 1)) % 2^32)
      let w := { w with cache := w.cache.counts (add64 w.cache.totalObjs 1) (sub64 w.cache.freeObjs 1) }
      (obj,slabRehome slab w)
    else (obj,w)

/-- The slab in a list whose pages hold the object, 0 if there is none; `none` if the
    walk does not end. -/
def walk (w : World) (obj : Nat) : Nat → Nat → Option Nat
  | 0, s => if s = 0 then some 0 else none
  | fuel+1, s =>
    if s = 0 then some 0
    else
      let start := w.get .mem s
      if start ≤ obj ∧ obj < add64 start w.cache.slabSize then some s else walk w obj fuel (w.get .next s)

def findSlab (fuel obj : Nat) (w : World) : Option Nat := do
  let slab ← walk w obj fuel (w.cache.heads .full)
  if slab ≠ 0 then some slab
  else do
    let slab ← walk w obj fuel (w.cache.heads .part)
    if slab ≠ 0 then some slab else walk w obj fuel (w.cache.heads .empty)

def kmemCacheFree (fuel obj : Nat) (w : World) : Option World :=
  if obj = 0 then some w
  else do
    let slab ← findSlab fuel obj w
    if slab = 0 then some w
    else
      let w := w.setLink obj (w.get .freeList slab)
      let w := w.set .freeList slab obj
      let w := w.set .freeCount slab ((w.get .freeCount slab + 1) % 2^32)
      let w := { w with cache := w.cache.counts (sub64 w.cache.totalObjs 1) (add64 w.cache.freeObjs 1) }
      some (slabRehome slab w)

end Kenux.Slab
