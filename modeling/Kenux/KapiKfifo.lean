import Kenux.Rings
import Kenux.Runs
import Kenux.Words
import Mathlib.Data.BitVec
import Mathlib.Data.List.Infix

/-!
The byte queue of the kernel API (`kapi_kfifo.c`): counters of 32 bits that run on, and a
mask for the place in the buffer. If the size is a power of two, every run takes out the
bytes that were put in, in their order (`kfifo_run_stream`).
-/
namespace Kenux.KapiKfifo
open Kenux.Runs
open Kenux.Rings (copyIn copyOut copyIn_wrap copyOut_wrap)
open Kenux.Words (sub32)

abbrev Byte := BitVec 8

structure Kfifo where
  buffer : Nat → Byte
  size : Nat
  inn : Nat
  out : Nat

/-- `memory` is what `memory_alloc` returns. -/
def kapiKfifoInit (size : BitVec 32) (memory : Option (Nat → Byte)) : Option Kfifo :=
  if size = 0 then none else memory.map (⟨·,size.toNat,0,0⟩)

def kapiKfifoLen (f : Kfifo) : Nat := sub32 f.inn f.out

def kapiKfifoAvail (f : Kfifo) : Nat := sub32 f.size (sub32 f.inn f.out)

def kapiKfifoIn (f : Kfifo) (buf : Nat → Byte) (len : Nat) : Nat × Kfifo :=
  let l := if len > kapiKfifoAvail f then kapiKfifoAvail f else len
  let off := f.inn &&& (f.size - 1)
  let buffer :=
    if (off + l) % 2^32 > f.size then
      let first := f.size - off
      copyIn (copyIn f.buffer off buf first) 0 (fun i => buf (first + i)) (l - first)
    else copyIn f.buffer off buf l
  (l,{ f with buffer, inn := (f.inn + l) % 2^32 })

def kapiKfifoOut (f : Kfifo) (len : Nat) : List Byte × Kfifo :=
  let l := if len > kapiKfifoLen f then kapiKfifoLen f else len
  let off := f.out &&& (f.size - 1)
  let bytes :=
    if (off + l) % 2^32 > f.size then
      let first := f.size - off
      copyOut f.buffer off first ++ copyOut f.buffer 0 (l - first)
    else copyOut f.buffer off l
  (bytes,{ f with out := (f.out + l) % 2^32 })

inductive Request where
  | put (buf : Nat → Byte) (len : Nat)
  | get (len : Nat)

/-- The queue, and the bytes that were put in and taken out so far. -/
structure State where
  fifo : Kfifo
  put : List Byte
  got : List Byte

def step (s : State) : Request → Option State
  | .put buf len =>
    let (l,fifo) := kapiKfifoIn s.fifo buf len
    some { s with fifo, put := s.put ++ (List.range l).map buf }
  | .get len =>
    let (bytes,fifo) := kapiKfifoOut s.fifo len
    some { s with fifo, got := s.got ++ bytes }

/-- The bytes of the list are inside, and they are all that was put in and not taken out. -/
structure Inv (size : Nat) (s : State) (content : List Byte) : Prop where
  isSize : s.fifo.size = size
  count : s.fifo.inn = (s.fifo.out + content.length) % 2^32
  low : s.fifo.out < 2^32
  fits : content.length ≤ size
  holds : Rings.Holds size s.fifo.buffer s.fifo.out content
  order : s.got ++ content = s.put

section
variable {k size : Nat} {s : State} {content : List Byte} (power : size = 2^k) (below : k < 32)
include power below

theorem half : 0 < size ∧ 2 * size ≤ 2^32 := by
  have more := Nat.pow_le_pow_right (show 0 < 2 by decide) (Nat.succ_le_of_lt below)
  have positive := Nat.two_pow_pos k
  omega

private theorem mod_mod_size (n : Nat) : n % 2^32 % size = n % size := by
  subst power
  exact Nat.mod_mod_of_dvd n (Nat.pow_dvd_pow 2 (Nat.le_of_lt below))

omit below in
private theorem mask_eq (n : Nat) : n &&& (size - 1) = n % size := by
  subst power
  exact Nat.and_two_pow_sub_one_eq_mod n k

section
variable (inv : Inv size s content)
include inv

theorem Inv.len : kapiKfifoLen s.fifo = content.length := by
  have bound := half power below
  have fits := inv.fits
  have low := inv.low
  rw [kapiKfifoLen,sub32,inv.count]
  omega

theorem Inv.put (buf : Nat → Byte) (len : Nat) :
    ∃ t, step s (.put buf len) = some t ∧ ∃ content', Inv size t content' := by
  obtain ⟨positive,most⟩ := half power below
  have fits := inv.fits
  have isAvail : kapiKfifoAvail s.fifo = size - content.length := by
    have isLen := inv.len power below
    rw [kapiKfifoLen] at isLen
    rw [kapiKfifoAvail,sub32,isLen,inv.isSize]
    omega
  obtain ⟨l,isL,room⟩ : ∃ l, (if len > size - content.length then size - content.length else len) = l ∧
      content.length + l ≤ size := ⟨_,rfl,by split <;> omega⟩
  have off := Nat.mod_lt s.fifo.inn positive
  have same : s.fifo.inn % size % size = (s.fifo.out + content.length) % size := by
    rw [Nat.mod_mod,inv.count,mod_mod_size power below]
  have filled := inv.holds.fill buf l room
  rw [← Rings.fill_shift same] at filled
  simp only [step,kapiKfifoIn,isAvail,isL,inv.isSize,mask_eq power]
  refine ⟨_,rfl,content ++ (List.range l).map buf,rfl,?_,inv.low,?_,?_,?_⟩
  · have count := inv.count
    simp only [List.length_append,List.length_map,List.length_range]
    omega
  · simpa using room
  · split
    · rwa [copyIn_wrap _ (Nat.le_of_lt off) (by omega) (by omega)]
    · rwa [Rings.fill_flat buf l (by omega)] at filled
  · rw [← List.append_assoc,inv.order]

theorem Inv.get (len : Nat) :
    ∃ t, step s (.get len) = some t ∧ ∃ content', Inv size t content' := by
  obtain ⟨positive,most⟩ := half power below
  have fits := inv.fits
  obtain ⟨l,isL,room⟩ : ∃ l, (if len > content.length then content.length else len) = l ∧ l ≤ content.length :=
    ⟨_,rfl,by split <;> omega⟩
  have off := Nat.mod_lt s.fifo.out positive
  have read := (inv.holds.shift (Nat.mod_mod ..)).read room
  simp only [step,kapiKfifoOut,inv.len power below,isL,inv.isSize,mask_eq power]
  rw [Nat.mod_eq_of_lt (show s.fifo.out % size + l < 2^32 by omega)]
  refine ⟨_,rfl,content.drop l,rfl,?_,Nat.mod_lt _ (by decide),?_,?_,?_⟩
  · have count := inv.count
    simp only [List.length_drop]
    omega
  · rw [List.length_drop]
    omega
  · exact (inv.holds.drop l).shift (mod_mod_size power below _)
  · have bytes : (if s.fifo.out % size + l > size then copyOut s.fifo.buffer (s.fifo.out % size) (size - s.fifo.out % size) ++
        copyOut s.fifo.buffer 0 (l - (size - s.fifo.out % size)) else copyOut s.fifo.buffer (s.fifo.out % size) l) =
        content.take l := by
      rw [← read]
      split
      · exact copyOut_wrap _ (Nat.le_of_lt off) (by omega) (by omega)
      · exact Rings.read_flat (by omega)
    rw [bytes,List.append_assoc,List.take_append_drop,inv.order]

end

theorem inv_step (s : State) (request : Request) (inv : ∃ content, Inv size s content) :
    ∃ t, step s request = some t ∧ ∃ content, Inv size t content := by
  obtain ⟨content,inv⟩ := inv
  cases request with
  | put buf len => exact Inv.put power below inv buf len
  | get len => exact Inv.get power below inv len

end

/-- A queue whose size is a power of two gives out the bytes that were put in, in their order, in every run. -/
theorem kfifo_run_stream {size : BitVec 32} {k : Nat} (power : size.toNat = 2^k) {memory : Option (Nat → Byte)} {fifo : Kfifo}
    (accepted : kapiKfifoInit size memory = some fifo) (requests : List Request) :
    ∃ t, run step ⟨fifo,[],[]⟩ requests = some t ∧ ∃ content, t.got ++ content = t.put ∧
      kapiKfifoLen t.fifo = content.length ∧ content.length ≤ size.toNat := by
  have below : k < 32 := (Nat.pow_lt_pow_iff_right (by decide)).mp (power ▸ size.isLt)
  have first : ∃ content, Inv size.toNat ⟨fifo,[],[]⟩ content := by
    obtain ⟨-,bytes,-,rfl⟩ := by simpa [kapiKfifoInit] using accepted
    exact ⟨[],rfl,rfl,by simp,by simp,nofun,rfl⟩
  obtain ⟨t,ran,content,inv⟩ := run_always (inv_step power below) requests ⟨fifo,[],[]⟩ first
  exact ⟨t,ran,content,inv.order,inv.len power below,inv.fits⟩

theorem kfifo_run_stream_round : ∃ t, run step ⟨⟨fun _ => 0,4,0,0⟩,[],[]⟩
    [.put (fun _ => 7) 3,.get 2,.put (fun _ => 8) 9,.get 9] = some t ∧ ∃ content, t.got ++ content = t.put ∧
      kapiKfifoLen t.fifo = content.length ∧ content.length ≤ 4 :=
  @kfifo_run_stream 4 2 rfl (some fun _ => 0) _ rfl _

theorem kfifo_three_overwrites : kapiKfifoInit 3 (some fun _ => 0) = some ⟨fun _ => 0,3,0,0⟩ ∧
    (run step ⟨⟨fun _ => 0,3,0,0⟩,[],[]⟩ [.put (fun _ => 7) 1,.put (fun _ => 8) 1,.get 2]).map
      (fun t => (t.put,t.got)) = some ([7,8],[8,0]) :=
  ⟨rfl,by decide +kernel⟩

end Kenux.KapiKfifo
