import Kenux.Runs
import Mathlib.Data.Nat.Basic

/-!
The descriptors of a virtio block device (`virtio.c`). The free list is a ring threaded
through the `next` fields that the request chains overwrite, and nothing is ever given back
to it. `blk_run_chained` proves that every request takes three different descriptors and
hands the device a chain of two links, as long as the queue size is a multiple of three or
the requests are the first `num / 3 + 2`; `blk_submit_repeats` is a queue of four whose
fourth request takes one descriptor twice.
-/
namespace Kenux.Virtio
open Kenux.Runs

def descNext : BitVec 16 := 1
def descWrite : BitVec 16 := 2
def typeIn : BitVec 32 := 0
def typeOut : BitVec 32 := 1

structure Desc where
  addr : BitVec 64 := 0
  len : BitVec 32 := 0
  flags : BitVec 16 := 0
  next : Nat := 0
deriving DecidableEq

/-- The queue: its table of `num` descriptors, the ring of chains made available, and the indices. -/
structure Virtqueue where
  num : Nat
  descs : Nat → Desc
  ring : Nat → Nat
  freeHead : Nat
  lastUsedIdx : BitVec 16
  availIdx : BitVec 16

/-- `__vq_alloc` once its three allocations succeeded: the loop links the descriptors to a ring. -/
def vqAlloc (num : Nat) : Virtqueue where
  num := num
  descs := fun i => if i < num then { next := (i + 1) % num } else {}
  ring := fun _ => 0
  freeHead := 0
  lastUsedIdx := 0
  availIdx := 0

/-- `__vq_get_desc`; `none` is a read outside the table. -/
def vqGetDesc (vq : Virtqueue) : Option (Nat × Virtqueue) :=
  if vq.freeHead < vq.num then some (vq.freeHead,{ vq with freeHead := (vq.descs vq.freeHead).next }) else none

def vqAddAvail (idx : Nat) (vq : Virtqueue) : Virtqueue :=
  { vq with ring := Function.update vq.ring (vq.availIdx.toNat % vq.num) idx, availIdx := vq.availIdx + 1 }

def Virtqueue.setDesc (vq : Virtqueue) (i : Nat) (d : Desc) : Virtqueue :=
  { vq with descs := Function.update vq.descs i d }

/-- The three descriptors of a request. -/
structure Taken where
  hdr : Nat
  data : Nat
  status : Nat
deriving DecidableEq

/-- What a request meets: the addresses of its two buffers, 0 where `kzalloc` fails, and
    the status byte of the completion, if the polls of the used ring see one. -/
structure Outcome where
  req : BitVec 64
  status : BitVec 64
  completed : Option (BitVec 8)
deriving DecidableEq

def takeThree (vq : Virtqueue) : Option (Taken × Virtqueue) := do
  let (hdr,vq) ← vqGetDesc vq
  let (data,vq) ← vqGetDesc vq
  let (status,vq) ← vqGetDesc vq
  return (⟨hdr,data,status⟩,vq)

/-- The chain of a request, descriptor by descriptor in the order of the writes. -/
def writeChain (type : BitVec 32) (buf : BitVec 64) (len : BitVec 32) (out : Outcome) (taken : Taken)
    (vq : Virtqueue) : Virtqueue :=
  let vq := vq.setDesc taken.hdr { addr := out.req, len := 16, flags := descNext, next := taken.data }
  let vq := vq.setDesc taken.data
    { addr := buf, len, flags := (if type = typeOut then 0 else descWrite) ||| descNext, next := taken.status }
  vq.setDesc taken.status { addr := out.status, len := 1, flags := descWrite, next := 0 }

/-- `__blk_submit`: what it returns, the descriptors it took, the table it showed to the
    device, if any, and the queue after it. -/
def blkSubmit (type : BitVec 32) (buf : BitVec 64) (len : BitVec 32) (out : Outcome) (vq : Virtqueue) :
    Option (Int × Taken × Option (Nat → Desc) × Virtqueue) := do
  let (taken,vq) ← takeThree vq
  if out.req = 0 then return (-1,taken,none,vq)
  let vq := vqAddAvail taken.hdr (writeChain type buf len out taken vq)
  match out.completed with
  | some byte => return (if byte = 0 then 0 else -1,taken,some vq.descs,{ vq with lastUsedIdx := vq.lastUsedIdx + 1 })
  | none => return (-1,taken,some vq.descs,vq)

def follow (descs : Nat → Desc) (i : Nat) : Option Nat :=
  if (descs i).flags &&& descNext ≠ 0 then some (descs i).next else none

/-- `virtio_blk_read` and `virtio_blk_write` of a ready device. -/
inductive Request where
  | read (buf : BitVec 64) (nsects : BitVec 32) (out : Outcome)
  | write (buf : BitVec 64) (nsects : BitVec 32) (out : Outcome)
deriving DecidableEq

/-- What a request did: its descriptors and the table the device was shown. -/
structure Entry where
  taken : Taken
  shown : Option (Nat → Desc)

/-- The queue, and what each request has done, the latest first. -/
structure State where
  vq : Virtqueue
  log : List Entry

def submit (type : BitVec 32) (buf : BitVec 64) (nsects : BitVec 32) (out : Outcome) (s : State) : Option State :=
  (blkSubmit type buf (nsects * 512) out s.vq).map
    (fun result => { vq := result.2.2.2, log := ⟨result.2.1,result.2.2.1⟩ :: s.log })

def step (s : State) : Request → Option State
  | .read buf nsects out => submit typeIn buf nsects out s
  | .write buf nsects out => submit typeOut buf nsects out s

def start (num : Nat) : State := ⟨vqAlloc num,[]⟩

/-- The queue size is a multiple of three, or no more than `num / 3 + 1` requests came before. -/
def Meets (s : State) (_ : Request) : Prop := s.vq.num % 3 = 0 ∨ s.log.length < s.vq.num / 3 + 2

instance (s : State) (a : Request) : Decidable (Meets s a) := inferInstanceAs (Decidable (_ ∨ _))

def Taken.Distinct (taken : Taken) : Prop :=
  taken.hdr ≠ taken.data ∧ taken.data ≠ taken.status ∧ taken.hdr ≠ taken.status

instance (taken : Taken) : Decidable taken.Distinct := inferInstanceAs (Decidable (_ ∧ _ ∧ _))

/-- From the header two links lead over the data to the status, and none leads on. -/
def Taken.Chained (taken : Taken) (descs : Nat → Desc) : Prop :=
  follow descs taken.hdr = some taken.data ∧ follow descs taken.data = some taken.status
    ∧ follow descs taken.status = none

/-- Three different descriptors, and a chain of two links in the table shown to the device. -/
def Entry.Good (entry : Entry) : Prop :=
  entry.taken.Distinct ∧ ∀ descs, entry.shown = some descs → entry.taken.Chained descs

variable {vq : Virtqueue} {s : State}

/-- The successor of a descriptor in the free list. -/
def Virtqueue.next (vq : Virtqueue) (i : Nat) : Nat := (vq.descs i).next

/-- The successors after a request that took the three descriptors. -/
def relinked (written : Bool) (taken : Taken) (next : Nat → Nat) (i : Nat) : Nat :=
  if written then
    if i = taken.status then 0 else if i = taken.data then taken.status else if i = taken.hdr then taken.data else next i
  else next i

/-- A queue whose next three free descriptors are the given ones. -/
structure Offers (vq : Virtqueue) (taken : Taken) : Prop where
  hdr : vq.freeHead = taken.hdr
  data : vq.next taken.hdr = taken.data
  status : vq.next taken.data = taken.status
  hdrBound : taken.hdr < vq.num
  dataBound : taken.data < vq.num
  statusBound : taken.status < vq.num

private theorem vqGetDesc_eq (vq : Virtqueue) (inside : vq.freeHead < vq.num) :
    vqGetDesc vq = some (vq.freeHead,{ vq with freeHead := vq.next vq.freeHead }) := if_pos inside

variable {taken : Taken} {i h count num : Nat} {written : Bool} {next : Nat → Nat}

theorem takeThree_eq (offers : Offers vq taken) :
    takeThree vq = some (taken,{ vq with freeHead := vq.next taken.status }) := by
  have first := vqGetDesc_eq vq (by rw [offers.hdr]; exact offers.hdrBound)
  rw [offers.hdr,offers.data] at first
  have second := vqGetDesc_eq { vq with freeHead := taken.data } offers.dataBound
  have third := vqGetDesc_eq { vq with freeHead := taken.status } offers.statusBound
  rw [show Virtqueue.next { vq with freeHead := taken.data } taken.data = taken.status from offers.status] at second
  simp only [takeThree,first,second,third,bind,Option.bind]
  rfl

theorem writeChain_next (type : BitVec 32) (buf : BitVec 64) (len : BitVec 32) (out : Outcome) (taken : Taken)
    (vq : Virtqueue) : (writeChain type buf len out taken vq).next = relinked true taken vq.next := by
  funext i
  simp only [writeChain,Virtqueue.setDesc,Virtqueue.next,relinked,Function.update_apply]
  split
  · rfl
  split
  · rfl
  split <;> rfl

theorem writeChain_chained (type : BitVec 32) (buf : BitVec 64) (len : BitVec 32) (out : Outcome)
    (distinct : taken.Distinct) (vq : Virtqueue) : taken.Chained (writeChain type buf len out taken vq).descs := by
  obtain ⟨headData,dataStatus,headStatus⟩ := distinct
  refine ⟨?_,?_,?_⟩
  · simp [follow,writeChain,Virtqueue.setDesc,Function.update_of_ne headStatus,Function.update_of_ne headData,descNext]
  · by_cases sent : type = typeOut
    · simp [follow,writeChain,Virtqueue.setDesc,Function.update_of_ne dataStatus,descNext,sent]
    · simp [follow,writeChain,Virtqueue.setDesc,Function.update_of_ne dataStatus,descNext,descWrite,sent]
  · simp [follow,writeChain,Virtqueue.setDesc,descNext,descWrite]

/-- A queue after a request that took the three descriptors. -/
structure Moved (vq : Virtqueue) (taken : Taken) (new : Virtqueue) : Prop where
  num : new.num = vq.num
  freeHead : new.freeHead = vq.next taken.status
  next : ∃ written, new.next = relinked written taken vq.next

theorem submit_after (type : BitVec 32) (buf : BitVec 64) (nsects : BitVec 32) (out : Outcome)
    (offers : Offers s.vq taken) (distinct : taken.Distinct) :
    ∃ t entry, submit type buf nsects out s = some t ∧ Moved s.vq taken t.vq ∧ t.log = entry :: s.log ∧ entry.Good := by
  have chained := writeChain_chained type buf (nsects * 512) out distinct
    { s.vq with freeHead := s.vq.next taken.status }
  have nexts := writeChain_next type buf (nsects * 512) out taken { s.vq with freeHead := s.vq.next taken.status }
  simp only [submit,blkSubmit,takeThree_eq offers,bind,Option.bind]
  split
  · exact ⟨_,_,rfl,⟨rfl,rfl,false,rfl⟩,rfl,distinct,fun _ shown => by cases shown⟩
  · have good : Entry.Good ⟨taken,some (writeChain type buf (nsects * 512) out taken
        { s.vq with freeHead := s.vq.next taken.status }).descs⟩ :=
      ⟨distinct,fun descs shown => by cases shown; exact chained⟩
    cases out.completed with
    | none | some byte => exact ⟨_,_,rfl,⟨rfl,rfl,true,nexts⟩,rfl,good⟩

/-- Every descriptor leads to the one after it, except that the last of a block of three may lead to 0. -/
def Ringed (vq : Virtqueue) : Prop :=
  ∀ i < vq.num, vq.next i = (i + 1) % vq.num ∨ i % 3 = 2 ∧ vq.next i = 0

/-- The descriptors from the given one on have not been taken yet. -/
def Unused (vq : Virtqueue) (first : Nat) : Prop := ∀ i, first ≤ i → i < vq.num → vq.next i = (i + 1) % vq.num

/-- Where the free list stands, after so many requests. -/
inductive Place (vq : Virtqueue) (count : Nat) : Prop where
  /-- The size is a multiple of three: the list goes from block to block for ever. -/
  | blocks (size : vq.num % 3 = 0) (ringed : Ringed vq) (head : vq.freeHead % 3 = 0) (bound : vq.freeHead < vq.num)
  /-- The first pass over the table. -/
  | pass (size : vq.num % 3 ≠ 0) (early : count ≤ vq.num / 3) (ringed : Ringed vq) (unused : Unused vq (3 * count))
      (head : vq.freeHead = 3 * count)
  /-- One descriptor was left over: the list went on at 0 and 1. -/
  | afterOne (size : vq.num % 3 = 1) (late : count = vq.num / 3 + 1) (head : vq.freeHead = 2)
      (zero : vq.next 0 = 1) (two : vq.next 2 = 3 ∨ vq.next 2 = 0) (three : vq.next 3 = 4 % vq.num)
  /-- Two were left over: the list went on at 0. -/
  | afterTwo (size : vq.num % 3 = 2) (late : count = vq.num / 3 + 1) (head : vq.freeHead = 1)
      (one : vq.next 1 = 2) (two : vq.next 2 = 3 ∨ vq.next 2 = 0)
  | done (size : vq.num % 3 ≠ 0) (late : vq.num / 3 + 2 ≤ count)

structure Inv (s : State) : Prop where
  size : 3 ≤ s.vq.num
  place : Place s.vq s.log.length
  good : ∀ entry ∈ s.log, entry.Good

theorem relinked_of_ne (hdr : i ≠ taken.hdr)
    (data : i ≠ taken.data) (status : i ≠ taken.status) : relinked written taken next i = next i := by
  simp [relinked,hdr,data,status]

theorem relinked_block (written : Bool) (first : next h = h + 1) (second : next (h + 1) = h + 2)
    (i : Nat) : relinked written ⟨h,h + 1,h + 2⟩ next i = next i ∨ i = h + 2 ∧ relinked written ⟨h,h + 1,h + 2⟩ next i = 0 := by
  cases written with
  | false => exact .inl rfl
  | true =>
    by_cases status : i = h + 2
    · exact .inr ⟨status,by simp [relinked,status]⟩
    · left
      by_cases data : i = h + 1
      · simp [relinked,data,second]
      · by_cases hdr : i = h
        · simp [relinked,hdr,first]
        · exact relinked_of_ne hdr data status

/-- The queue offers three different descriptors, and taking them leads to the given place. -/
def Served (vq : Virtqueue) (count : Nat) : Prop :=
  ∃ taken, Offers vq taken ∧ taken.Distinct ∧ ∀ new, Moved vq taken new → Place new (count + 1)

theorem served_of {hdr data status : Nat} (head : vq.freeHead = hdr) (second : vq.next hdr = data)
    (third : vq.next data = status) (bounds : hdr < vq.num ∧ data < vq.num ∧ status < vq.num)
    (distinct : hdr ≠ data ∧ data ≠ status ∧ hdr ≠ status)
    (leads : ∀ new, Moved vq ⟨hdr,data,status⟩ new → Place new (count + 1)) : Served vq count :=
  ⟨⟨hdr,data,status⟩,⟨head,second,third,bounds.1,bounds.2.1,bounds.2.2⟩,distinct,leads⟩

section
variable (ringed : Ringed vq)
include ringed

theorem Ringed.next_of_ne (inside : i + 1 < vq.num) (inner : i % 3 ≠ 2) : vq.next i = i + 1 := by
  rcases ringed i (by omega) with same | ⟨last,_⟩
  · rw [same,Nat.mod_eq_of_lt inside]
  · exact absurd last inner

theorem Ringed.block {new : Virtqueue} (block : h % 3 = 0) (bound : h + 2 < vq.num)
    (num : new.num = vq.num) (next : new.next = relinked written ⟨h,h + 1,h + 2⟩ vq.next) :
    Ringed new := by
  intro i inside
  rw [num] at inside ⊢
  rw [next]
  rcases relinked_block written (ringed.next_of_ne (i := h) (by omega) (by omega))
    (ringed.next_of_ne (i := h + 1) (by omega) (by omega)) i with same | ⟨last,cut⟩
  · rw [same]
    exact ringed i inside
  · exact .inr ⟨by omega,cut⟩

theorem Ringed.served (head : vq.freeHead = h) (block : h % 3 = 0) (bound : h + 2 < vq.num)
    (leads : ∀ new, Moved vq ⟨h,h + 1,h + 2⟩ new → Place new (count + 1)) : Served vq count :=
  served_of head (ringed.next_of_ne (by omega) (by omega)) (ringed.next_of_ne (by omega) (by omega)) (by omega)
    (by omega) leads

theorem Ringed.two (least : 3 < vq.num) : vq.next 2 = 3 ∨ vq.next 2 = 0 := by
  rcases ringed 2 (by omega) with same | ⟨_,cut⟩
  · exact .inl (by rw [same,Nat.mod_eq_of_lt least])
  · exact .inr cut

theorem Ringed.three (least : 3 < vq.num) : vq.next 3 = 4 % vq.num := by
  rcases ringed 3 least with same | ⟨last,_⟩
  · exact same
  · omega

end

theorem served_blocks (size : vq.num % 3 = 0) (ringed : Ringed vq)
    (head : vq.freeHead % 3 = 0) (bound : vq.freeHead < vq.num) : Served vq count := by
  have room : vq.freeHead + 2 < vq.num := by omega
  refine ringed.served rfl head room ?_
  rintro new ⟨num,freeHead,written,next⟩
  have target : new.freeHead = (vq.freeHead + 3) % vq.num ∨ new.freeHead = 0 := by
    rw [freeHead]
    exact (ringed _ room).imp_right And.right
  refine .blocks (by rw [num]; exact size) (ringed.block head room num next) ?_ ?_
  · rcases target with same | zero
    · rw [same,Nat.mod_mod_of_dvd _ (Nat.dvd_of_mod_eq_zero size)]
      omega
    · rw [zero]
  · rw [num]
    rcases target with same | zero
    · rw [same]
      exact Nat.mod_lt _ (by omega)
    · omega

section
variable (ringed : Ringed vq) (unused : Unused vq (3 * count)) (head : vq.freeHead = 3 * count)
include ringed unused head

theorem served_pass (size : vq.num % 3 ≠ 0) (early : count < vq.num / 3) : Served vq count := by
  have room : 3 * count + 2 < vq.num := by omega
  refine ringed.served head (by omega) room ?_
  rintro new ⟨num,freeHead,written,next⟩
  refine .pass (by rw [num]; exact size) (by rw [num]; omega) (ringed.block (by omega) room num next) ?_ ?_
  · intro i later inside
    rw [num] at inside ⊢
    rw [next,relinked_of_ne (show i ≠ 3 * count by omega) (show i ≠ 3 * count + 1 by omega)
      (show i ≠ 3 * count + 2 by omega)]
    exact unused i (by omega) inside
  · rw [freeHead,unused (3 * count + 2) (by omega) room,Nat.mod_eq_of_lt (by omega)]
    omega

theorem served_one (least : 3 ≤ vq.num) (size : vq.num % 3 = 1) (last : count = vq.num / 3) : Served vq count := by
  have whole : 3 * count + 1 = vq.num := by omega
  have zero : vq.next 0 = 1 := ringed.next_of_ne (by omega) (by omega)
  have end_ : vq.next (3 * count) = 0 := by rw [unused _ (le_refl _) (by omega),whole,Nat.mod_self]
  refine served_of head end_ zero (by omega) (by omega) ?_
  rintro new ⟨num,freeHead,written,next⟩
  have far : ∀ i, i ≠ 3 * count → i ≠ 0 → i ≠ 1 → new.next i = vq.next i := fun i hdr data status => by
    rw [next,relinked_of_ne hdr data status]
  refine .afterOne (by rw [num]; exact size) (by rw [num,last]) ?_ ?_ ?_ ?_
  · rw [freeHead]
    exact ringed.next_of_ne (i := 1) (by omega) (by omega)
  · rw [next]
    cases written with
    | false => exact zero
    | true => rfl
  · rw [far 2 (by omega) (by omega) (by omega)]
    exact ringed.two (by omega)
  · by_cases only : count = 1
    · rw [next,num,← whole,only]
      cases written with
      | false => rw [only] at end_; exact end_
      | true => rfl
    · rw [far 3 (by omega) (by omega) (by omega),num]
      exact ringed.three (by omega)

theorem served_two (least : 3 ≤ vq.num) (size : vq.num % 3 = 2) (last : count = vq.num / 3) : Served vq count := by
  have whole : 3 * count + 2 = vq.num := by omega
  have end_ : vq.next (3 * count + 1) = 0 := by rw [unused _ (by omega) (by omega),whole,Nat.mod_self]
  refine served_of head (ringed.next_of_ne (by omega) (by omega)) end_ (by omega) (by omega) ?_
  rintro new ⟨num,freeHead,written,next⟩
  have far : ∀ i, i ≠ 3 * count → i ≠ 3 * count + 1 → i ≠ 0 → new.next i = vq.next i := fun i hdr data status => by
    rw [next,relinked_of_ne hdr data status]
  refine .afterTwo (by rw [num]; exact size) (by rw [num,last]) ?_ ?_ ?_
  · rw [freeHead]
    exact ringed.next_of_ne (i := 0) (by omega) (by omega)
  · rw [far 1 (by omega) (by omega) (by omega)]
    exact ringed.next_of_ne (i := 1) (by omega) (by omega)
  · rw [far 2 (by omega) (by omega) (by omega)]
    exact ringed.two (by omega)

end

private theorem moved_done (size : vq.num % 3 ≠ 0) (late : count = vq.num / 3 + 1) (taken : Taken) (new : Virtqueue)
    (moved : Moved vq taken new) : Place new (count + 1) :=
  .done (by rw [moved.num]; exact size) (by rw [moved.num]; omega)

theorem served_afterOne (least : 3 ≤ vq.num) (size : vq.num % 3 = 1)
    (late : count = vq.num / 3 + 1) (head : vq.freeHead = 2) (zero : vq.next 0 = 1)
    (two : vq.next 2 = 3 ∨ vq.next 2 = 0) (three : vq.next 3 = 4 % vq.num) : Served vq count := by
  rcases two with on | back
  · have range : 4 % vq.num < vq.num := Nat.mod_lt _ (by omega)
    have apart : 4 % vq.num = 4 ∨ 4 % vq.num = 0 := by
      rcases Nat.lt_or_ge 4 vq.num with more | four
      · exact .inl (Nat.mod_eq_of_lt more)
      · exact .inr (by rw [show vq.num = 4 by omega])
    exact served_of head on three (by omega) (by omega) (moved_done (by omega) late _)
  · exact served_of head back zero (by omega) (by omega) (moved_done (by omega) late _)

theorem served_afterTwo (least : 3 ≤ vq.num) (size : vq.num % 3 = 2)
    (late : count = vq.num / 3 + 1) (head : vq.freeHead = 1) (one : vq.next 1 = 2)
    (two : vq.next 2 = 3 ∨ vq.next 2 = 0) : Served vq count := by
  rcases two with on | back
  · exact served_of head one on (by omega) (by omega) (moved_done (by omega) late _)
  · exact served_of head one back (by omega) (by omega) (moved_done (by omega) late _)

theorem Place.served (place : Place vq count) (least : 3 ≤ vq.num)
    (meets : vq.num % 3 = 0 ∨ count < vq.num / 3 + 2) : Served vq count := by
  cases place with
  | blocks size ringed head bound => exact served_blocks size ringed head bound
  | pass size early ringed unused head =>
    rcases Nat.lt_or_eq_of_le early with before | last
    · exact served_pass ringed unused head size before
    · rcases (by omega : vq.num % 3 = 1 ∨ vq.num % 3 = 2) with one | two
      · exact served_one ringed unused head least one last
      · exact served_two ringed unused head least two last
  | afterOne size late head zero two three => exact served_afterOne least size late head zero two three
  | afterTwo size late head one two => exact served_afterTwo least size late head one two
  | done size late => omega

theorem Inv.submit (inv : Inv s) (meets : s.vq.num % 3 = 0 ∨ s.log.length < s.vq.num / 3 + 2) (type : BitVec 32)
    (buf : BitVec 64) (nsects : BitVec 32) (out : Outcome) :
    ∃ t, submit type buf nsects out s = some t ∧ Inv t ∧ t.log.length = s.log.length + 1 := by
  obtain ⟨taken,offers,distinct,places⟩ := inv.place.served inv.size meets
  obtain ⟨t,entry,done,moved,log,good⟩ := submit_after type buf nsects out offers distinct
  have length : t.log.length = s.log.length + 1 := by rw [log,List.length_cons]
  refine ⟨t,done,⟨by rw [moved.num]; exact inv.size,?_,?_⟩,length⟩
  · rw [length]
    exact places t.vq moved
  · rw [log]
    exact List.forall_mem_cons.mpr ⟨good,inv.good⟩

theorem inv_step (a : Request) (inv : Inv s) (meets : Meets s a) :
    ∃ t, step s a = some t ∧ Inv t ∧ t.log.length = s.log.length + 1 := by
  cases a with
  | read buf nsects out => exact inv.submit meets typeIn buf nsects out
  | write buf nsects out => exact inv.submit meets typeOut buf nsects out

private theorem vqAlloc_next (inside : i < num) : (vqAlloc num).next i = (i + 1) % num := by
  simp [vqAlloc,Virtqueue.next,inside]

theorem start_inv (least : 3 ≤ num) : Inv (start num) := by
  refine ⟨least,?_,fun _ none => by cases none⟩
  have ringed : Ringed (vqAlloc num) := fun i inside => .inl (vqAlloc_next inside)
  by_cases size : num % 3 = 0
  · exact .blocks size ringed rfl (show 0 < num by omega)
  · exact .pass size (Nat.zero_le _) ringed (fun i _ inside => vqAlloc_next inside) rfl

/-- While the free list is not exhausted, each request has three different descriptors, chained as the device reads them. -/
theorem blk_run_chained (num : Nat) (least : 3 ≤ num) (requests : List Request)
    (guarded : Guarded step Meets (start num) requests) :
    ∃ s, run step (start num) requests = some s ∧ s.log.length = requests.length
      ∧ ∀ entry ∈ s.log, entry.Good := by
  have counted : ∀ n s a, n < requests.length → Inv s ∧ s.log.length = n → Meets s a →
      ∃ t, step s a = some t ∧ Inv t ∧ t.log.length = n + 1 := by
    rintro n s a _ ⟨inv,rfl⟩ meets
    exact inv_step a inv meets
  obtain ⟨s,ran,inv,length⟩ := @run_counted State Request step Meets (fun n s => Inv s ∧ s.log.length = n)
    requests.length counted requests 0 (start num) (by omega) ⟨start_inv least,rfl⟩ guarded
  exact ⟨s,ran,by omega,inv.good⟩

def someRead : Request := .read 4096 1 ⟨8192,12288,some 0⟩

theorem blk_run_chained_of_three : ∃ s, run step (start 4) [someRead,someRead,someRead] = some s
    ∧ s.log.length = 3 ∧ ∀ entry ∈ s.log, entry.Good :=
  blk_run_chained 4 (by decide) [someRead,someRead,someRead] (by decide +kernel)

/-- The fourth request on a queue of four takes descriptor 0 for its header and again for its status;
    the device finds no link out of the header. -/
theorem blk_submit_repeats :
    (run step (start 4) [someRead,someRead,someRead,someRead]).map
      (fun s => (s.log.map Entry.taken,s.log.head?.bind Entry.shown |>.bind (fun descs => follow descs 0)))
      = some ([⟨0,1,0⟩,⟨2,0,1⟩,⟨3,0,1⟩,⟨0,1,2⟩],none) := by decide +kernel

end Kenux.Virtio
