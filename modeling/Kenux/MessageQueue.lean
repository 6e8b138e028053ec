import Kenux.Links
import Kenux.Runs
import Mathlib.Algebra.BigOperators.Group.List.Basic
import Mathlib.Data.List.TakeWhile

/-!
System V message queues (`msg_get`, `msg_send`, `msg_recv` and `msg_ctl` of `ipc.c`), as
singly linked lists of allocated entries. The abstract model is a list of messages for each
queue (`Boxes`). `msg_run_refines` proves that every call has the result of the abstract
one, that count and bytes are those of the list and the bytes stay within the limit, and
that a failing call changes nothing, as long as fewer than `2 ^ 32 - 1` messages are
queued and `kzalloc` does not hand out the memory of an entry in use. `msg_recv_truncates`
loses what the caller has no room for.
-/
namespace Kenux.MessageQueue
open Kenux.Runs
open Links (Place Chain Parted seek)
open Function (update update_self update_of_ne)

abbrev Byte := BitVec 8

def msgMax : Nat := 64
def textMax : Nat := 4096

structure Message where
  mtype : BitVec 64
  text : List Byte
deriving DecidableEq

/-- What a call comes to: it waits for room or for a message, or it returns. -/
inductive Outcome where
  | waits
  | failed
  | queue (id : Nat)
  | sent
  | received (message : Message)
  | removed
  | status (msgCount currentBytes maxBytes : Nat)
deriving DecidableEq

/-- The test of `msg_recv` for a message of type `m`. -/
def selects (mtype m : BitVec 64) : Bool := mtype == 0 || m == mtype || (mtype.slt 0 && m.sle (-mtype))

/-- The calls; `memory` is what `kzalloc` returns in `msg_send`, any memory or `NULL`. -/
inductive Request (Cell : Type) where
  | msgGet (key : BitVec 64) (create : Bool)
  | msgSend (id : Nat) (mtype : BitVec 64) (text : Nat → Byte) (size : BitVec 64) (nowait : Bool) (memory : Option Cell)
  | msgRecv (id : Nat) (size : BitVec 64) (mtype : BitVec 64) (nowait : Bool)
  | msgCtl (id : Nat) (cmd : Int)

/-! ### The queues in memory -/

structure MsgQueue where
  key : BitVec 64
  msgCount : BitVec 32
  currentBytes : BitVec 64
  maxBytes : BitVec 64

/-- The table of queues, the heads of their lists, the fields of the entries, and the entries in use. -/
structure Memory (Cell : Type) where
  msgCount : Nat
  queues : Nat → MsgQueue
  entries : Nat → Option Cell
  next : Cell → Option Cell
  mtype : Cell → BitVec 64
  msize : Cell → BitVec 64
  mtext : Cell → Nat → Byte
  live : List Cell

section
variable {Cell : Type}
  {id : Nat} {mtype : BitVec 64} {nowait : Bool}

def msgInit : Memory Cell :=
  ⟨0,fun _ => ⟨0,0,0,0⟩,fun _ => none,fun _ => none,fun _ => 0,fun _ => 0,fun _ _ => 0,[]⟩

def Memory.setQueue (m : Memory Cell) (id : Nat) (q : MsgQueue) : Memory Cell :=
  { m with queues := update m.queues id q }

/-- The search of `msg_get` among the queues in use. -/
def findKey (key : BitVec 64) (m : Memory Cell) : Option Nat :=
  if key = 0 then none else (List.range m.msgCount).find? (fun i => (m.queues i).key = key)

def msgGet (key : BitVec 64) (create : Bool) (m : Memory Cell) : Outcome × Memory Cell :=
  match findKey key m with
  | some id => (.queue id,m)
  | none =>
    if key ≠ 0 ∧ create = false then (.failed,m)
    else if m.msgCount ≥ msgMax then (.failed,m)
    else (.queue m.msgCount,{ m.setQueue m.msgCount ⟨key,0,0,65536⟩ with
      msgCount := m.msgCount + 1, entries := update m.entries m.msgCount none })

private theorem msgGet_failed {m m' : Memory Cell} {key : BitVec 64} {create : Bool} (failed : msgGet key create m = (.failed,m')) : m' = m := by
  rw [msgGet] at failed
  split at failed
  · cases failed
  split at failed
  · cases failed; rfl
  split at failed
  · cases failed; rfl
  · cases failed

variable [DecidableEq Cell]

variable (m : Memory Cell)

/-- The new entry, filled and not yet linked. -/
def Memory.compose (c : Cell) (mtype : BitVec 64) (text : Nat → Byte) (size : BitVec 64) : Memory Cell :=
  { m with
    next := update m.next c none
    mtype := update m.mtype c mtype
    msize := update m.msize c size
    mtext := update m.mtext c (fun i => if i < size.toNat then text i else 0)
    live := c :: m.live }

/-- A pointer written to a place of the queue's list. -/
def Memory.write (id : Nat) (place : Place Cell) (v : Option Cell) : Memory Cell :=
  { m with
    next := place.setNext m.next v
    entries := update m.entries id (place.setHead (m.entries id) v) }

/-- The entry that `msg_send` puts in through the pointer at the end of the list. -/
def putIn (id : Nat) (place : Place Cell) (c : Cell) (size : BitVec 64) (m : Memory Cell) : Memory Cell :=
  let q := m.queues id
  (m.write id place (some c)).setQueue id { q with msgCount := q.msgCount + 1, currentBytes := q.currentBytes + size }

/-- The walk of `msg_send` to the end of the list. -/
def append (id : Nat) (c : Cell) (size : BitVec 64) (m : Memory Cell) : Option (Memory Cell) :=
  (seek (fun _ => false) m.next (m.entries id) (m.live.length + 1) .head).map (fun tail => putIn id tail c size m)

/-- `msg_send`; the loop for room has one turn, and a call that waits makes the next turn when it is called again. -/
def msgSend (id : Nat) (mtype : BitVec 64) (text : Nat → Byte) (size : BitVec 64) (nowait : Bool) (memory : Option Cell)
    (m : Memory Cell) : Option (Outcome × Memory Cell) :=
  if id ≥ m.msgCount then some (.failed,m)
  else if size.toNat > textMax then some (.failed,m)
  else if ((m.queues id).currentBytes + size).toNat > (m.queues id).maxBytes.toNat then
    some (if nowait then .failed else .waits,m)
  else
    match memory with
    | none => some (.failed,m)
    | some c => (append id c size (m.compose c mtype text size)).map (fun m => (.sent,m))

/-- The entry that `msg_recv` takes out through the pointer to it. -/
def takeOut (id : Nat) (place : Place Cell) (c : Cell) (m : Memory Cell) : Memory Cell :=
  let q := m.queues id
  { (m.write id place (m.next c)).setQueue id
      { q with msgCount := q.msgCount - 1, currentBytes := q.currentBytes - m.msize c } with
    live := m.live.erase c }

def deliver (size : BitVec 64) (c : Cell) (m : Memory Cell) : Message :=
  let copySize := if (m.msize c).toNat < size.toNat then m.msize c else size
  ⟨m.mtype c,(List.range copySize.toNat).map (m.mtext c)⟩

def msgRecv (id : Nat) (size : BitVec 64) (mtype : BitVec 64) (nowait : Bool) (m : Memory Cell) :
    Option (Outcome × Memory Cell) :=
  if id ≥ m.msgCount then some (.failed,m)
  else if m.entries id = none then some (if nowait then .failed else .waits,m)
  else
    (seek (fun c => selects mtype (m.mtype c)) m.next (m.entries id) (m.live.length + 1) .head).map (fun place =>
      match place.read m.next (m.entries id) with
      | none => (.failed,m)
      | some c => (.received (deliver size c m),takeOut id place c m))

def freeAll (next : Cell → Option Cell) : Nat → Option Cell → List Cell → Option (List Cell)
  | _, none, live => some live
  | 0, some _, _ => none
  | fuel+1, some c, live => freeAll next fuel (next c) (live.erase c)

def msgCtl (id : Nat) (cmd : Int) (m : Memory Cell) : Option (Outcome × Memory Cell) :=
  if id ≥ m.msgCount then some (.failed,m)
  else if cmd = 0 then
    (freeAll m.next (m.live.length + 1) (m.entries id) m.live).map (fun live =>
      (.removed,{ m.setQueue id ⟨0,0,0,0⟩ with live, entries := update m.entries id none }))
  else if cmd = 1 then
    let q := m.queues id
    some (.status q.msgCount.toNat q.currentBytes.toNat q.maxBytes.toNat,m)
  else some (.failed,m)

def call : Request Cell → Option (Outcome × Memory Cell)
  | .msgGet key create => some (msgGet key create m)
  | .msgSend id mtype text size nowait memory => msgSend id mtype text size nowait memory m
  | .msgRecv id size mtype nowait => msgRecv id size mtype nowait m
  | .msgCtl id cmd => msgCtl id cmd m

/-! ### The lists of messages -/

/-- A queue as its users see it. -/
structure Box where
  key : BitVec 64
  messages : List Message
  limit : Nat

structure Boxes where
  count : Nat
  box : Nat → Box

def Box.bytes (b : Box) : Nat := (b.messages.map (fun m => m.text.length)).sum

def Boxes.set (b : Boxes) (id : Nat) (x : Box) : Boxes := { b with box := update b.box id x }

def Boxes.start : Boxes := ⟨0,fun _ => ⟨0,[],0⟩⟩

def Boxes.get (key : BitVec 64) (create : Bool) (b : Boxes) : Outcome × Boxes :=
  match (if key = 0 then none else (List.range b.count).find? (fun i => (b.box i).key = key)) with
  | some id => (.queue id,b)
  | none =>
    if (key ≠ 0 ∧ create = false) ∨ b.count ≥ msgMax then (.failed,b)
    else (.queue b.count,{ b.set b.count ⟨key,[],65536⟩ with count := b.count + 1 })

/-- A message joins the end of its queue if there is room for its text and memory for its entry. -/
def Boxes.send (id : Nat) (message : Message) (nowait allocates : Bool) (b : Boxes) : Outcome × Boxes :=
  let x := b.box id
  if id ≥ b.count ∨ message.text.length > textMax then (.failed,b)
  else if x.bytes + message.text.length > x.limit then (if nowait then .failed else .waits,b)
  else if allocates then (.sent,b.set id { x with messages := x.messages ++ [message] })
  else (.failed,b)

/-- The earliest message that the selector admits leaves the queue; the caller gets its text as far as it has room. -/
def Boxes.receive (id : Nat) (size : Nat) (mtype : BitVec 64) (nowait : Bool) (b : Boxes) : Outcome × Boxes :=
  let x := b.box id
  if id ≥ b.count then (.failed,b)
  else if x.messages = [] then (if nowait then .failed else .waits,b)
  else
    match x.messages.find? (fun m => selects mtype m.mtype) with
    | none => (.failed,b)
    | some m => (.received { m with text := m.text.take size },
        b.set id { x with messages := x.messages.eraseP (fun m => selects mtype m.mtype) })

def Boxes.control (id : Nat) (cmd : Int) (b : Boxes) : Outcome × Boxes :=
  let x := b.box id
  if id ≥ b.count then (.failed,b)
  else if cmd = 0 then (.removed,b.set id ⟨0,[],0⟩)
  else if cmd = 1 then (.status x.messages.length x.bytes x.limit,b)
  else (.failed,b)

/-- The abstract call, told whether memory is found for a new entry. -/
def Boxes.call (allocates : Bool) (b : Boxes) : Request Cell → Outcome × Boxes
  | .msgGet key create => b.get key create
  | .msgSend id mtype text size nowait _ => b.send id ⟨mtype,(List.range size.toNat).map text⟩ nowait allocates
  | .msgRecv id size mtype nowait => b.receive id size.toNat mtype nowait
  | .msgCtl id cmd => b.control id cmd

/-- Memory and abstract queues side by side, and what each call came to in both. -/
structure State (Cell : Type) where
  mem : Memory Cell
  boxes : Boxes
  results : List (Outcome × Outcome)

def start : State Cell := ⟨msgInit,.start,[]⟩

/-- Whether `kzalloc` finds memory for the call. -/
def allocates : Request Cell → Bool
  | .msgSend _ _ _ _ _ memory => memory.isSome
  | _ => false

def step (s : State Cell) (a : Request Cell) : Option (State Cell) :=
  (call s.mem a).map (fun result =>
    let abstract := s.boxes.call (allocates a) a
    ⟨result.2,abstract.2,(result.1,abstract.1) :: s.results⟩)

/-- The count of the queue has room for one message more, and the memory that `kzalloc` returns is not that of an
    entry in use. -/
def Meets (s : State Cell) : Request Cell → Prop
  | .msgSend id _ _ _ _ memory => (s.mem.queues id).msgCount.toNat + 1 < 2 ^ 32 ∧ ∀ c ∈ memory, c ∉ s.mem.live
  | _ => True

instance (s : State Cell) : ∀ a, Decidable (Meets s a)
  | .msgSend .. => inferInstanceAs (Decidable (_ ∧ _))
  | .msgGet _ _ | .msgRecv _ _ _ _ | .msgCtl _ _ => .isTrue trivial

def Memory.message (c : Cell) : Message :=
  ⟨m.mtype c,(List.range (m.msize c).toNat).map (m.mtext c)⟩

/-- A queue in memory, its abstract one and its entries: the messages are those of the entries, count and bytes are
    theirs, and the bytes are within the limit. -/
structure Fits (message : Cell → Message) (q : MsgQueue) (x : Box) (cells : List Cell) : Prop where
  key : x.key = q.key
  limit : x.limit = q.maxBytes.toNat
  contents : x.messages = cells.map message
  length : q.msgCount.toNat = cells.length
  bytes : q.currentBytes.toNat = x.bytes
  within : x.bytes ≤ x.limit
  small : x.limit ≤ 65536

/-- The lists of all queues are well formed, share no entry, and fit. -/
structure Holds (m : Memory Cell) (b : Boxes) (lists : Nat → List Cell) : Prop where
  count : b.count = m.msgCount
  chains : ∀ id, Chain m.next (m.entries id) (lists id)
  parted : Parted lists
  live : ∀ id, ∀ c ∈ lists id, c ∈ m.live
  fits : ∀ id, Fits m.message (m.queues id) (b.box id) (lists id)
  unused : ∀ id, m.msgCount ≤ id → lists id = []

/-- The queues in memory are the abstract ones, every call came to what the abstract call comes to, and a call that
    fails from here changes nothing. -/
structure Sound (s : State Cell) : Prop where
  lists : ∃ lists, Holds s.mem s.boxes lists
  results : ∀ r ∈ s.results, r.1 = r.2
  failing : ∀ a m, call s.mem a = some (.failed,m) → m = s.mem

section
variable {m m' : Memory Cell} {size : BitVec 64}

theorem msgSend_failed {text : Nat → Byte}
    {memory : Option Cell} (failed : msgSend id mtype text size nowait memory m = some (.failed,m')) : m' = m := by
  unfold msgSend at failed
  split at failed
  · cases failed
    rfl
  split at failed
  · cases failed
    rfl
  split at failed
  · exact (Prod.mk.inj (Option.some.inj failed)).2.symm
  split at failed
  · cases failed
    rfl
  · obtain ⟨_,_,same⟩ := Option.map_eq_some_iff.mp failed
    cases same

theorem msgRecv_failed (failed : msgRecv id size mtype nowait m = some (.failed,m')) : m' = m := by
  rw [msgRecv] at failed
  split at failed
  · cases failed
    rfl
  split at failed
  · exact (Prod.mk.inj (Option.some.inj failed)).2.symm
  · obtain ⟨_,_,same⟩ := Option.map_eq_some_iff.mp failed
    split at same
    · cases same; rfl
    · cases same

private theorem msgCtl_failed {cmd : Int} (failed : msgCtl id cmd m = some (.failed,m')) : m' = m := by
  rw [msgCtl] at failed
  split at failed
  · cases failed
    rfl
  split at failed
  · obtain ⟨_,_,same⟩ := Option.map_eq_some_iff.mp failed
    cases same
  split at failed
  · cases failed
  · cases failed
    rfl

theorem call_failed {a : Request Cell} (failed : call m a = some (.failed,m')) : m' = m := by
  cases a with
  | msgGet key create => exact msgGet_failed (Option.some.inj failed)
  | msgSend id mtype text size nowait memory => exact msgSend_failed failed
  | msgRecv id size mtype nowait => exact msgRecv_failed failed
  | msgCtl id cmd => exact msgCtl_failed failed

end

end

section
variable {Cell : Type} {m : Memory Cell} {b : Boxes} {lists : Nat → List Cell} {id : Nat} {c : Cell}
  {q : MsgQueue} {x : Box}

variable {cells left right : List Cell}

theorem Fits.congr {message message' : Cell → Message}
    (fits : Fits message q x cells) (same : ∀ c ∈ cells, message' c = message c) : Fits message' q x cells :=
  { fits with contents := fits.contents.trans (List.map_congr_left (fun c member => (same c member).symm)) }

theorem Holds.enough (holds : Holds m b lists) (id : Nat) : (lists id).length < m.live.length + 1 :=
  Nat.lt_succ_of_le (List.subperm_of_subset (holds.parted.distinct id) (holds.live id)).length_le

theorem Holds.seek (holds : Holds m b lists) (stop : Cell → Bool) (id : Nat) :
    seek stop m.next (m.entries id) (m.live.length + 1) .head
      = some (Place.head.behind ((lists id).takeWhile (fun a => !stop a))) := by
  have chain : Chain m.next (Place.head.read m.next (m.entries id)) (lists id) := holds.chains id
  exact Links.seek_chain chain (holds.enough id)

theorem Holds.replace {m' : Memory Cell} {b' : Boxes} (cells : List Cell) (holds : Holds m b lists)
    (inside : id < m'.msgCount) (more : m.msgCount ≤ m'.msgCount) (count : b'.count = m'.msgCount)
    (parted : Parted (update lists id cells)) (queues : m'.queues = update m.queues id q)
    (boxes : b'.box = update b.box id x) (here : Chain m'.next (m'.entries id) cells)
    (live : ∀ c ∈ cells, c ∈ m'.live) (fits : Fits m'.message q x cells)
    (others : ∀ j, j ≠ id → m'.entries j = m.entries j ∧
      ∀ c ∈ lists j, m'.next c = m.next c ∧ c ∈ m'.live ∧ m'.message c = m.message c) :
    Holds m' b' (update lists id cells) := by
  refine ⟨count,?_,parted,?_,?_,?_⟩
  · refine update_cases here (fun j other => ?_)
    rw [(others j other).1]
    exact Links.chain_congr (holds.chains j) (fun c member => ((others j other).2 c member).1)
  · exact update_cases live (fun j other c member => ((others j other).2 c member).2.1)
  · intro j
    rw [queues,boxes]
    by_cases same : j = id
    · subst same
      simpa only [update_self] using fits
    · rw [update_of_ne same,update_of_ne same,update_of_ne same]
      exact (holds.fits j).congr (fun c member => ((others j same).2 c member).2.2)
  · intro j later
    rw [update_of_ne (by omega)]
    exact holds.unused j (by omega)

/-- A call in memory that comes to what the abstract call comes to, and leaves the lists of the abstract queues. -/
def Agrees (result : Option (Outcome × Memory Cell)) (abstract : Outcome × Boxes) : Prop :=
  ∃ m, result = some (abstract.1,m) ∧ ∃ lists, Holds m abstract.2 lists

structure Inv (s : State Cell) : Prop where
  lists : ∃ lists, Holds s.mem s.boxes lists
  results : ∀ r ∈ s.results, r.1 = r.2

theorem start_inv : Inv (start : State Cell) := by
  refine ⟨⟨fun _ => [],?_⟩,fun r none => by cases none⟩
  have parted : Parted (fun _ => [] : Nat → List Cell) := ⟨fun _ => List.nodup_nil,fun _ _ _ none => by cases none⟩
  exact ⟨rfl,fun _ => rfl,parted,nofun,
    fun _ => ⟨rfl,rfl,rfl,rfl,rfl,Nat.le_refl 0,Nat.zero_le _⟩,fun _ _ => rfl⟩

theorem deliver_eq (size : BitVec 64) (c : Cell) (m : Memory Cell) :
    deliver size c m = { m.message c with text := (m.message c).text.take size.toNat } := by
  rw [deliver]
  dsimp only [Memory.message]
  rw [← List.map_take,List.take_range]
  split
  next less => rw [Nat.min_eq_right (Nat.le_of_lt less)]
  next more => rw [Nat.min_eq_left (Nat.le_of_not_lt more)]

/-! ### `msg_get` -/

theorem Holds.findKey (holds : Holds m b lists) (key : BitVec 64) :
    (if key = 0 then none else (List.range b.count).find? (fun i => (b.box i).key = key)) = findKey key m := by
  rw [MessageQueue.findKey,holds.count]
  simp only [(holds.fits _).key]

theorem Holds.msgGet (holds : Holds m b lists) (key : BitVec 64) (create : Bool) :
    Agrees (some (msgGet key create m)) (b.get key create) := by
  rw [MessageQueue.msgGet,Boxes.get,holds.findKey,holds.count]
  split
  · exact ⟨m,rfl,lists,holds⟩
  split
  case isTrue refused =>
    rw [if_pos (.inl refused)]
    exact ⟨m,rfl,lists,holds⟩
  rename_i refused
  split
  case isTrue full =>
    rw [if_pos (.inr full)]
    exact ⟨m,rfl,lists,holds⟩
  rename_i full
  rw [if_neg (not_or.mpr ⟨refused,full⟩)]
  refine ⟨_,rfl,_,holds.replace [] (Nat.lt_succ_self _) (Nat.le_succ _) rfl (holds.parted.emptied m.msgCount) rfl rfl
    ?_ ?_ ⟨rfl,rfl,rfl,rfl,rfl,Nat.zero_le _,Nat.le_refl 65536⟩ ?_⟩
  · exact update_self ..
  · intro c none
    cases none
  · intro j other
    exact ⟨update_of_ne other ..,fun c member => ⟨rfl,holds.live j c member,rfl⟩⟩

/-! ### `msg_send` -/

variable [DecidableEq Cell]

theorem compose_message (mtype : BitVec 64) (text : Nat → Byte) (size : BitVec 64) :
    (m.compose c mtype text size).message c = ⟨mtype,(List.range size.toNat).map text⟩ := by
  simp only [Memory.message,Memory.compose,update_self]
  refine congrArg (Message.mk mtype) (List.map_congr_left (fun i member => ?_))
  exact if_pos (List.mem_range.mp member)

private theorem compose_other (mtype : BitVec 64) (text : Nat → Byte) (size : BitVec 64) {a : Cell} (other : a ≠ c) :
    (m.compose c mtype text size).message a = m.message a ∧ (m.compose c mtype text size).next a = m.next a := by
  simp [Memory.message,Memory.compose,other]

section
variable (holds : Holds m b lists)
include holds

theorem Holds.compose (fresh : c ∉ m.live) (mtype : BitVec 64) (text : Nat → Byte)
    (size : BitVec 64) : Holds (m.compose c mtype text size) b lists := by
  have others : ∀ j, ∀ a ∈ lists j, (m.compose c mtype text size).message a = m.message a
      ∧ (m.compose c mtype text size).next a = m.next a := by
    intro j a member
    refine compose_other mtype text size ?_
    rintro rfl
    exact fresh (holds.live j a member)
  refine ⟨holds.count,?_,holds.parted,?_,?_,holds.unused⟩
  · exact fun j => Links.chain_congr (holds.chains j) (fun a member => (others j a member).2)
  · exact fun j a member => List.mem_cons_of_mem c (holds.live j a member)
  · exact fun j => (holds.fits j).congr (fun a member => (others j a member).1)

theorem Holds.relink {v : Option Cell}
    (parts : lists id = left ++ right) (new : Chain m.next v cells) (apart : ∀ a ∈ left, a ∉ cells) :
    Chain (m.write id (Place.head.behind left) v).next ((m.write id (Place.head.behind left) v).entries id)
      (left ++ cells) := by
  have chain : Chain m.next (Place.head.read m.next (m.entries id)) (left ++ right) := parts ▸ holds.chains id
  have distinct : (left ++ right).Nodup := parts ▸ holds.parted.distinct id
  rw [show (m.write id (Place.head.behind left) v).entries id = _ from update_self ..]
  exact Links.chain_write chain new distinct.of_append_left apart nofun

theorem Holds.write_others (part : ∀ a ∈ left, a ∈ lists id) (v : Option Cell)
    {j : Nat} (other : j ≠ id) : (m.write id (Place.head.behind left) v).entries j = m.entries j ∧
      ∀ a ∈ lists j, (m.write id (Place.head.behind left) v).next a = m.next a := by
  refine ⟨update_of_ne other ..,fun a member => Links.setNext_behind .head nofun ?_⟩
  exact fun here => other (holds.parted.separate j id a member (part a here))

theorem Holds.append (id : Nat) (c : Cell) (inside : id < m.msgCount) (absent : ∀ j, c ∉ lists j) (live : c ∈ m.live)
    (ends : m.next c = none) (room : (m.queues id).msgCount.toNat + 1 < 2 ^ 32)
    (space : (b.box id).bytes + (m.msize c).toNat ≤ (b.box id).limit) :
    ∃ m', append id c (m.msize c) m = some m' ∧
      ∃ lists, Holds m' (b.set id { b.box id with messages := (b.box id).messages ++ [m.message c] }) lists := by
  have found := holds.seek (fun _ => false) id
  rw [List.takeWhile_eq_self_iff.mpr (by simp)] at found
  have alone : Chain m.next (some c) [c] := ⟨rfl,ends⟩
  have apart : ∀ a ∈ lists id, a ∉ [c] := by
    intro a member here
    rw [List.mem_singleton.mp here] at member
    exact absent id member
  have linked := holds.relink (List.append_nil (lists id)).symm alone apart
  refine ⟨putIn id (Place.head.behind (lists id)) c (m.msize c) m,by rw [MessageQueue.append,found]; rfl,_,
    holds.replace (lists id ++ [c]) inside (Nat.le_refl _) holds.count
      (holds.parted.add absent (List.perm_append_singleton c (lists id))) rfl rfl linked ?_ ?_ ?_⟩
  · exact List.forall_mem_append.mpr ⟨holds.live id,List.forall_mem_singleton.mpr live⟩
  · have fits := holds.fits id
    have size : (m.message c).text.length = (m.msize c).toNat := by simp [Memory.message]
    have total : Box.bytes { b.box id with messages := (b.box id).messages ++ [m.message c] }
        = (b.box id).bytes + (m.msize c).toNat := by simp [Box.bytes,size]
    refine ⟨fits.key,fits.limit,?_,?_,?_,?_,fits.small⟩
    · rw [fits.contents,List.map_append]
      rfl
    · rw [List.length_append,← fits.length]
      exact BitVec.toNat_add_of_lt room
    · rw [total,← fits.bytes]
      refine BitVec.toNat_add_of_lt ?_
      have := fits.small
      have := fits.bytes
      omega
    · rw [total]
      exact space
  · intro j other
    obtain ⟨entries,nexts⟩ := holds.write_others (fun a member => member) (some c) other
    exact ⟨entries,fun a member => ⟨nexts a member,holds.live j a member,rfl⟩⟩

theorem Holds.msgSend (id : Nat) (mtype : BitVec 64) (text : Nat → Byte) (size : BitVec 64)
    (nowait : Bool) (memory : Option Cell) (room : (m.queues id).msgCount.toNat + 1 < 2 ^ 32)
    (apart : ∀ c ∈ memory, c ∉ m.live) :
    Agrees (msgSend id mtype text size nowait memory m)
      (b.send id ⟨mtype,(List.range size.toNat).map text⟩ nowait memory.isSome) := by
  have fits := holds.fits id
  have length : ((List.range size.toNat).map text).length = size.toNat := by simp
  rw [MessageQueue.msgSend.eq_def,Boxes.send,holds.count]
  rw [length]
  split
  case isTrue outside =>
    rw [if_pos (.inl outside)]
    exact ⟨m,rfl,lists,holds⟩
  rename_i outside
  by_cases long : size.toNat > textMax
  · rw [if_pos long,if_pos (.inr long)]
    exact ⟨m,rfl,lists,holds⟩
  have allowed : ¬ (id ≥ m.msgCount ∨ size.toNat > textMax) := not_or.mpr ⟨outside,long⟩
  rw [if_neg long,if_neg allowed]
  have sum : ((m.queues id).currentBytes + size).toNat = (b.box id).bytes + size.toNat := by
    rw [← fits.bytes]
    refine BitVec.toNat_add_of_lt ?_
    have := fits.bytes
    have := fits.within
    have := fits.small
    rw [textMax] at long
    omega
  rw [sum,← fits.limit]
  split
  · exact ⟨m,rfl,lists,holds⟩
  cases memory with
  | none => exact ⟨m,rfl,lists,holds⟩
  | some c =>
    have fresh := apart c rfl
    have appended := (holds.compose fresh mtype text size).append id c (Nat.lt_of_not_ge outside)
      (fun j member => fresh (holds.live j c member)) (List.mem_cons_self ..) (update_self ..) room
      (by rw [show (m.compose c mtype text size).msize c = size from update_self ..]; omega)
    rw [show (m.compose c mtype text size).msize c = size from update_self ..,compose_message] at appended
    obtain ⟨m',done,after⟩ := appended
    exact ⟨m',by dsimp only; rw [done]; rfl,after⟩

end

/-! ### `msg_recv` -/

theorem Holds.takeOut (holds : Holds m b lists) (inside : id < m.msgCount) (parts : lists id = left ++ c :: right) :
    ∃ lists, Holds (takeOut id (Place.head.behind left) c m)
      (b.set id { b.box id with messages := (left ++ right).map m.message }) lists := by
  have distinct : (left ++ c :: right).Nodup := parts ▸ holds.parted.distinct id
  have chain : Chain m.next (Place.head.read m.next (m.entries id)) (left ++ c :: right) := parts ▸ holds.chains id
  have apart : ∀ a ∈ left, a ∉ right := fun a before after =>
    (List.nodup_append.mp distinct).2.2 a before a (List.mem_cons_of_mem c after) rfl
  have linked := holds.relink parts (Links.chain_behind chain).2 apart
  have others := holds.parted.mem_without parts
  refine ⟨_,holds.replace (left ++ right) inside (Nat.le_refl _) holds.count (holds.parted.without parts) rfl rfl linked
    ?_ ?_ ?_⟩
  · intro a member
    obtain ⟨other,old⟩ := (others id a).mp (by rw [update_self]; exact member)
    exact (List.mem_erase_of_ne other).mpr (holds.live id a old)
  · have fits := holds.fits id
    have size : (m.message c).text.length = (m.msize c).toNat := by simp [Memory.message]
    have total : (b.box id).bytes = Box.bytes { b.box id with messages := (left ++ right).map m.message } + (m.msize c).toNat := by
      rw [Box.bytes,Box.bytes,fits.contents,parts]
      simp only [List.map_append,List.map_cons,List.sum_append,List.sum_cons]
      omega
    refine ⟨fits.key,fits.limit,rfl,?_,?_,?_,fits.small⟩
    · have more : (m.queues id).msgCount.toNat = (left ++ right).length + 1 := by
        rw [fits.length,parts]
        simp only [List.length_append,List.length_cons]
        omega
      have one : (1 : BitVec 32) ≤ (m.queues id).msgCount := by
        rw [BitVec.le_def,more]
        exact Nat.succ_le_succ (Nat.zero_le _)
      rw [BitVec.toNat_sub_of_le one,more]
      rfl
    · have enough : m.msize c ≤ (m.queues id).currentBytes := by
        rw [BitVec.le_def,fits.bytes,total]
        exact Nat.le_add_left _ _
      rw [BitVec.toNat_sub_of_le enough,fits.bytes,total,Nat.add_sub_cancel]
    · have within := fits.within
      show Box.bytes _ ≤ (b.box id).limit
      omega
  · intro j other
    obtain ⟨entries,nexts⟩ := holds.write_others (fun a before => by rw [parts]; exact List.mem_append_left _ before)
      (m.next c) other
    refine ⟨entries,fun a member => ⟨nexts a member,?_,rfl⟩⟩
    have old := (others j a).mp (by rw [update_of_ne other]; exact member)
    exact (List.mem_erase_of_ne old.1).mpr (holds.live j a old.2)

theorem Holds.msgRecv (holds : Holds m b lists) (id : Nat) (size mtype : BitVec 64) (nowait : Bool) :
    Agrees (msgRecv id size mtype nowait m) (b.receive id size.toNat mtype nowait) := by
  have contents := (holds.fits id).contents
  have chain := holds.chains id
  rw [MessageQueue.msgRecv,Boxes.receive,holds.count]
  split
  · exact ⟨m,rfl,lists,holds⟩
  rename_i outside
  by_cases empty : m.entries id = none
  · rw [empty] at chain
    rw [Links.chain_none chain,List.map_nil] at contents
    rw [if_pos empty,if_pos contents]
    exact ⟨m,rfl,lists,holds⟩
  have messages : (b.box id).messages ≠ [] := by
    rw [contents,Ne,List.map_eq_nil_iff]
    intro nothing
    rw [nothing] at chain
    exact empty chain
  rw [if_neg empty,if_neg messages,holds.seek,Option.map_some,contents,List.find?_map,List.eraseP_map]
  have same : (fun m : Message => selects mtype m.mtype) ∘ m.message = fun c => selects mtype (m.mtype c) := rfl
  rw [same]
  cases first : (lists id).find? (fun c => selects mtype (m.mtype c)) with
  | none =>
    have whole : (lists id).takeWhile (fun c => !selects mtype (m.mtype c)) = lists id :=
      List.takeWhile_eq_self_iff.mpr (fun c member => by simpa using List.find?_eq_none.mp first c member)
    have all : Chain m.next (Place.head.read m.next (m.entries id)) (lists id ++ []) := by
      rw [List.append_nil]
      exact chain
    have ends : (Place.head.behind (lists id)).read m.next (m.entries id) = none := Links.chain_behind all
    rw [whole,ends]
    exact ⟨m,rfl,lists,holds⟩
  | some c =>
    obtain ⟨found,left,right,parts,before⟩ := List.find?_eq_some_iff_append.mp first
    have all : Chain m.next (Place.head.read m.next (m.entries id)) (left ++ c :: right) := parts ▸ chain
    have skipped : (lists id).takeWhile (fun c => !selects mtype (m.mtype c)) = left := by
      rw [parts,List.takeWhile_append_of_pos before,List.takeWhile_cons_of_neg (by simp [found]),List.append_nil]
    have rest : (lists id).eraseP (fun c => selects mtype (m.mtype c)) = left ++ right := by
      rw [parts,List.eraseP_append_right _ (by simpa using before),List.eraseP_cons,found,cond_true]
    rw [skipped,(Links.chain_behind all).1,rest]
    dsimp only [Option.map_some]
    rw [deliver_eq]
    exact ⟨_,rfl,holds.takeOut (Nat.lt_of_not_ge outside) parts⟩

/-! ### `msg_ctl` -/

theorem freeAll_chain {next : Cell → Option Cell} : ∀ {fuel : Nat} {head : Option Cell} {live : List Cell},
    Chain next head cells → cells.length < fuel →
      ∃ left, freeAll next fuel head live = some left ∧ ∀ a ∈ live, a ∉ cells → a ∈ left := by
  induction cells with
  | nil =>
    rintro fuel head live chain _
    rw [show head = none from chain]
    exact ⟨live,by cases fuel <;> rfl,fun a member _ => member⟩
  | cons c rest ih =>
    rintro fuel head live ⟨rfl,tail⟩ enough
    obtain ⟨fuel,rfl⟩ : ∃ n, fuel = n + 1 := ⟨fuel - 1,by omega⟩
    rw [List.length_cons] at enough
    obtain ⟨left,freed,kept⟩ := @ih fuel (next c) (live.erase c) tail (by omega)
    refine ⟨left,freed,fun a member outside => ?_⟩
    rw [List.mem_cons,not_or] at outside
    exact kept a ((List.mem_erase_of_ne outside.1).mpr member) outside.2

theorem Holds.msgCtl (holds : Holds m b lists) (id : Nat) (cmd : Int) :
    Agrees (msgCtl id cmd m) (b.control id cmd) := by
  have fits := holds.fits id
  rw [MessageQueue.msgCtl,Boxes.control,holds.count]
  split
  · exact ⟨m,rfl,lists,holds⟩
  rename_i outside
  split
  · obtain ⟨left,freed,kept⟩ := freeAll_chain (holds.chains id) (holds.enough id)
    rw [freed]
    refine ⟨_,rfl,_,holds.replace [] (Nat.lt_of_not_ge outside) (Nat.le_refl _) holds.count (holds.parted.emptied id) rfl rfl
      (update_self ..) (fun c none => by cases none) ⟨rfl,rfl,rfl,rfl,rfl,Nat.le_refl 0,Nat.zero_le _⟩ ?_⟩
    intro j other
    refine ⟨update_of_ne other ..,fun a member => ⟨rfl,?_,rfl⟩⟩
    exact kept a (holds.live j a member) (fun here => other (holds.parted.separate j id a member here))
  split
  · refine ⟨m,?_,lists,holds⟩
    dsimp only
    rw [fits.length,fits.bytes,fits.limit,fits.contents,List.length_map]
  · exact ⟨m,rfl,lists,holds⟩

theorem inv_step {s : State Cell} (a : Request Cell) (inv : Inv s) (meets : Meets s a) :
    ∃ t, step s a = some t ∧ Inv t := by
  obtain ⟨lists,holds⟩ := inv.lists
  have agrees : Agrees (call s.mem a) (s.boxes.call (allocates a) a) := by
    cases a with
    | msgGet key create => exact holds.msgGet key create
    | msgSend id mtype text size nowait memory => exact holds.msgSend id mtype text size nowait memory meets.1 meets.2
    | msgRecv id size mtype nowait => exact holds.msgRecv id size mtype nowait
    | msgCtl id cmd => exact holds.msgCtl id cmd
  obtain ⟨m,same,after⟩ := agrees
  refine ⟨_,by rw [step,same]; rfl,after,?_⟩
  exact List.forall_mem_cons.mpr ⟨rfl,inv.results⟩

/-- In every run that meets the condition each call comes to what the abstract call comes to, the lists are those
    of the abstract queues, and a failing call changes nothing. -/
theorem msg_run_refines (requests : List (Request Cell)) (guarded : Guarded step Meets start requests) :
    ∃ s, run step start requests = some s ∧ Sound s := by
  obtain ⟨s,ran,inv⟩ := run_invariant (fun _ a => inv_step a) requests start start_inv guarded
  exact ⟨s,ran,inv.lists,inv.results,fun _ _ => call_failed⟩

end

def someText (i : Nat) : Byte := BitVec.ofNat 8 (i + 65)

def someRun : List (Request Nat) :=
  [.msgGet 7 true,.msgSend 0 1 someText 3 true (some 10),.msgSend 0 2 someText 1 true (some 11),.msgRecv 0 8 2 true,
    .msgRecv 0 8 0 true,.msgCtl 0 0]

theorem msg_run_refines_of_two : ∃ s, run step start someRun = some s ∧ Sound s :=
  msg_run_refines someRun (by decide +kernel)

/-- A message of three bytes is received into room for one: the call succeeds, the message is gone, and its
    last two bytes with it. -/
theorem msg_recv_truncates :
    (run step (start : State Nat) [.msgGet 7 true,.msgSend 0 1 someText 3 true (some 10),.msgRecv 0 1 0 true]).map
      (fun s => (s.results.map Prod.fst,s.mem.entries 0,(s.mem.queues 0).msgCount))
      = some ([.received ⟨1,[65]⟩,.sent,.queue 0],none,0) := by decide +kernel

end Kenux.MessageQueue
