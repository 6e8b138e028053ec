import Kenux.Locks
import Kenux.Runs

/-!
The two locks of the journal (`jbd2.c`), and every public operation followed from lock to
lock. The outcomes of the calls of `kmalloc` and of the device, and the records that a scan
finds, are part of a request; the data in the buffers are left out, but an operation that
leaves one of its buffers has no result (`within`). Two operations take a lock they hold
already and never come back, `jbd2_journal_flush` and `jbd2_journal_destroy`
(`jbd2_flush_and_destroy_wait`). Without them every operation whose buffers are large enough
comes back with both locks free, on every path (`jbd2_run_unlocked`). For a commit with the
usual blocks of 4096 bytes they are not.
-/
namespace Kenux.Jbd2Locks
open Kenux.Locks Kenux.Runs

def jbd2TransMaxBlocks : Nat := 128

/-- `sizeof(jbd2_superblock_t)`. -/
def superblockSize : Nat := 1112

/-- `sizeof(jbd2_block_header_t)`: 20 bytes of fields and 4080 of padding. -/
def headerSize : Nat := 4100

inductive TransState where
  | running
  | locked
  | flushing
  | committing
  | finished
  deriving DecidableEq, Repr

inductive JournalLock where
  | journalLock
  | commitLock
  deriving DecidableEq, Repr

def jbd2BlockDirty : BitVec 32 := 0x01
def jbd2BlockCommitted : BitVec 32 := 0x02
def jbd2BlockRevoked : BitVec 32 := 0x04
def jbd2BlockInLog : BitVec 32 := 0x08
def jbd2BlockWritten : BitVec 32 := 0x10

structure Block where
  flags : BitVec 32
  dataSize : Nat

def Block.inLog (b : Block) : Bool := b.flags &&& jbd2BlockInLog ≠ 0

structure Transaction where
  tid : Nat
  state : TransState
  blocks : List Block

/-- The journal in memory. Pointers to transactions are numbers, `transList` is the list from
    `trans_list_head` on, and `fresh` is the next address that `kzalloc` returns. -/
structure Journal where
  initialized : Bool
  devBlockSize : Nat
  journalBlocks : Nat
  usedBlocks : Nat
  nextTid : Nat
  lastCheckpointTid : Nat
  currentTrans : Option Nat
  transList : List Nat
  trans : Nat → Transaction
  fresh : Nat
  outcomes : List Bool

abbrev Operation := Command JournalLock Journal

/-! ### Memory, the device and the blocks of the journal -/

variable (j : Journal)

def outcome : Bool × Journal :=
  match j.outcomes with
  | [] => (true,j)
  | succeeds :: rest => (succeeds,{ j with outcomes := rest })

def kmalloc : Journal → Bool × Journal := outcome
def kzalloc : Journal → Bool × Journal := outcome
def jbd2WriteBlockToDevice : Journal → Bool × Journal := outcome
def jbd2WriteBlockToJournal : Journal → Bool × Journal := jbd2WriteBlockToDevice
def jbd2WriteSuperblock : Journal → Bool × Journal := jbd2WriteBlockToJournal

/-- The bytes of a block of `kmalloc`, which gives at most 8 MiB. -/
def granted (size : Nat) : Nat := min size (2^23)

/-- The bytes before `stop` of a buffer are used; there is no result when it has fewer. -/
def within (stop size : Nat) : Operation Unit := if stop ≤ size then pure () else failure

def jbd2AllocJournalBlock : Option Nat × Journal :=
  if j.usedBlocks ≥ j.journalBlocks then (none,j)
  else (some (j.usedBlocks % (j.journalBlocks - 1) + 1),{ j with usedBlocks := j.usedBlocks + 1 })

def jbd2FreeJournalBlock : Journal :=
  if j.usedBlocks > 0 then { j with usedBlocks := j.usedBlocks - 1 } else j

variable (p : Nat) {size : Nat} {rest : Operation Int} {records : List Record}

def setTrans (t : Transaction) (j : Journal) : Journal := { j with trans := Function.update j.trans p t }

def setState (state : TransState) (j : Journal) : Journal := setTrans p { j.trans p with state } j

def setBlocks (blocks : List Block) (j : Journal) : Journal := setTrans p { j.trans p with blocks } j

def dropCurrent (j : Journal) : Journal :=
  if j.currentTrans = some p then { j with currentTrans := none } else j

def jbd2TransAddToList (j : Journal) : Journal := { j with transList := j.transList ++ [p] }

def jbd2TransRemoveFromList (j : Journal) : Journal := { j with transList := j.transList.erase p }

/-- Every block that is in the log gives its place in the journal back. -/
def freeLogged (blocks : List Block) (j : Journal) : Journal :=
  blocks.foldl (fun j b => if b.inLog then jbd2FreeJournalBlock j else j) j

def jbd2FreeTransactionBlocks (j : Journal) : Journal :=
  setBlocks p [] (freeLogged (j.trans p).blocks j)

def jbd2FreeTransaction (j : Journal) : Journal := jbd2FreeTransactionBlocks p j

/-- What `jbd2_journal_init` reads of a superblock with the right magic number. -/
structure Superblock where
  nextTid : Nat
  lastCommitId : Nat
  freeBlocks : Nat

/-- What the device returns for the superblock: an error, other data, or a superblock. -/
inductive FirstBlock where
  | unreadable
  | other
  | superblock (sb : Superblock)

/-- What `jbd2_journal_init` takes over from the superblock it read; without one it writes one. -/
def takeSuperblock (journalBlocks : Nat) : FirstBlock → Journal → Journal
  | .superblock sb, j => { j with
      nextTid := if sb.nextTid > 0 then sb.nextTid else 1
      lastCheckpointTid := sb.lastCommitId
      usedBlocks := if sb.freeBlocks < journalBlocks then journalBlocks - sb.freeBlocks else j.usedBlocks }
  | .unreadable, j | .other, j => (jbd2WriteSuperblock { j with usedBlocks := 0 }).2

/-- Three sectors are read to the structure on the stack, behind which `spare` bytes are not used. -/
def jbd2ReadSuperblock (spare : Nat) : FirstBlock → Operation Unit
  | .unreadable => pure ()
  | .other | .superblock _ => within (3 * 512) (superblockSize + spare)

def jbd2JournalInit (devBlockSize journalBlocks : Nat) (read : FirstBlock) (spare : Nat) : Operation Int := do
  if devBlockSize = 0 ∨ journalBlocks < 16 then return -1
  spinUnlock .journalLock
  spinUnlock .commitLock
  change (fun j => { j with
    devBlockSize, journalBlocks, nextTid := 1, currentTrans := none, transList := [], usedBlocks := 0,
    lastCheckpointTid := 0, initialized := false })
  jbd2ReadSuperblock spare read
  change (takeSuperblock journalBlocks read)
  change (fun j => { j with initialized := true })
  return 0

inductive RecordType where
  | descriptor
  | commitBlock
  | revoked
  deriving DecidableEq, Repr

/-- A record that the scan of `jbd2_journal_load` finds in the journal, and where. -/
structure Record where
  blk : Nat
  tid : BitVec 64
  type : RecordType
  blockCount : Nat
  deriving DecidableEq, Repr

def committed (records : List Record) (tid : Nat) : Bool :=
  records.any (fun r => r.tid.toNat = tid ∧ r.type = .commitBlock)

/-- The end of the numbers that the replay reads behind the header of a record: those of a descriptor of a
    committed transaction, until one is of a block behind the journal. -/
def Record.reads (journalBlocks : Nat) (records : List Record) (r : Record) : Nat :=
  let count := min r.blockCount (journalBlocks - r.blk)
  if r.type = .descriptor ∧ r.tid ≠ 0 ∧ committed records r.tid.toNat ∧ count ≠ 0 then headerSize + 8 * count else 0

def maxReads (journalBlocks : Nat) (records : List Record) : Nat :=
  records.foldl (fun stop r => max stop (r.reads journalBlocks records)) 0

def maxTid (records : List Record) : Nat := records.foldl (fun tid r => max tid r.tid.toNat) 0

/-- One turn of the loop over the transactions to replay, without the blocks it copies. -/
def replayTid (records : List Record) (replayed : Nat) (j : Journal) (tid : Nat) : Nat × Journal :=
  if committed records tid then
    (replayed + 1,if tid > j.lastCheckpointTid then { j with lastCheckpointTid := tid } else j)
  else (replayed,j)

def replayTids (records : List Record) : List Nat → Nat → Journal → Nat × Journal
  | [], replayed, j => (replayed,j)
  | tid :: rest, replayed, j =>
    let (replayed,j) := replayTid records replayed j tid
    replayTids records rest replayed j

/-- The loop over `tid` counts to the largest one that was found, and does not end if that is
    the largest number there is. -/
def replay (records : List Record) : Operation Nat :=
  if maxTid records = 2^64 - 1 then failure
  else act (replayTids records (List.range' 1 (maxTid records)) 0)

def jbd2JournalLoad (records : List Record) : Operation Int := do
  if !(← look (·.initialized)) then return -1
  if !(← act kmalloc) then return -1
  let blkNos ← act kmalloc
  let tids ← act kmalloc
  let types ← act kmalloc
  if !blkNos || !tids || !types then return -1
  -- the blocks of the journal are read to the first buffer, in whole sectors
  let size ← look (·.devBlockSize)
  within ((size + 511) / 512 * 512) (granted size)
  if records = [] then return 0
  if maxTid records = 0 then return 0
  let journalBlocks ← look (·.journalBlocks)
  within (maxReads journalBlocks records) (granted size)
  let replayed ← replay records
  change (fun j => { j with usedBlocks := 0 })
  let _ ← act jbd2WriteSuperblock
  return replayed

def revoke (b : Block) : Block := { b with flags := (b.flags ||| jbd2BlockRevoked) &&& ~~~jbd2BlockDirty }

/-- The loop of `jbd2_trans_abort` over the blocks. -/
def revokeBlocks (j : Journal) : Journal :=
  let blocks := (j.trans p).blocks.map revoke
  freeLogged blocks (setBlocks p blocks j)

def jbd2TransAbort : Option Nat → Operation Unit
  | none => return ()
  | some p => do
    spinLock .journalLock
    change (revokeBlocks p)
    change (dropCurrent p)
    change (jbd2TransRemoveFromList p)
    let _ ← act jbd2WriteSuperblock
    spinUnlock .journalLock
    change (jbd2FreeTransaction p)
    return ()

/-- The transaction that is running is aborted by `jbd2_journal_destroy`. -/
def abortCurrent : Option Nat → Operation Unit
  | none => return ()
  | some p => do
    jbd2TransAbort (some p)
    change (fun j => { j with currentTrans := none })
    return ()

def jbd2JournalDestroy : Operation Unit := do
  if !(← look (·.initialized)) then return ()
  spinLock .journalLock
  let current ← look (·.currentTrans)
  abortCurrent current
  change (fun j => j.transList.foldl (fun j p => jbd2FreeTransaction p j) j)
  change (fun j => { j with transList := [] })
  change (fun j => { j with usedBlocks := 0 })
  let _ ← act jbd2WriteSuperblock
  change (fun j => { j with initialized := false })
  spinUnlock .journalLock
  return ()

/-- The transaction is filled in and becomes the running one. -/
def openTrans : Nat × Journal :=
  let p := j.fresh
  let j := { j with
    fresh := p + 1
    trans := Function.update j.trans p { tid := j.nextTid, state := .running, blocks := [] }
    nextTid := (j.nextTid + 1) % 2^64 }
  (p,{ jbd2TransAddToList p j with currentTrans := some p })

def jbd2TransStart : Operation (Option Nat) := do
  if !(← look (·.initialized)) then return none
  if !(← act kzalloc) then return none
  spinLock .journalLock
  let trans ← act openTrans
  spinUnlock .journalLock
  return some trans

def appendBlock (p size : Nat) (j : Journal) : Journal :=
  setBlocks p ((j.trans p).blocks ++ [{ flags := jbd2BlockDirty, dataSize := size }]) j

/-- `data` says whether the pointer to the data is there. -/
def jbd2TransLogBlock (trans : Option Nat) (data : Bool) (size : Nat) : Operation Int :=
  match trans with
  | none => return -1
  | some p => do
    if !data || size = 0 then return -1
    if !(← look (·.initialized)) then return -1
    if (← look (fun j => (j.trans p).state)) ≠ .running then return -2
    if (← look (fun j => (j.trans p).blocks.length)) ≥ jbd2TransMaxBlocks then return -3
    spinLock .journalLock
    if ← look (fun j => decide (j.usedBlocks ≥ j.journalBlocks - 2)) then
      spinUnlock .journalLock
      return -4
    if !(← act kzalloc) then
      spinUnlock .journalLock
      return -5
    if !(← act kmalloc) then
      spinUnlock .journalLock
      return -6
    within size (granted size)
    if (← act jbd2AllocJournalBlock) = none then
      spinUnlock .journalLock
      return -7
    change (appendBlock p size)
    spinUnlock .journalLock
    return 0

/-- An error of `jbd2_trans_commit` with the commit lock taken. -/
def commitFails (code : Int) : Operation Int := do
  change (setState p .locked)
  spinUnlock .commitLock
  return code

/-- The descriptor of the transaction is written, and then the rest of the commit goes on. -/
def commitDescriptor (size count : Nat) (rest : Operation Int) : Operation Int := do
  if !(← act kmalloc) then return ← commitFails p (-2)
  within (max size (headerSize + 8 * count)) (granted size)
  if (← act jbd2AllocJournalBlock) = none then return ← commitFails p (-3)
  if !(← act jbd2WriteBlockToJournal) then
    change jbd2FreeJournalBlock
    return ← commitFails p (-4)
  rest

def markCommitted (p k : Nat) (j : Journal) : Journal :=
  setBlocks p ((j.trans p).blocks.modify k (fun b => { b with
    flags := b.flags ||| (jbd2BlockCommitted ||| jbd2BlockInLog) })) j

/-- How much of the data of a block is copied behind a header, in 32 bits. -/
def copySize (size dataSize : Nat) : Nat :=
  if (headerSize + dataSize) % 2^32 > size then (size + 2^32 - headerSize) % 2^32 else dataSize

/-- The loop over the blocks of the transaction, and the rest of the commit after it. -/
def commitBlocks (p size : Nat) (rest : Operation Int) : Nat → List Block → Operation Int
  | _, [] => rest
  | k, b :: others => do
    if !(← act kmalloc) then return ← commitFails p (-5)
    within (max size (headerSize + copySize size b.dataSize)) (granted size)
    within (copySize size b.dataSize) (granted b.dataSize)
    if !(← act jbd2WriteBlockToJournal) then return ← commitFails p (-6)
    change (markCommitted p k)
    commitBlocks p size rest (k+1) others

def commitRecord (size : Nat) : Operation Int := do
  change (setState p .committing)
  if !(← act kmalloc) then return ← commitFails p (-7)
  within (max size 20) (granted size)
  if (← act jbd2AllocJournalBlock) = none then return ← commitFails p (-8)
  if !(← act jbd2WriteBlockToJournal) then
    change jbd2FreeJournalBlock
    return ← commitFails p (-9)
  change (setState p .finished)
  let _ ← act jbd2WriteSuperblock
  spinUnlock .commitLock
  return 0

def jbd2TransCommit : Option Nat → Operation Int
  | none => return -1
  | some p => do
    if !(← look (·.initialized)) then return -1
    if (← look (fun j => (j.trans p).state)) ∈ [TransState.finished,.committing] then return 0
    spinLock .commitLock
    change (setState p .locked)
    change (dropCurrent p)
    change (setState p .flushing)
    let size ← look (·.devBlockSize)
    let blocks ← look (fun j => (j.trans p).blocks)
    if blocks.length > 0 then
      commitDescriptor p size blocks.length (commitBlocks p size (commitRecord p size) 0 blocks)
    else
      commitRecord p size

/-- One turn of the loop of `jbd2_journal_checkpoint` over the blocks of a transaction. -/
def checkpointBlock (b : Block) (freed : Nat) (j : Journal) : Block × Nat × Journal :=
  let (written,j) := if b.dataSize > 0 then jbd2WriteBlockToDevice j else (false,j)
  let b := if written then { b with flags := (b.flags ||| jbd2BlockWritten) &&& ~~~jbd2BlockDirty } else b
  let (freed,j) := if b.inLog then (freed + 1,jbd2FreeJournalBlock j) else (freed,j)
  ({ b with flags := b.flags &&& ~~~jbd2BlockInLog },freed,j)

def checkpointBlocks : List Block → Nat → Journal → List Block × Nat × Journal
  | [], freed, j => ([],freed,j)
  | b :: rest, freed, j =>
    let (b,freed,j) := checkpointBlock b freed j
    let (blocks,freed,j) := checkpointBlocks rest freed j
    (b :: blocks,freed,j)

/-- One turn of the loop of `jbd2_journal_checkpoint` over the transactions. -/
def checkpointTrans (p freed : Nat) (j : Journal) : Nat × Journal :=
  if (j.trans p).state ≠ .finished then (freed,j)
  else
    let (blocks,freed,j) := checkpointBlocks (j.trans p).blocks freed j
    let j := setBlocks p blocks j
    let j := if (j.trans p).tid > j.lastCheckpointTid then { j with lastCheckpointTid := (j.trans p).tid } else j
    (freed,jbd2FreeTransaction p (jbd2TransRemoveFromList p j))

def checkpointList : List Nat → Nat → Journal → Nat × Journal
  | [], freed, j => (freed,j)
  | p :: rest, freed, j =>
    let (freed,j) := checkpointTrans p freed j
    checkpointList rest freed j

def jbd2JournalCheckpoint : Operation Int := do
  if !(← look (·.initialized)) then return -1
  spinLock .commitLock
  let freedBlocks ← act (fun j => checkpointList j.transList 0 j)
  let _ ← act jbd2WriteSuperblock
  spinUnlock .commitLock
  return freedBlocks

/-- The blocks of a finished transaction that are not written yet are written. -/
def flushBlocks : List Block → Journal → List Block × Journal
  | [], j => ([],j)
  | b :: rest, j =>
    if b.flags &&& jbd2BlockWritten = 0 then
      let j := if b.dataSize > 0 then (jbd2WriteBlockToDevice j).2 else j
      let (blocks,j) := flushBlocks rest j
      ({ b with flags := b.flags ||| jbd2BlockWritten } :: blocks,j)
    else
      let (blocks,j) := flushBlocks rest j
      (b :: blocks,j)

/-- One turn of the loop of `jbd2_journal_flush` over the transactions. -/
def flushTrans (j : Journal) : Journal :=
  if (j.trans p).state ≠ .finished then j
  else
    let before := (j.trans p).blocks
    let (blocks,j) := flushBlocks before j
    let j := setBlocks p blocks j
    if before.all (fun b => b.flags &&& jbd2BlockWritten ≠ 0) then
      jbd2FreeTransaction p (jbd2TransRemoveFromList p j)
    else j

def flushList : Journal :=
  let j := j.transList.foldl (fun j p => flushTrans p j) j
  (jbd2WriteSuperblock { j with usedBlocks := 0 }).2

def jbd2JournalFlush : Operation Int := do
  if !(← look (·.initialized)) then return -1
  spinLock .commitLock
  let ret ← jbd2JournalCheckpoint
  change (if ret ≥ 0 then flushList else id)
  spinUnlock .commitLock
  return ret

inductive Call where
  | init (devBlockSize journalBlocks : Nat) (read : FirstBlock) (spare : Nat)
  | load (records : List Record)
  | destroy
  | start
  | logBlock (trans : Option Nat) (data : Bool) (size : Nat)
  | commit (trans : Option Nat)
  | abort (trans : Option Nat)
  | flush
  | checkpoint

/-- A call, and the outcomes of the calls of the allocator and of the device during it; `apart` says that what the
    allocator gives is not memory in use. -/
structure Request where
  call : Call
  outcomes : List Bool
  apart : Bool

abbrev State := Machine JournalLock Journal

/-- The static journal of the kernel, before `jbd2_journal_init`. -/
def boot : State where
  held := fun _ => false
  data := { initialized := false, devBlockSize := 0, journalBlocks := 0, usedBlocks := 0, nextTid := 0, lastCheckpointTid := 0,
            currentTrans := none, transList := [], trans := fun _ => { tid := 0, state := .running, blocks := [] },
            fresh := 0, outcomes := [] }

/-- A pointer that a caller can pass: `NULL`, or a transaction that is not freed yet. -/
def Passed : Option Nat → Prop
  | none => True
  | some p => p ∈ j.transList

instance (j : Journal) : ∀ trans, Decidable (Passed j trans)
  | none => .isTrue trivial
  | some p => inferInstanceAs (Decidable (p ∈ j.transList))

/-- Calls are made with transactions that exist, and a journal is set up when it has none. -/
def Made : Call → Prop
  | .init _ _ _ _ => j.transList = []
  | .logBlock given _ _ | .commit given | .abort given => Passed j given
  | _ => True

instance (j : Journal) : ∀ call, Decidable (Made j call)
  | .init _ _ _ _ => inferInstanceAs (Decidable (j.transList = []))
  | .logBlock given _ _ | .commit given | .abort given => inferInstanceAs (Decidable (Passed j given))
  | .load _ | .destroy | .start | .flush | .checkpoint => .isTrue trivial

/-- What a call runs, without the value it returns. -/
def perform : Call → Operation Unit
  | .init devBlockSize journalBlocks read spare => do let _ ← jbd2JournalInit devBlockSize journalBlocks read spare
  | .load records => do let _ ← jbd2JournalLoad records
  | .destroy => jbd2JournalDestroy
  | .start => do let _ ← jbd2TransStart
  | .logBlock given data size => do let _ ← jbd2TransLogBlock given data size
  | .commit given => do let _ ← jbd2TransCommit given
  | .abort given => jbd2TransAbort given
  | .flush => do let _ ← jbd2JournalFlush
  | .checkpoint => do let _ ← jbd2JournalCheckpoint

def facing (outcomes : List Bool) : Journal := { j with outcomes }

/-- A call that is not made changes nothing, and one that gets memory in use has no result. -/
def step (s : State) (r : Request) : Option State :=
  if Made s.data r.call then
    if !r.apart then none
    else (perform r.call ⟨s.held,facing s.data r.outcomes⟩).map Prod.snd
  else some s

/-- The buffers of a commit hold what is written to them. -/
def Holds (size : Nat) (blocks : List Block) : Prop :=
  20 ≤ size ∧ size ≤ 2^23 ∧ (blocks ≠ [] → headerSize + 8 * blocks.length ≤ size) ∧ ∀ b ∈ blocks, b.dataSize ≤ 2^23

instance (size : Nat) (blocks : List Block) : Decidable (Holds size blocks) := inferInstanceAs (Decidable (_ ∧ _ ∧ _ ∧ _))

/-- The journal is flushed, or destroyed with a transaction running, only when it is not set up,
    no record of the journal has the largest number there is, and the buffers are large enough. -/
def Meets : Call → Prop
  | .init _ _ .unreadable _ => True
  | .init _ _ _ spare => 424 ≤ spare
  | .load records => maxTid records ≠ 2^64 - 1 ∧ j.devBlockSize % 512 = 0 ∧ j.devBlockSize ≤ 2^23 ∧
      maxReads j.journalBlocks records ≤ j.devBlockSize
  | .destroy => j.initialized = true → j.currentTrans = none
  | .flush => j.initialized = false
  | .logBlock _ _ size => size ≤ 2^23
  | .commit (some p) => Holds j.devBlockSize (j.trans p).blocks
  | _ => True

instance (j : Journal) : ∀ call, Decidable (Meets j call)
  | .init _ _ .unreadable _ | .commit none | .start | .abort _ | .checkpoint => .isTrue trivial
  | .init _ _ .other spare | .init _ _ (.superblock _) spare => inferInstanceAs (Decidable (424 ≤ spare))
  | .load _ => inferInstanceAs (Decidable (_ ∧ _ ∧ _ ∧ _))
  | .destroy => inferInstanceAs (Decidable (_ → _))
  | .flush => inferInstanceAs (Decidable (j.initialized = false))
  | .logBlock _ _ size => inferInstanceAs (Decidable (size ≤ 2^23))
  | .commit (some _) => inferInstanceAs (Decidable (Holds _ _))

def Unlocked (s : State) : Prop := ∀ l, s.held l = false

/-! ### Every operation from lock to lock -/

/-- The program comes back with both locks free. -/
abbrev Releases (locks : List JournalLock) {α : Type} (c : Operation α) : Prop :=
  Triple (Holding locks) c (fun _ => Holding [])

private theorem unlock_releases {α : Type} (l : JournalLock) (a : α) : Releases [l] (spinUnlock l >>= fun _ => pure a) :=
  unlock_bind [] (by simp) Triple.returns

private theorem within_holding {stop bytes : Nat} {locks : List JournalLock} {k : Unit → Operation Int} (fits : stop ≤ bytes)
    (rest : Releases locks (k ())) : Releases locks (within stop bytes >>= k) := by
  rw [within,if_pos fits]
  exact Triple.bind Triple.returns (fun _ => rest)

private theorem jbd2TransStart_releases : Releases [] jbd2TransStart := by
  refine look_holding (fun ready => Triple.branch Triple.returns ?_)
  refine act_holding (fun granted => Triple.branch Triple.returns ?_)
  refine lock_bind (List.not_mem_nil) (act_holding (fun trans => ?_))
  exact unlock_releases _ _

theorem jbd2TransLogBlock_releases (trans : Option Nat) (data : Bool) (small : size ≤ 2^23) :
    Releases [] (jbd2TransLogBlock trans data size) := by
  cases trans with
  | none => exact Triple.returns
  | some p =>
    -- the checks before the lock
    refine Triple.branch Triple.returns ?_
    refine look_holding (fun ready => Triple.branch Triple.returns ?_)
    refine look_holding (fun state => Triple.branch Triple.returns ?_)
    refine look_holding (fun count => Triple.branch Triple.returns ?_)
    -- and those under it
    refine lock_bind (List.not_mem_nil) ?_
    refine look_holding (fun full => Triple.branch (unlock_releases _ _) ?_)
    refine act_holding (fun block => Triple.branch (unlock_releases _ _) ?_)
    refine act_holding (fun data => Triple.branch (unlock_releases _ _) ?_)
    refine within_holding (Nat.le_min.mpr ⟨Nat.le_refl size,small⟩) ?_
    refine act_holding (fun place => Triple.branch (unlock_releases _ _) ?_)
    exact change_holding (unlock_releases _ _)

private theorem commitFails_releases (code : Int) : Releases [.commitLock] (commitFails p code) :=
  change_holding (unlock_releases _ _)

section
variable {blocks : List Block} (holds : Holds size blocks)
include holds

theorem Holds.granted : granted size = size := Nat.min_eq_left holds.2.1

theorem Holds.copySize {b : Block} (member : b ∈ blocks) :
    headerSize + copySize size b.dataSize ≤ size ∧ copySize size b.dataSize ≤ b.dataSize ∧ b.dataSize ≤ 2^23 := by
  obtain ⟨-,large,room,small⟩ := holds
  have data := small b member
  have room := room (List.ne_nil_of_mem member)
  unfold Jbd2Locks.copySize headerSize at *
  split <;> omega

theorem commitRecord_releases : Releases [.commitLock] (commitRecord p size) := by
  refine change_holding ?_
  refine act_holding (fun buffer => Triple.branch (commitFails_releases _ _) ?_)
  refine within_holding (by rw [holds.granted]; exact Nat.max_le.mpr ⟨Nat.le_refl size,holds.1⟩) ?_
  refine act_holding (fun place => Triple.branch (commitFails_releases _ _) ?_)
  refine act_holding (fun written => Triple.branch (change_holding (commitFails_releases _ _)) ?_)
  exact change_holding (act_holding (fun _ => unlock_releases _ _))

theorem commitBlocks_releases (after : Releases [.commitLock] rest) (others : List Block) (k : Nat)
    (part : ∀ b ∈ others, b ∈ blocks) : Releases [.commitLock] (commitBlocks p size rest k others) := by
  induction others generalizing k with
  | nil => exact after
  | cons b others ih =>
    obtain ⟨header,copied,data⟩ := holds.copySize (part b List.mem_cons_self)
    refine act_holding (fun buffer => Triple.branch (commitFails_releases _ _) ?_)
    refine within_holding (by rw [holds.granted]; exact Nat.max_le.mpr ⟨Nat.le_refl size,header⟩) ?_
    refine within_holding (Nat.le_min.mpr ⟨copied,Nat.le_trans copied data⟩) ?_
    refine act_holding (fun written => Triple.branch (commitFails_releases _ _) ?_)
    exact change_holding (ih (k+1) (fun c member => part c (List.mem_cons_of_mem b member)))

theorem commitDescriptor_releases (logged : blocks ≠ []) (after : Releases [.commitLock] rest) :
    Releases [.commitLock] (commitDescriptor p size blocks.length rest) := by
  refine act_holding (fun buffer => Triple.branch (commitFails_releases _ _) ?_)
  refine within_holding (by rw [holds.granted]; exact Nat.max_le.mpr ⟨Nat.le_refl size,holds.2.2.1 logged⟩) ?_
  refine act_holding (fun place => Triple.branch (commitFails_releases _ _) ?_)
  exact act_holding (fun written =>
    Triple.branch (change_holding (commitFails_releases _ _)) after)

end

theorem jbd2TransCommit_releases (p : Nat) :
    Triple (At [] (fun j => Holds j.devBlockSize (j.trans p).blocks)) (jbd2TransCommit (some p)) (fun _ => Holding []) := by
  have kept : ∀ {f : Journal → Journal} {k : Unit → Operation Int}, (∀ j, (f j).devBlockSize = j.devBlockSize ∧
      ((f j).trans p).blocks = (j.trans p).blocks) →
      Triple (At [.commitLock] (fun j => Holds j.devBlockSize (j.trans p).blocks)) (k ()) (fun _ => Holding []) →
      Triple (At [.commitLock] (fun j => Holds j.devBlockSize (j.trans p).blocks)) (change f >>= k) (fun _ => Holding []) := by
    intro f k same rest
    refine act_bind (fun _ j => Holds j.devBlockSize (j.trans p).blocks) (fun j holds => ?_) (fun _ => rest)
    rw [(same j).1,(same j).2]
    exact holds
  have state : ∀ s j, (setState p s j).devBlockSize = j.devBlockSize ∧ ((setState p s j).trans p).blocks = (j.trans p).blocks :=
    fun s j => ⟨rfl,by simp [setState,setTrans]⟩
  have current : ∀ j, (dropCurrent p j).devBlockSize = j.devBlockSize ∧ ((dropCurrent p j).trans p).blocks = (j.trans p).blocks := by
    intro j
    unfold dropCurrent
    split <;> exact ⟨rfl,rfl⟩
  refine look_bind (fun ready => Triple.branch (Triple.pure fun _ => At.holding) ?_)
  refine look_bind (fun reached => Triple.branch (Triple.pure fun _ => At.holding) ?_)
  refine lock_bind (List.not_mem_nil) (Triple.imp ?_ (fun _ at_ => at_.1.1))
  refine kept (state _) (kept current (kept (state _) ?_))
  refine look_bind (fun size => look_bind (fun blocks => Triple.each fun j ⟨⟨holds,sized⟩,listed⟩ => ?_))
  rw [sized,listed] at holds
  refine Triple.weaken (Triple.ite (fun logged => ?_) (fun _ => commitRecord_releases p holds)) (fun _ => At.holding)
  refine commitDescriptor_releases p holds (List.ne_nil_of_length_pos logged) ?_
  exact commitBlocks_releases p holds (commitRecord_releases p holds) blocks 0 (fun _ => id)

theorem jbd2TransAbort_releases (trans : Option Nat) : Releases [] (jbd2TransAbort trans) := by
  cases trans with
  | none => exact Triple.returns
  | some p =>
    refine lock_bind (List.not_mem_nil) (change_holding (change_holding (change_holding ?_)))
    exact act_holding (fun _ => unlock_bind [] (by simp) (change_holding Triple.returns))

private theorem jbd2JournalCheckpoint_releases : Releases [] jbd2JournalCheckpoint := by
  refine look_holding (fun ready => Triple.branch Triple.returns ?_)
  refine lock_bind (List.not_mem_nil) ?_
  exact act_holding (fun freed => act_holding (fun _ => unlock_releases _ _))

theorem jbd2JournalInit_releases {devBlockSize journalBlocks spare : Nat} {read : FirstBlock} {j : Journal}
    (meets : Meets j (.init devBlockSize journalBlocks read spare)) :
    Releases [] (jbd2JournalInit devBlockSize journalBlocks read spare) := by
  have reads : Releases [] (jbd2ReadSuperblock spare read) := by
    cases read with
    | unreadable => exact Triple.returns
    | other | superblock sb =>
      have spare : 424 ≤ spare := meets
      rw [jbd2ReadSuperblock,within,if_pos (by unfold superblockSize; omega)]
      exact Triple.returns
  refine Triple.branch Triple.returns ?_
  refine unlock_bind [] (by simp) (unlock_bind [] (by simp) ?_)
  exact change_holding (Triple.bind reads (fun _ => change_holding (change_holding Triple.returns)))

private theorem replay_holding (ends : maxTid records ≠ 2^64 - 1) {k : Nat → Operation Int}
    (rest : ∀ replayed, Releases [] (k replayed)) : Releases [] (replay records >>= k) := by
  rw [replay,if_neg ends]
  exact act_holding rest

theorem jbd2JournalLoad_releases :
    Triple (At [] (fun j => Meets j (.load records))) (jbd2JournalLoad records) (fun _ => Holding []) := by
  have kept : ∀ {k : Bool → Operation Int},
      (∀ a, Triple (At [] (fun j => Meets j (.load records))) (k a) (fun _ => Holding [])) →
      Triple (At [] (fun j => Meets j (.load records))) (act kmalloc >>= k) (fun _ => Holding []) := by
    refine fun rest => act_bind (fun _ j => Meets j (.load records)) (fun j meets => ?_) rest
    unfold kmalloc outcome
    split <;> exact meets
  refine look_bind (fun ready => Triple.branch (Triple.pure fun _ => At.holding) (Triple.imp ?_ (fun _ => And.left)))
  refine kept (fun buffer => Triple.branch (Triple.pure fun _ => At.holding) ?_)
  refine kept (fun blkNos => kept (fun tids => kept (fun types => ?_)))
  refine Triple.branch (Triple.pure fun _ => At.holding) ?_
  refine look_bind (fun size => Triple.each fun j ⟨meets,sized⟩ => ?_)
  obtain ⟨ends,whole,large,reads⟩ := meets
  rw [sized] at whole large reads
  have all : granted size = size := Nat.min_eq_left large
  rw [all,within,if_pos (by omega)]
  refine Triple.bind (Triple.returns) (fun _ => ?_)
  refine Triple.branch (Triple.pure fun _ => At.holding) ?_
  refine Triple.branch (Triple.pure fun _ => At.holding) ?_
  refine look_bind (fun journalBlocks => Triple.each fun i ⟨same,blocks⟩ => ?_)
  subst same
  rw [blocks] at reads
  refine Triple.weaken (within_holding reads ?_) (fun _ => At.holding)
  exact replay_holding ends (fun replayed => change_holding (act_holding (fun _ => Triple.returns)))

theorem jbd2JournalDestroy_releases :
    Triple (At [] (fun j => j.initialized = true → j.currentTrans = none)) jbd2JournalDestroy
      (fun _ => Holding []) := by
  refine look_bind (fun ready => Triple.ite (fun _ => Triple.pure (fun _ => At.holding)) (fun set_ => ?_))
  refine lock_bind (List.not_mem_nil) (look_bind (fun current => ?_))
  cases current with
  | none =>
    refine Triple.weaken (Triple.bind Triple.returns (fun _ => ?_)) (fun _ => At.holding)
    refine change_holding (change_holding (change_holding (act_holding (fun _ => ?_))))
    exact change_holding (unlock_releases _ _)
  | some p =>
    rintro m ⟨_,⟨⟨idle,initialized⟩,running⟩⟩
    rw [idle (by simpa [initialized] using set_)] at running
    cases running

theorem jbd2JournalFlush_releases :
    Triple (At [] (fun j => j.initialized = false)) jbd2JournalFlush (fun _ => Holding []) := by
  refine look_bind (fun ready => Triple.ite (fun _ => Triple.pure (fun _ => At.holding)) (fun set_ => ?_))
  rintro m ⟨_,unset,initialized⟩
  rw [unset] at initialized
  exact absurd rfl (initialized ▸ set_)

private theorem unlocked_iff {s : State} : Unlocked s ↔ Holding [] s := by
  simp [Unlocked,Holding,At]

theorem perform_releases (call : Call) :
    Triple (At [] (fun j => Meets j call)) (perform call) (fun _ => Holding []) := by
  cases call with
  | init devBlockSize journalBlocks read spare =>
    rintro m ⟨free,meets⟩
    exact Triple.dropped (jbd2JournalInit_releases meets) m ⟨free,trivial⟩
  | load records => exact Triple.dropped jbd2JournalLoad_releases
  | destroy => exact jbd2JournalDestroy_releases
  | start => exact (Triple.dropped jbd2TransStart_releases).weaken (fun _ => At.holding)
  | logBlock given data size =>
    rintro m ⟨free,small⟩
    exact Triple.dropped (jbd2TransLogBlock_releases _ _ small) m ⟨free,trivial⟩
  | commit given =>
    cases given with
    | none => exact (Triple.dropped Triple.returns).weaken (fun _ => At.holding)
    | some p => exact Triple.dropped (jbd2TransCommit_releases p)
  | abort given => exact (jbd2TransAbort_releases given).weaken (fun _ => At.holding)
  | flush => exact Triple.dropped jbd2JournalFlush_releases
  | checkpoint => exact (Triple.dropped jbd2JournalCheckpoint_releases).weaken (fun _ => At.holding)

theorem unlocked_step (s : State) (r : Request) (free : Unlocked s) (meets : r.apart ∧ Meets s.data r.call) :
    ∃ t, step s r = some t ∧ Unlocked t := by
  obtain ⟨apart,meets⟩ := meets
  rw [step]
  split
  · rw [if_neg (by simp [apart])]
    -- the condition does not look at the outcomes
    have met : Meets (facing s.data r.outcomes) r.call := by
      generalize r.call = call at meets ⊢
      unfold Meets at meets ⊢
      split at meets <;> exact meets
    obtain ⟨_,t,ran,after⟩ := perform_releases r.call ⟨s.held,facing s.data r.outcomes⟩ ⟨(unlocked_iff.mp free).1,met⟩
    exact ⟨t,by rw [ran]; rfl,unlocked_iff.mpr after⟩
  · exact ⟨s,rfl,free⟩

/-- In every run that meets the condition each call comes back, and leaves both locks free. -/
theorem jbd2_run_unlocked (requests : List Request)
    (guarded : Guarded step (fun s r => r.apart ∧ Meets s.data r.call) boot requests) :
    ∃ t, run step boot requests = some t ∧ Unlocked t :=
  run_invariant unlocked_step requests boot (fun _ => rfl) guarded

def someRun : List Request :=
  [⟨.init 8192 16 .other 424,[],true⟩,⟨.start,[],true⟩,⟨.logBlock (some 0) true 8,[],true⟩,⟨.commit (some 0),[],true⟩,
   ⟨.start,[],true⟩,⟨.commit (some 1),[false],true⟩,⟨.checkpoint,[],true⟩,
   ⟨.load [⟨2,1,.descriptor,1⟩,⟨3,1,.commitBlock,1⟩],[],true⟩,⟨.abort (some 1),[],true⟩,⟨.destroy,[],true⟩,⟨.flush,[],true⟩]

theorem jbd2_run_unlocked_of_commit : ∃ t, run step boot someRun = some t ∧ Unlocked t :=
  jbd2_run_unlocked someRun (by decide +kernel)

/-- A journal that was just set up cannot be flushed, and with a running transaction it cannot be
    destroyed: both calls wait for a lock they hold. -/
theorem jbd2_flush_and_destroy_wait :
    (run step boot [⟨.init 4096 16 .unreadable 0,[],true⟩]).isSome ∧
    run step boot [⟨.init 4096 16 .unreadable 0,[],true⟩,⟨.flush,[],true⟩] = none ∧
      run step boot [⟨.init 4096 16 .unreadable 0,[],true⟩,⟨.start,[],true⟩,⟨.destroy,[],true⟩] = none :=
  ⟨rfl,rfl,rfl⟩

-- with blocks of 4096 bytes the numbers of the logged blocks are behind the end of the descriptor
example : run step boot [⟨.init 4096 16 .unreadable 0,[],true⟩,⟨.start,[],true⟩,⟨.logBlock (some 0) true 8,[],true⟩,
    ⟨.commit (some 0),[],true⟩] = none := rfl

end Kenux.Jbd2Locks
