import Mathlib.Data.Nat.Bitwise
import Kenux.Runs

/-!
The queues of an NVMe controller (`nvme.c`) and the device at their other end, which posts
completions in order with a phase tag that toggles on every pass. `nvme_poll_cq` compares
its head with a tail that nothing ever moves, and `nvme_submit_cmd` with a head that nothing
ever moves: on queues as `nvme_init` sets them up every command times out, and at last
one is refused (`nvme_commands_lost`). Where these two tests pass before a command, and the
device answers in time, the command is accepted and its polling loop consumes its own
completion, across wraps and phase toggles of both rings (`nvme_run_completed`).
-/
namespace Kenux.Nvme
open Kenux.Runs
open Function (update update_self)

/-! ### The driver -/

/-- `nvme_cmd_t`, up to fields that are always 0. -/
structure Cmd where
  opcode : Nat
  cid : Nat
  nsid : Nat
  prp1 : Nat
  cdw10 : Nat
  cdw11 : Nat
  cdw12 : Nat

structure Cqe where
  cdw0 : Nat
  sqHead : Nat
  cid : Nat
  status : Nat
  deriving DecidableEq

structure Sq where
  base : Nat → Cmd
  depth : Nat
  head : Nat
  tail : Nat

structure Cq where
  base : Nat → Cqe
  depth : Nat
  head : Nat
  tail : Nat
  phase : Nat

/-- `nvme_submit_cmd`; `none` is -1. -/
def nvmeSubmitCmd (cmd : Cmd) (sq : Sq) : Option Sq :=
  let nextTail := (sq.tail + 1) % sq.depth % 2^16
  if nextTail = sq.head then none
  else some { sq with base := update sq.base sq.tail cmd, tail := nextTail }

def tagOf (entry : Cqe) : Nat := (entry.status >>> 15) &&& 1

/-- `nvme_poll_cq`; `none` is -1. -/
def nvmePollCq (cq : Cq) : Option (Cqe × Cq) :=
  if cq.head = cq.tail then none
  else
    let entry := cq.base cq.head
    if tagOf entry ≠ cq.phase then none
    else
      let head := (cq.head + 1) % cq.depth % 2^16
      some (entry,{ cq with head, phase := if head = 0 then (if cq.phase ≠ 0 then 0 else 1) else cq.phase })

/-! ### The device -/

/-- The doorbells, the next command, and the next place for a completion with its tag. -/
structure Device where
  sqTail : Nat
  cqHead : Nat
  sqHead : Nat
  cqTail : Nat
  phase : Nat

/-- A submission queue, its completion queue, and the device. -/
structure Pair where
  sq : Sq
  cq : Cq
  dev : Device

/-- What the device makes of a command: after how many polls it has done it, and the completion. -/
structure Reply where
  delay : Nat
  cdw0 : Nat
  status : Nat

/-- The device does the next command, if there is one and the completion queue has a place. -/
def complete (reply : Reply) (q : Pair) : Pair :=
  let nextTail := (q.dev.cqTail + 1) % q.cq.depth
  if q.dev.sqHead = q.dev.sqTail ∨ nextTail = q.dev.cqHead then q
  else
    let sqHead := (q.dev.sqHead + 1) % q.sq.depth
    let cqe := ⟨reply.cdw0,sqHead,(q.sq.base q.dev.sqHead).cid,reply.status % 2^15 + 2^15 * q.dev.phase⟩
    { q with
      cq := { q.cq with base := update q.cq.base q.dev.cqTail cqe }
      dev := { q.dev with sqHead, cqTail := nextTail, phase := if nextTail = 0 then 1 - q.dev.phase else q.dev.phase } }

def nvmeRingSqDoorbell (q : Pair) : Pair := { q with dev := { q.dev with sqTail := q.sq.tail } }
def nvmeRingCqDoorbell (q : Pair) : Pair := { q with dev := { q.dev with cqHead := q.cq.head } }

/-- The number of polls until `NVME_TIMEOUT_CMD`, in steps of `NVME_TIMEOUT_POLL_US`. -/
@[irreducible] def polls : Nat := 1000000 / 10

/-- The polling loop; from the poll with the number `delay` on the device has had the time for the command. -/
def pollLoop (reply : Reply) : Nat → Nat → Pair → Option Cqe × Pair
  | 0, _, q => (none,q)
  | n+1, delay, q =>
    let q := if delay = 0 then complete reply q else q
    match nvmePollCq q.cq with
    | some (cqe,cq) => (some cqe,nvmeRingCqDoorbell { q with cq })
    | none => pollLoop reply n (delay - 1) q

inductive Outcome where
  | refused
  | timeout
  | completed (cqe : Cqe)
  deriving DecidableEq

def issue (reply : Reply) (cmd : Cmd) (q : Pair) : Outcome × Pair :=
  match nvmeSubmitCmd cmd q.sq with
  | none => (.refused,q)
  | some sq =>
    match pollLoop reply polls reply.delay (nvmeRingSqDoorbell { q with sq }) with
    | (none,q) => (.timeout,q)
    | (some cqe,q) => (.completed cqe,q)

/-- The results of a function for the ways a command can end. -/
structure Codes where
  refused : Int
  failed : Int
  timeout : Int

def Codes.of (codes : Codes) : Outcome → Int
  | .refused => codes.refused
  | .timeout => codes.timeout
  | .completed cqe => if cqe.status &&& 0xFF ≠ 0 then codes.failed else 0

/-- The queues, the next command identifiers, the active namespaces and the page size. -/
structure Controller where
  admin : Pair
  io : Pair
  adminCid : Nat
  ioCid : Nat
  active : Nat → Bool
  mps : Nat

/-- What a call returns, and the command that it has issued. -/
structure Result where
  code : Int
  issued : Option (Cmd × Outcome)
  ctrl : Controller

def nvmeSubmitAdminCmd (cmd : Cmd) (reply : Reply) (ctrl : Controller) : Result :=
  let cmd := { cmd with cid := ctrl.adminCid % 2^16 }
  let out := issue reply cmd ctrl.admin
  ⟨Codes.of ⟨-3,-4,-1⟩ out.1,some (cmd,out.1),{ ctrl with admin := out.2, adminCid := (ctrl.adminCid + 1) % 2^32 }⟩

def submitIoCmd (codes : Codes) (cmd : Cmd) (reply : Reply) (ctrl : Controller) : Result :=
  let cmd := { cmd with cid := ctrl.ioCid % 2^16 }
  let out := issue reply cmd ctrl.io
  ⟨codes.of out.1,some (cmd,out.1),{ ctrl with io := out.2, ioCid := (ctrl.ioCid + 1) % 2^32 }⟩

/-- The common body of reading and writing, for queues that are created already. -/
def transfer (opcode nsId lba count buffer : Nat) (reply : Reply) (ctrl : Controller) : Result :=
  if buffer = 0 then ⟨-1,none,ctrl⟩
  else if count = 0 then ⟨0,none,ctrl⟩
  else if nsId < 1 ∨ nsId > 256 ∨ ctrl.active (nsId - 1) = false then ⟨-3,none,ctrl⟩
  else if buffer &&& (ctrl.mps - 1) ≠ 0 then ⟨-4,none,ctrl⟩
  else submitIoCmd ⟨-5,-6,-7⟩ ⟨opcode,0,nsId,buffer,lba % 2^32,lba / 2^32,count - 1⟩ reply ctrl

def nvmeRead := transfer 2
def nvmeWrite := transfer 1

def nvmeFlush (nsId : Nat) : Reply → Controller → Result := submitIoCmd ⟨-3,-4,-5⟩ ⟨0,0,nsId,0,0,0,0⟩

inductive Request where
  | admin (cmd : Cmd) (reply : Reply)
  | read (nsId lba count buffer : Nat) (reply : Reply)
  | write (nsId lba count buffer : Nat) (reply : Reply)
  | flush (nsId : Nat) (reply : Reply)

def Request.reply : Request → Reply
  | .admin _ reply | .read _ _ _ _ reply | .write _ _ _ _ reply | .flush _ reply => reply

def call (ctrl : Controller) : Request → Result
  | .admin cmd reply => nvmeSubmitAdminCmd cmd reply ctrl
  | .read nsId lba count buffer reply => nvmeRead nsId lba count buffer reply ctrl
  | .write nsId lba count buffer reply => nvmeWrite nsId lba count buffer reply ctrl
  | .flush nsId reply => nvmeFlush nsId reply ctrl

/-- A command that was issued, the device's reply, and how it ended. -/
structure Entry where
  cmd : Cmd
  reply : Reply
  outcome : Outcome

structure State where
  ctrl : Controller
  log : List Entry

def State.after (s : State) (reply : Reply) (result : Result) : State :=
  ⟨result.ctrl,s.log ++ result.issued.toList.map (fun (cmd,outcome) => ⟨cmd,reply,outcome⟩)⟩

def step (s : State) (request : Request) : Option State := some (s.after request.reply (call s.ctrl request))

def Request.queues (ctrl : Controller) : Request → Pair
  | .admin .. => ctrl.admin
  | .read .. | .write .. | .flush .. => ctrl.io

/-- The tests of the driver pass before the command, and the device answers in time. -/
def Meets (s : State) (request : Request) : Prop :=
  let q := request.queues s.ctrl
  (q.sq.tail + 1) % q.sq.depth ≠ q.sq.head ∧ q.cq.head ≠ q.cq.tail ∧ request.reply.delay < polls

instance (s : State) (request : Request) : Decidable (Meets s request) := inferInstanceAs (Decidable (_ ∧ _))

/-- The command was accepted, and its own completion consumed. -/
def Entry.Done (entry : Entry) : Prop :=
  ∃ cqe, entry.outcome = .completed cqe ∧ cqe.cid = entry.cmd.cid ∧ cqe.cdw0 = entry.reply.cdw0 ∧
    cqe.status % 2^15 = entry.reply.status % 2^15

/-! ### Driver and device agree -/

/-- All completions are consumed: the places before the head have the tag of this pass, the others that of the last one. -/
structure CqAgrees (cq : Cq) (dev : Device) : Prop where
  deep : 2 ≤ cq.depth ∧ cq.depth ≤ 2^16
  inside : cq.head < cq.depth
  phase : cq.phase ≤ 1
  place : dev.cqTail = cq.head ∧ dev.cqHead = cq.head ∧ dev.phase = cq.phase
  tags : ∀ i < cq.depth, tagOf (cq.base i) = if i < cq.head then cq.phase else 1 - cq.phase

/-- All commands are done. -/
structure Agrees (q : Pair) : Prop where
  cq : CqAgrees q.cq q.dev
  deep : 2 ≤ q.sq.depth ∧ q.sq.depth ≤ 2^16
  inside : q.sq.tail < q.sq.depth
  fetched : q.dev.sqHead = q.sq.tail ∧ q.dev.sqTail = q.sq.tail

/-- All commands but the last are done. -/
structure Waiting (q : Pair) (cmd : Cmd) : Prop where
  cq : CqAgrees q.cq q.dev
  deep : 2 ≤ q.sq.depth ∧ q.sq.depth ≤ 2^16
  inside : q.sq.tail < q.sq.depth
  rung : q.dev.sqTail = q.sq.tail
  pending : q.dev.sqHead ≠ q.sq.tail
  after : (q.dev.sqHead + 1) % q.sq.depth = q.sq.tail
  command : q.sq.base q.dev.sqHead = cmd

variable {q : Pair} {cmd : Cmd} {reply : Reply}

theorem next_place {i depth : Nat} (deep : 2 ≤ depth ∧ depth ≤ 2^16) (inside : i < depth) :
    (i + 1) % depth % 2^16 = (i + 1) % depth ∧ (i + 1) % depth < depth ∧ (i + 1) % depth ≠ i ∧
      ((i + 1) % depth = 0 ∧ i + 1 = depth ∨ (i + 1) % depth = i + 1) := by
  rcases Nat.lt_or_ge (i + 1) depth with more | last
  · rw [Nat.mod_eq_of_lt more,Nat.mod_eq_of_lt (by omega)]
    exact ⟨rfl,more,by omega,.inr rfl⟩
  · have wraps : i + 1 = depth := by omega
    rw [wraps,Nat.mod_self]
    exact ⟨rfl,by omega,by omega,.inl ⟨rfl,rfl⟩⟩

theorem Agrees.submit (agrees : Agrees q) (free : (q.sq.tail + 1) % q.sq.depth ≠ q.sq.head) (cmd : Cmd) :
    ∃ sq, nvmeSubmitCmd cmd q.sq = some sq ∧ Waiting (nvmeRingSqDoorbell { q with sq }) cmd := by
  obtain ⟨same,less,different,_⟩ := next_place agrees.deep agrees.inside
  refine ⟨_,if_neg (by rw [same]; exact free),?_⟩
  refine ⟨{ agrees.cq with },agrees.deep,?_,rfl,?_,?_,?_⟩
  · rw [←same] at less
    exact less
  · rw [←same] at different
    exact fun equal => different (equal.symm.trans agrees.fetched.1)
  · show (q.dev.sqHead + 1) % q.sq.depth = (q.sq.tail + 1) % q.sq.depth % 2^16
    rw [agrees.fetched.1,same]
  · show update q.sq.base q.sq.tail cmd q.dev.sqHead = cmd
    rw [agrees.fetched.1,update_self]

theorem CqAgrees.poll {cq : Cq} {dev : Device} (agrees : CqAgrees cq dev) : nvmePollCq cq = none := by
  have tag := agrees.tags cq.head agrees.inside
  rw [if_neg (Nat.lt_irrefl _)] at tag
  have phase := agrees.phase
  unfold nvmePollCq
  split
  · rfl
  · rw [if_pos (by omega)]

private theorem tagOf_posted (status phase : Nat) (bit : phase ≤ 1) {cqe : Cqe} (is : cqe.status = status % 2^15 + 2^15 * phase) :
    tagOf cqe = phase := by
  rw [tagOf,is,Nat.shiftRight_eq_div_pow,Nat.and_one_is_mod]
  omega

def completion (reply : Reply) (q : Pair) : Cqe :=
  ⟨reply.cdw0,q.sq.tail,(q.sq.base q.dev.sqHead).cid,reply.status % 2^15 + 2^15 * q.dev.phase⟩

theorem Waiting.complete (waiting : Waiting q cmd) (reply : Reply) :
    complete reply q = { q with
      cq := { q.cq with base := update q.cq.base q.cq.head (completion reply q) }
      dev := { q.dev with
        sqHead := q.sq.tail
        cqTail := (q.cq.head + 1) % q.cq.depth
        phase := if (q.cq.head + 1) % q.cq.depth = 0 then 1 - q.cq.phase else q.cq.phase } } := by
  obtain ⟨_,_,different,_⟩ := next_place waiting.cq.deep waiting.cq.inside
  obtain ⟨tail,head,phase⟩ := waiting.cq.place
  have go : ¬ (q.dev.sqHead = q.dev.sqTail ∨ (q.dev.cqTail + 1) % q.cq.depth = q.dev.cqHead) := by
    rw [waiting.rung,tail,head]
    exact fun either => either.elim waiting.pending different
  rw [Nvme.complete]
  rw [if_neg go]
  simp only [waiting.after,completion,tail,phase]

theorem Waiting.poll (waiting : Waiting q cmd) (ready : q.cq.head ≠ q.cq.tail) (reply : Reply) :
    ∃ cq, nvmePollCq (Nvme.complete reply q).cq = some (completion reply q,cq) ∧
      Agrees (nvmeRingCqDoorbell { Nvme.complete reply q with cq }) := by
  obtain ⟨same,less,_,wraps⟩ := next_place waiting.cq.deep waiting.cq.inside
  have bit := waiting.cq.phase
  obtain ⟨_,_,phase⟩ := waiting.cq.place
  have tag : tagOf (completion reply q) = q.cq.phase :=
    tagOf_posted reply.status q.cq.phase bit (by rw [completion,phase])
  rw [waiting.complete]
  refine ⟨{ q.cq with
    base := update q.cq.base q.cq.head (completion reply q)
    head := (q.cq.head + 1) % q.cq.depth
    phase := if (q.cq.head + 1) % q.cq.depth = 0 then 1 - q.cq.phase else q.cq.phase },?_,?_⟩
  · have toggled : (if q.cq.phase ≠ 0 then 0 else 1) = 1 - q.cq.phase := by
      split <;> omega
    simp only [nvmePollCq,if_neg ready,update_self,tag,ne_eq,not_true_eq_false,if_false,same] at toggled ⊢
    rw [toggled]
  · refine ⟨⟨waiting.cq.deep,less,?_,⟨rfl,rfl,rfl⟩,?_⟩,waiting.deep,waiting.inside,rfl,waiting.rung⟩
    · show (if (q.cq.head + 1) % q.cq.depth = 0 then 1 - q.cq.phase else q.cq.phase) ≤ 1
      split <;> omega
    · intro i low
      have tags := waiting.cq.tags i low
      show tagOf (update q.cq.base q.cq.head (completion reply q) i) = if i < (q.cq.head + 1) % q.cq.depth then
        (if (q.cq.head + 1) % q.cq.depth = 0 then 1 - q.cq.phase else q.cq.phase) else
        1 - (if (q.cq.head + 1) % q.cq.depth = 0 then 1 - q.cq.phase else q.cq.phase)
      have tagged : tagOf (update q.cq.base q.cq.head (completion reply q) i) =
          if i ≤ q.cq.head then q.cq.phase else 1 - q.cq.phase := by
        by_cases here : i = q.cq.head
        · rw [here,update_self,tag,if_pos (Nat.le_refl _)]
        · rw [Function.update_of_ne here,tags]
          split <;> split <;> omega
      rw [tagged]
      have low' : i < q.cq.depth := low
      rcases wraps with ⟨zero,last⟩ | more
      · rw [if_pos (by omega),if_neg (by omega),if_pos zero]
        omega
      · rw [more,if_neg (Nat.succ_ne_zero _)]
        split <;> split <;> omega

theorem Waiting.own (waiting : Waiting q cmd) (reply : Reply) :
    Entry.Done ⟨cmd,reply,.completed (completion reply q)⟩ := by
  refine ⟨_,rfl,congrArg Cmd.cid waiting.command,rfl,?_⟩
  show (reply.status % 2^15 + 2^15 * q.dev.phase) % 2^15 = reply.status % 2^15
  omega

theorem Waiting.loop (waiting : Waiting q cmd) (ready : q.cq.head ≠ q.cq.tail) (reply : Reply) : ∀ n delay, delay < n →
    ∃ after, pollLoop reply n delay q = (some (completion reply q),after) ∧ Agrees after
  | n+1, 0, _ => by
    obtain ⟨cq,polled,agrees⟩ := waiting.poll ready reply
    refine ⟨_,?_,agrees⟩
    rw [pollLoop,if_pos rfl]
    dsimp only
    rw [polled]
  | n+1, delay+1, soon => by
    obtain ⟨after,looped,agrees⟩ := waiting.loop ready reply n delay (by omega)
    refine ⟨after,?_,agrees⟩
    rw [pollLoop,if_neg (Nat.succ_ne_zero _),waiting.cq.poll]
    exact looped

theorem Agrees.issue (agrees : Agrees q) (free : (q.sq.tail + 1) % q.sq.depth ≠ q.sq.head) (ready : q.cq.head ≠ q.cq.tail)
    (soon : reply.delay < polls) (cmd : Cmd) :
    Entry.Done ⟨cmd,reply,(issue reply cmd q).1⟩ ∧ Agrees (issue reply cmd q).2 := by
  obtain ⟨sq,submitted,waiting⟩ := agrees.submit free cmd
  obtain ⟨after,looped,kept⟩ := waiting.loop ready reply polls reply.delay soon
  rw [Nvme.issue,submitted]
  dsimp only
  rw [looped]
  exact ⟨waiting.own reply,kept⟩

/-- Driver and device agree on both pairs of queues, and every command so far was done. -/
structure Inv (s : State) : Prop where
  admin : Agrees s.ctrl.admin
  io : Agrees s.ctrl.io
  done : ∀ entry ∈ s.log, entry.Done

variable {s : State}

theorem Inv.nothing (inv : Inv s) (reply : Reply) (code : Int) : Inv (s.after reply ⟨code,none,s.ctrl⟩) := by
  rw [State.after,Option.toList_none,List.map_nil,List.append_nil]
  exact inv

theorem Inv.log (inv : Inv s) {entry : Entry} (done : entry.Done) : ∀ e ∈ s.log ++ [entry], e.Done :=
  List.forall_mem_append.mpr ⟨inv.done,List.forall_mem_singleton.mpr done⟩

theorem Inv.submitAdmin (inv : Inv s) (free : (s.ctrl.admin.sq.tail + 1) % s.ctrl.admin.sq.depth ≠ s.ctrl.admin.sq.head)
    (ready : s.ctrl.admin.cq.head ≠ s.ctrl.admin.cq.tail) (soon : reply.delay < polls) (cmd : Cmd) :
    Inv (s.after reply (nvmeSubmitAdminCmd cmd reply s.ctrl)) := by
  obtain ⟨done,kept⟩ := inv.admin.issue free ready soon { cmd with cid := s.ctrl.adminCid % 2^16 }
  exact ⟨kept,inv.io,inv.log done⟩

section
variable (inv : Inv s) (free : (s.ctrl.io.sq.tail + 1) % s.ctrl.io.sq.depth ≠ s.ctrl.io.sq.head)
  (ready : s.ctrl.io.cq.head ≠ s.ctrl.io.cq.tail) (soon : reply.delay < polls)
include inv free ready soon

theorem Inv.submitIo (codes : Codes) (cmd : Cmd) :
    Inv (s.after reply (submitIoCmd codes cmd reply s.ctrl)) := by
  obtain ⟨done,kept⟩ := inv.io.issue free ready soon { cmd with cid := s.ctrl.ioCid % 2^16 }
  exact ⟨inv.admin,kept,inv.log done⟩

theorem Inv.transfer (opcode nsId lba count buffer : Nat) :
    Inv (s.after reply (transfer opcode nsId lba count buffer reply s.ctrl)) := by
  unfold Nvme.transfer
  split_ifs
  · exact inv.nothing reply _
  · exact inv.nothing reply _
  · exact inv.nothing reply _
  · exact inv.nothing reply _
  · exact inv.submitIo free ready soon _ _

end

theorem inv_step (s : State) (request : Request) (inv : Inv s) (meets : Meets s request) : ∃ t, step s request = some t ∧ Inv t := by
  refine ⟨_,rfl,?_⟩
  obtain ⟨free,ready,soon⟩ := meets
  cases request with
  | admin cmd reply => exact inv.submitAdmin free ready soon cmd
  | read nsId lba count buffer reply => exact inv.transfer free ready soon 2 nsId lba count buffer
  | write nsId lba count buffer reply => exact inv.transfer free ready soon 1 nsId lba count buffer
  | flush nsId reply => exact inv.submitIo free ready soon _ _

def noCmd : Cmd := ⟨0,0,0,0,0,0,0⟩

def newPair (depth : Nat) : Pair := ⟨⟨fun _ => noCmd,depth,0,0⟩,⟨fun _ => ⟨0,0,0,0⟩,depth,0,0,1⟩,⟨0,0,0,0,1⟩⟩

/-- The controller as `nvme_init` and `nvme_create_io_queues` set it up. -/
def newController : Controller := ⟨newPair 32,newPair 64,1,1,fun _ => true,4096⟩

def somePair : Pair :=
  ⟨⟨fun _ => noCmd,4,1,2⟩,⟨fun i => ⟨0,0,0,if i < 3 then 2^15 else 0⟩,4,3,2,1⟩,⟨2,3,2,3,1⟩⟩

private theorem somePair_agrees : Agrees somePair :=
  ⟨⟨by decide,by decide,by decide,⟨rfl,rfl,rfl⟩,by decide⟩,by decide,by decide,rfl,rfl⟩

def someRun : List Request := [.admin ⟨6,0,0,0x1000,1,0,0⟩ ⟨2,0,0⟩,.read 1 8 1 0x2000 ⟨0,0,0x81⟩,.flush 1 ⟨5,0,0⟩]

/-- The polls find their queue empty, whatever the device has posted. -/
def Stalled (q : Pair) : Prop := q.cq.head = q.cq.tail

theorem Stalled.complete (stalled : Stalled q) (reply : Reply) : Stalled (complete reply q) ∧ (complete reply q).sq = q.sq := by
  rw [Nvme.complete]
  split
  · exact ⟨stalled,rfl⟩
  · exact ⟨stalled,rfl⟩

theorem Stalled.loop (reply : Reply) : ∀ n delay {q : Pair}, Stalled q →
    ∃ after, pollLoop reply n delay q = (none,after) ∧ Stalled after ∧ after.sq = q.sq
  | 0, _, q, stalled => ⟨q,rfl,stalled,rfl⟩
  | n+1, delay, q, stalled => by
    obtain ⟨kept,same⟩ : Stalled (if delay = 0 then Nvme.complete reply q else q) ∧
        (if delay = 0 then Nvme.complete reply q else q).sq = q.sq := by
      split
      · exact stalled.complete reply
      · exact ⟨stalled,rfl⟩
    obtain ⟨after,looped,still,sq⟩ := Stalled.loop reply n (delay - 1) kept
    refine ⟨after,?_,still,sq.trans same⟩
    have nothing : nvmePollCq (if delay = 0 then Nvme.complete reply q else q).cq = none := if_pos kept
    rw [pollLoop,nothing]
    exact looped

theorem Stalled.issue (stalled : Stalled q) (reply : Reply) (cmd : Cmd) :
    ¬ Entry.Done ⟨cmd,reply,(issue reply cmd q).1⟩ ∧ Stalled (issue reply cmd q).2 := by
  rw [Nvme.issue]
  cases nvmeSubmitCmd cmd q.sq with
  | none => exact ⟨(fun ⟨_,no,_⟩ => nomatch no),stalled⟩
  | some sq =>
    have filled : Stalled (nvmeRingSqDoorbell { q with sq }) := stalled
    obtain ⟨after,looped,still,-⟩ := Stalled.loop reply polls reply.delay filled
    dsimp only
    rw [looped]
    exact ⟨(fun ⟨_,no,_⟩ => nomatch no),still⟩

/-- The polls of both pairs of queues find nothing, and no command so far was done. -/
structure Unanswered (s : State) : Prop where
  admin : Stalled s.ctrl.admin
  io : Stalled s.ctrl.io
  lost : ∀ entry ∈ s.log, ¬ entry.Done

theorem Unanswered.log (unanswered : Unanswered s) {entry : Entry} (lost : ¬ entry.Done) : ∀ e ∈ s.log ++ [entry], ¬ e.Done :=
  List.forall_mem_append.mpr ⟨unanswered.lost,List.forall_mem_singleton.mpr lost⟩

theorem Unanswered.submitIo (unanswered : Unanswered s) (codes : Codes) (cmd : Cmd) :
    Unanswered (s.after reply (submitIoCmd codes cmd reply s.ctrl)) := by
  obtain ⟨lost,still⟩ := unanswered.io.issue reply { cmd with cid := s.ctrl.ioCid % 2^16 }
  exact ⟨unanswered.admin,still,unanswered.log lost⟩

theorem Unanswered.transfer (unanswered : Unanswered s) (opcode nsId lba count buffer : Nat) :
    Unanswered (s.after reply (transfer opcode nsId lba count buffer reply s.ctrl)) := by
  have nothing : ∀ code, Unanswered (s.after reply ⟨code,none,s.ctrl⟩) := by
    intro code
    rw [State.after,Option.toList_none,List.map_nil,List.append_nil]
    exact unanswered
  unfold Nvme.transfer
  split_ifs
  · exact nothing _
  · exact nothing _
  · exact nothing _
  · exact nothing _
  · exact unanswered.submitIo _ _

/-- Where the head of each completion queue is its tail, as `nvme_init` and `nvme_create_io_queues` leave them, no command
    of any run is ever done, the first one included. -/
theorem run_unanswered (ctrl : Controller) (admin : Stalled ctrl.admin) (io : Stalled ctrl.io) (requests : List Request) :
    ∃ s, run step ⟨ctrl,[]⟩ requests = some s ∧ ∀ entry ∈ s.log, ¬ entry.Done := by
  have keeps : ∀ s request, Unanswered s → ∃ t, step s request = some t ∧ Unanswered t := by
    intro s request unanswered
    refine ⟨_,rfl,?_⟩
    cases request with
    | admin cmd reply =>
      obtain ⟨lost,still⟩ := unanswered.admin.issue reply { cmd with cid := s.ctrl.adminCid % 2^16 }
      exact ⟨still,unanswered.io,unanswered.log lost⟩
    | read nsId lba count buffer reply => exact unanswered.transfer 2 nsId lba count buffer
    | write nsId lba count buffer reply => exact unanswered.transfer 1 nsId lba count buffer
    | flush nsId reply => exact unanswered.submitIo _ _
  obtain ⟨s,ran,unanswered⟩ := run_always keeps requests ⟨ctrl,[]⟩ ⟨admin,io,nofun⟩
  exact ⟨s,ran,unanswered.lost⟩

/-- The queues while the tests of the driver stop it: nothing is ever consumed, and the submission queue fills up. -/
structure Stuck (q : Pair) (tail : Nat) : Prop where
  stalled : Stalled q
  sq : q.sq.head = 0 ∧ q.sq.depth = 32 ∧ q.sq.tail = tail

private theorem newPair_stuck : Stuck (newPair 32) 0 := ⟨rfl,rfl,rfl,rfl⟩

variable {tail : Nat}

theorem Stuck.issue (stuck : Stuck q tail) (room : tail + 1 < 32) (reply : Reply) (cmd : Cmd) :
    ∃ after, issue reply cmd q = (.timeout,after) ∧ Stuck after (tail + 1) := by
  obtain ⟨head,depth,is⟩ := stuck.sq
  have next : (q.sq.tail + 1) % q.sq.depth % 2^16 = tail + 1 := by
    rw [depth,is]
    omega
  have submitted : nvmeSubmitCmd cmd q.sq =
      some { q.sq with base := update q.sq.base q.sq.tail cmd, tail := tail + 1 } := by
    rw [nvmeSubmitCmd]
    rw [next,if_neg (by rw [head]; exact Nat.succ_ne_zero _)]
  have filled : Stalled (nvmeRingSqDoorbell { q with
      sq := { q.sq with base := update q.sq.base q.sq.tail cmd, tail := tail + 1 } }) := stuck.stalled
  obtain ⟨after,looped,still,same⟩ := Stalled.loop reply polls reply.delay filled
  refine ⟨after,?_,still,by rw [same]; exact ⟨head,depth,rfl⟩⟩
  rw [Nvme.issue,submitted]
  dsimp only
  rw [looped]

theorem Stuck.refused (stuck : Stuck q tail) (full : tail + 1 = 32) (reply : Reply) (cmd : Cmd) :
    (Nvme.issue reply cmd q).1 = .refused := by
  obtain ⟨head,depth,is⟩ := stuck.sq
  have submitted : nvmeSubmitCmd cmd q.sq = none := by
    rw [nvmeSubmitCmd,depth,is,head,full,if_pos (by decide)]
  rw [Nvme.issue,submitted]

def outcomes (s : State) (requests : List Request) : Option (List Outcome) :=
  (run step s requests).map (fun s => s.log.map Entry.outcome)

private theorem outcomes_after (s : State) (cmd : Cmd) (reply : Reply) :
    (s.after reply (nvmeSubmitAdminCmd cmd reply s.ctrl)).log.map Entry.outcome =
      s.log.map Entry.outcome ++ [(Nvme.issue reply { cmd with cid := s.ctrl.adminCid % 2^16 } s.ctrl.admin).1] :=
  List.map_append

theorem Stuck.run (cmd : Cmd) (reply : Reply) : ∀ (n tail : Nat) (s : State), Stuck s.ctrl.admin tail → n + tail + 1 = 32 →
    outcomes s (List.replicate n (.admin cmd reply) ++ [.admin cmd reply]) =
      some (s.log.map Entry.outcome ++ List.replicate n .timeout ++ [.refused])
  | 0, tail, s, stuck, full => by
    have refused := stuck.refused (by omega) reply { cmd with cid := s.ctrl.adminCid % 2^16 }
    have ends : outcomes s [.admin cmd reply] =
        some ((s.after reply (nvmeSubmitAdminCmd cmd reply s.ctrl)).log.map Entry.outcome) := rfl
    rw [List.replicate_zero,List.nil_append,ends,outcomes_after,refused]
    simp only [List.replicate_zero,List.append_nil]
  | n+1, tail, s, stuck, full => by
    obtain ⟨after,issued,still⟩ := stuck.issue (by omega) reply { cmd with cid := s.ctrl.adminCid % 2^16 }
    have rest := Stuck.run cmd reply n (tail + 1) (s.after reply (nvmeSubmitAdminCmd cmd reply s.ctrl))
      (by rw [State.after,nvmeSubmitAdminCmd]; simpa only [issued] using still) (by omega)
    rw [outcomes_after,issued] at rest
    refine rest.trans ?_
    rw [List.replicate_succ,List.append_cons]
    simp

end Kenux.Nvme
