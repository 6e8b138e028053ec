import Kenux.Rings
import Kenux.Runs
import Kenux.Words
import Mathlib.Data.BitVec
import Mathlib.Data.List.Infix

/-!
Pipes (`fifo.c`): a ring of 4096 bytes under one lock. `wait_queue_wait` releases the lock
and does not take it again, so a call that comes back goes on without it. `fifo_run_stream`
proves, for the runs in which nobody comes back and no count of `fifo_read` lies between
`2 ^ 32` and `2 ^ 63`, that the bytes read are a prefix of the bytes written, that each
access is made with the lock and that each iteration with something to do moves a byte.
`fifo_read_bare` reads without the lock and then goes round on a count whose lower half is
used up.
-/
namespace Kenux.Fifo
open Kenux.Runs
open Kenux.Rings (copyIn copyOut copyIn_wrap copyOut_wrap)
open Kenux.Words (sub32)
open Function (update update_self update_of_ne)

abbrev Byte := BitVec 8

def pipeSize : Nat := 4096

/-- The pipe without its lock and its wait queues. -/
structure Pipe where
  data : Nat → Byte
  readPos : Nat
  writePos : Nat
  bytes : Nat

def fifoCreate : Pipe := ⟨fun _ => 0,0,0,0⟩

/-- What an iteration of `fifo_read` copies, and the pipe after it. -/
def take (toCopy : Nat) (pipe : Pipe) : List Byte × Pipe :=
  let contiguous := pipeSize - pipe.readPos
  if contiguous ≥ toCopy then
    (copyOut pipe.data pipe.readPos toCopy,
      { pipe with readPos := pipe.readPos + toCopy, bytes := pipe.bytes - toCopy })
  else
    (copyOut pipe.data pipe.readPos contiguous ++ copyOut pipe.data 0 (toCopy - contiguous),
      { pipe with readPos := toCopy - contiguous, bytes := pipe.bytes - toCopy })

/-- The pipe after an iteration of `fifo_write`. -/
def put (src : Nat → Byte) (toCopy : Nat) (pipe : Pipe) : Pipe :=
  let contiguous := pipeSize - pipe.writePos
  if contiguous ≥ toCopy then
    { pipe with data := copyIn pipe.data pipe.writePos src toCopy, writePos := pipe.writePos + toCopy,
                bytes := pipe.bytes + toCopy }
  else
    { pipe with
      data := copyIn (copyIn pipe.data pipe.writePos src contiguous) 0 (fun i => src (contiguous + i)) (toCopy - contiguous)
      writePos := toCopy - contiguous
      bytes := pipe.bytes + toCopy }

/-- Where a process is: outside, in one of the two loops, or in the `wait_queue_wait` of one. -/
inductive Phase where
  | outside
  | reading (count : BitVec 64) (total : Nat)
  | writing (src : Nat → Byte) (remaining total : Nat)
  | readWaits (count : BitVec 64) (total : Nat)
  | writeWaits (src : Nat → Byte) (remaining total : Nat)

/-- An iteration that looked at the ring: whether its process held the lock, whether it found
    data or space, and how many bytes it moved. -/
structure Iteration where
  held : Bool
  found : Bool
  moved : Nat
deriving DecidableEq

/-- The pipe, its lock and its flags, the processes and what their last call returned; the bytes accepted
    and returned so far, and the iterations made. -/
structure State (Proc : Type) where
  pipe : Pipe
  locked : Bool
  readerClosed : Bool
  writerClosed : Bool
  phase : Proc → Phase
  holds : Proc → Bool
  result : Proc → Int
  accepted : List Byte
  returned : List Byte
  log : List Iteration

section
variable {Proc : Type}

def start (readerClosed writerClosed : Bool) : State Proc :=
  ⟨fifoCreate,false,readerClosed,writerClosed,fun _ => .outside,fun _ => false,fun _ => 0,[],[],[]⟩

variable [DecidableEq Proc]

def State.setPhase (s : State Proc) (p : Proc) (phase : Phase) : State Proc :=
  { s with phase := update s.phase p phase }

def State.lock (s : State Proc) (p : Proc) : State Proc :=
  { s with locked := true, holds := update s.holds p true }

def State.unlock (s : State Proc) (p : Proc) : State Proc :=
  { s with locked := false, holds := update s.holds p false }

def State.leave (s : State Proc) (p : Proc) (result : Int) : State Proc :=
  { s.setPhase p .outside with result := update s.result p result }

def State.record (s : State Proc) (p : Proc) (found : Bool) (moved : Nat) : State Proc :=
  { s with log := ⟨s.holds p,found,moved⟩ :: s.log }

/-- The calls up to their loops; while the lock is taken the process spins. -/
def fifoRead (p : Proc) (nonNull : Bool) (count : BitVec 64) (s : State Proc) : State Proc :=
  match s.phase p with
  | .outside =>
    if !nonNull || count = 0 then s.leave p (-1)
    else if s.locked then s else (s.lock p).setPhase p (.reading count 0)
  | _ => s

def fifoWrite (p : Proc) (nonNull : Bool) (src : Nat → Byte) (count : BitVec 64) (s : State Proc) : State Proc :=
  match s.phase p with
  | .outside =>
    if !nonNull || count = 0 then s.leave p (-1)
    else if s.locked then s else (s.lock p).setPhase p (.writing src (count.toNat % 2 ^ 32) 0)
  | _ => s

def readStep (p : Proc) (count : BitVec 64) (total : Nat) (s : State Proc) : State Proc :=
  if (total : Int) < count.toInt then
    if s.pipe.bytes = 0 then
      let s := s.record p false 0
      if s.writerClosed then (s.unlock p).leave p total else (s.unlock p).setPhase p (.readWaits count total)
    else
      let toCopy := min (sub32 (count.toNat % 2 ^ 32) (total % 2 ^ 32)) s.pipe.bytes
      let (copied,pipe) := take toCopy s.pipe
      { (s.record p true toCopy).setPhase p (.reading count (total + toCopy)) with
        pipe, returned := s.returned ++ copied }
  else (s.unlock p).leave p total

def writeStep (p : Proc) (src : Nat → Byte) (remaining total : Nat) (s : State Proc) : State Proc :=
  if 0 < remaining then
    if s.readerClosed then (s.unlock p).leave p (if 0 < total then total else -1)
    else
      let space := pipeSize - s.pipe.bytes
      if space = 0 then ((s.record p false 0).unlock p).setPhase p (.writeWaits src remaining total)
      else
        let toCopy := min remaining space
        { (s.record p true toCopy).setPhase p (.writing src (remaining - toCopy) (total + toCopy)) with
          pipe := put (fun i => src (total + i)) toCopy s.pipe
          accepted := s.accepted ++ (List.range toCopy).map (fun i => src (total + i)) }
  else (s.unlock p).leave p total

def iterate (p : Proc) (s : State Proc) : State Proc :=
  match s.phase p with
  | .reading count total => readStep p count total s
  | .writing src remaining total => writeStep p src remaining total s
  | _ => s

/-- The process comes back from the `process_yield` of `wait_queue_wait`. -/
def comeBack (p : Proc) (s : State Proc) : State Proc :=
  match s.phase p with
  | .readWaits count total => s.setPhase p (.reading count total)
  | .writeWaits src remaining total => s.setPhase p (.writing src remaining total)
  | _ => s

inductive Request (Proc : Type) where
  | fifoRead (p : Proc) (nonNull : Bool) (count : BitVec 64)
  | fifoWrite (p : Proc) (nonNull : Bool) (src : Nat → Byte) (count : BitVec 64)
  | iterate (p : Proc)
  | comeBack (p : Proc)

def step (s : State Proc) : Request Proc → Option (State Proc)
  | .fifoRead p nonNull count => some (fifoRead p nonNull count s)
  | .fifoWrite p nonNull src count => some (fifoWrite p nonNull src count s)
  | .iterate p => some (iterate p s)
  | .comeBack p => some (comeBack p s)

def Phase.waits : Phase → Bool
  | .readWaits _ _ => true
  | .writeWaits _ _ _ => true
  | _ => false

/-- The count of `fifo_read` fits into 32 bits or is negative as an `int64_t`, and no process comes back from
    `wait_queue_wait`. -/
def Meets (s : State Proc) : Request Proc → Prop
  | .fifoRead _ _ count => count.toNat < 2 ^ 32 ∨ 2 ^ 63 ≤ count.toNat
  | .comeBack p => (s.phase p).waits = false
  | _ => True

instance (s : State Proc) : ∀ a, Decidable (Meets s a)
  | .fifoRead .. => inferInstanceAs (Decidable (_ ∨ _))
  | .comeBack _ => inferInstanceAs (Decidable (_ = _))
  | .fifoWrite _ _ _ _ | .iterate _ => .isTrue trivial

/-- The stream of the pipe: what was read is a prefix of what was written, the ring holds the rest, each access was
    made with the lock, which one process has at a time, and each iteration with something to do moved a byte. -/
structure Sound (s : State Proc) : Prop where
  stream : s.returned <+: s.accepted
  small : s.pipe.bytes ≤ pipeSize
  rest : s.returned.length + s.pipe.bytes = s.accepted.length
  held : ∀ x ∈ s.log, x.held = true
  progress : ∀ x ∈ s.log, x.found = true → 0 < x.moved
  exclusive : ∀ p q, s.holds p = true → s.holds q = true → p = q

end

/-- The ring holds the given bytes. The positions may stand at the end of the ring as well as at its beginning. -/
structure Ring (pipe : Pipe) (content : List Byte) : Prop where
  readPos : pipe.readPos ≤ pipeSize
  writePos : pipe.writePos ≤ pipeSize
  bytes : pipe.bytes = content.length
  small : pipe.bytes ≤ pipeSize
  meets : pipe.writePos % pipeSize = (pipe.readPos + content.length) % pipeSize
  holds : Rings.Holds pipeSize pipe.data pipe.readPos content

private theorem fifoCreate_ring : Ring fifoCreate [] :=
  ⟨Nat.zero_le _,Nat.zero_le _,rfl,Nat.zero_le _,rfl,fun i x found => by simp at found⟩

variable {n : Nat} {pipe : Pipe} {content : List Byte} {src : Nat → Byte}

private theorem take_fst (inside : pipe.readPos ≤ pipeSize) (fits : n ≤ pipeSize) :
    (take n pipe).1 = (List.range n).map (fun i => pipe.data ((pipe.readPos + i) % pipeSize)) := by
  rw [take]
  split
  next near => exact Rings.read_flat (by omega)
  next far => exact copyOut_wrap _ inside fits (by omega)

theorem put_data (n : Nat) (src : Nat → Byte) (inside : pipe.writePos ≤ pipeSize) (fits : n ≤ pipeSize) :
    (put src n pipe).data = Rings.fill pipeSize pipe.writePos src n pipe.data := by
  rw [put]
  split
  next near => exact (Rings.fill_flat src n (by omega)).symm
  next far => exact copyIn_wrap _ inside fits (by omega) src

theorem advance {pos : Nat} (inside : pos ≤ pipeSize) (fits : n ≤ pipeSize) :
    (if pipeSize - pos ≥ n then pos + n else n - (pipeSize - pos)) ≤ pipeSize ∧
      (if pipeSize - pos ≥ n then pos + n else n - (pipeSize - pos)) % pipeSize = (pos + n) % pipeSize := by
  split
  next near => exact ⟨by omega,rfl⟩
  next far =>
    refine ⟨by omega,?_⟩
    rw [show pos + n = pipeSize + (n - (pipeSize - pos)) by omega,Nat.add_mod_left]

private theorem take_snd (n : Nat) (pipe : Pipe) : (take n pipe).2 = { pipe with
    readPos := if pipeSize - pipe.readPos ≥ n then pipe.readPos + n else n - (pipeSize - pipe.readPos)
    bytes := pipe.bytes - n } := by
  rw [take]
  split <;> rfl

private theorem put_eq (src : Nat → Byte) (n : Nat) (pipe : Pipe) : put src n pipe = { pipe with
    data := (put src n pipe).data
    writePos := if pipeSize - pipe.writePos ≥ n then pipe.writePos + n else n - (pipeSize - pipe.writePos)
    bytes := pipe.bytes + n } := by
  rw [put]
  split <;> rfl

theorem take_ring (ring : Ring pipe content) (fits : n ≤ pipe.bytes) :
    (take n pipe).1 = content.take n ∧ Ring (take n pipe).2 (content.drop n) := by
  obtain ⟨readPos,writePos,bytes,small,meets,holds⟩ := ring
  obtain ⟨inside,same⟩ := advance readPos (show n ≤ pipeSize by omega)
  refine ⟨by rw [take_fst readPos (by omega),holds.read (by omega)],?_⟩
  rw [take_snd]
  refine ⟨inside,writePos,?_,?_,?_,?_⟩
  · rw [List.length_drop]
    exact congrArg (· - n) bytes
  · exact Nat.le_trans (Nat.sub_le _ _) small
  · have whole : pipe.readPos + n + (content.length - n) = pipe.readPos + content.length := by omega
    rw [meets,List.length_drop,← whole]
    exact Nat.ModEq.add_right _ same.symm
  · exact (holds.drop n).shift same

theorem put_ring (ring : Ring pipe content)
    (fits : n ≤ pipeSize - pipe.bytes) : Ring (put src n pipe) (content ++ (List.range n).map src) := by
  obtain ⟨readPos,writePos,bytes,small,meets,holds⟩ := ring
  obtain ⟨inside,same⟩ := advance writePos (show n ≤ pipeSize by omega)
  have data := put_data n src writePos (by omega)
  have length : (content ++ (List.range n).map src).length = content.length + n := by simp
  rw [put_eq]
  refine ⟨readPos,inside,?_,?_,?_,?_⟩
  · rw [length]
    exact congrArg (· + n) bytes
  · show pipe.bytes + n ≤ pipeSize
    omega
  · rw [same,length,Nat.add_mod,meets,← Nat.add_mod,Nat.add_assoc]
  · rw [data,Rings.fill_shift meets]
    exact holds.fill src n (by omega)

section
variable {Proc : Type}
  {count : BitVec 64}

def Phase.inLoop : Phase → Bool
  | .reading _ _ => true
  | .writing _ _ _ => true
  | _ => false

/-- A reader's count fits into 32 bits or is negative as an `int64_t`, and what it has does not exceed it. -/
def Phase.Fits : Phase → Prop
  | .reading count total => (count.toNat < 2 ^ 32 ∨ 2 ^ 63 ≤ count.toNat) ∧ total ≤ count.toNat
  | .readWaits count total => (count.toNat < 2 ^ 32 ∨ 2 ^ 63 ≤ count.toNat) ∧ total ≤ count.toNat
  | _ => True

/-- The process in a loop has the lock, and one process has it at a time. -/
structure Turns (phase : Proc → Phase) (holds : Proc → Bool) (locked : Bool) : Prop where
  loops : ∀ p, (phase p).inLoop = true → holds p = true
  taken : ∀ p, holds p = true → locked = true
  alone : ∀ p q, holds p = true → holds q = true → p = q
  fits : ∀ p, (phase p).Fits

def Iteration.Good (x : Iteration) : Prop := x.held = true ∧ (x.found = true → 0 < x.moved)

structure Inv (s : State Proc) : Prop where
  ring : ∃ content, Ring s.pipe content ∧ s.accepted = s.returned ++ content
  turns : Turns s.phase s.holds s.locked
  log : ∀ x ∈ s.log, x.Good

variable {s : State Proc}

theorem Inv.sound (inv : Inv s) : Sound s := by
  obtain ⟨⟨content,ring,stream⟩,turns,log⟩ := inv
  refine ⟨⟨content,stream.symm⟩,ring.small,?_,fun x there => (log x there).1,fun x there => (log x there).2,turns.alone⟩
  rw [stream,List.length_append,ring.bytes]

theorem start_inv (readerClosed writerClosed : Bool) : Inv (start readerClosed writerClosed : State Proc) := by
  exact ⟨⟨[],fifoCreate_ring,rfl⟩,⟨nofun,nofun,nofun,fun p => trivial⟩,nofun⟩

variable [DecidableEq Proc] {phase : Proc → Phase} {holds : Proc → Bool} {locked : Bool} {p : Proc} {next : Phase}
  {total : Nat}

theorem Turns.go (turns : Turns phase holds locked) (allowed : next.inLoop = true → holds p = true) (fits : next.Fits) :
    Turns (update phase p next) holds locked := by
  refine ⟨?_,turns.taken,turns.alone,?_⟩
  · exact update_cases allowed (fun q _ => turns.loops q)
  · exact update_cases fits (fun q _ => turns.fits q)

theorem Turns.stop (turns : Turns phase holds locked) (here : holds p = true) (ends : next.inLoop = false)
    (fits : next.Fits) : Turns (update phase p next) (update holds p false) false := by
  have moved := turns.go (p := p) (fun loops => by rw [ends] at loops; cases loops) fits
  have nobody : ∀ q, update holds p false q = false := by
    refine update_cases rfl (fun q other => ?_)
    rw [Bool.eq_false_iff]
    exact fun holder => other (turns.alone q p holder here)
  refine ⟨?_,fun q holder => ?_,fun q r holder => ?_,moved.fits⟩
  · intro q loops
    have same := turns.alone q p (moved.loops q loops) here
    rw [same,update_self,ends] at loops
    cases loops
  · rw [nobody] at holder
    cases holder
  · rw [nobody] at holder
    cases holder

theorem Turns.enter (turns : Turns phase holds false) (fits : next.Fits) :
    Turns (update phase p next) (update holds p true) true := by
  have holder : ∀ q, update holds p true q = true → q = p := by
    intro q has
    by_contra other
    rw [update_of_ne other] at has
    cases turns.taken q has
  refine ⟨?_,fun _ _ => rfl,fun q r has also => (holder q has).trans (holder r also).symm,?_⟩
  · refine update_cases (fun _ => update_self ..) (fun q other loops => ?_)
    rw [update_of_ne other]
    exact turns.loops q loops
  · exact update_cases fits (fun q _ => turns.fits q)

private theorem sub32_eq {count : Nat} (small : count < 2 ^ 32) (le : total ≤ count) :
    sub32 (count % 2 ^ 32) (total % 2 ^ 32) = count - total := by
  rw [sub32]
  omega

private theorem toNat_of_lt_toInt (meets : count.toNat < 2 ^ 32 ∨ 2 ^ 63 ≤ count.toNat)
    (more : (total : Int) < count.toInt) : count.toNat < 2 ^ 32 ∧ total < count.toNat := by
  rw [BitVec.toInt_eq_toNat_cond] at more
  split at more <;> omega

section
variable (inv : Inv s)
include inv

theorem Inv.call (loop : Phase) (fits : loop.Fits) (refused : Bool) :
    Inv (if refused then s.leave p (-1) else if s.locked then s else (s.lock p).setPhase p loop) := by
  split
  · exact ⟨inv.ring,inv.turns.go (fun loops => by cases loops) trivial,inv.log⟩
  split
  · exact inv
  next free =>
    rw [Bool.not_eq_true] at free
    have turns := inv.turns
    rw [free] at turns
    exact ⟨inv.ring,turns.enter fits,inv.log⟩

theorem Inv.fifoRead (p : Proc) (nonNull : Bool)
    (meets : count.toNat < 2 ^ 32 ∨ 2 ^ 63 ≤ count.toNat) : Inv (fifoRead p nonNull count s) := by
  rw [Fifo.fifoRead]
  split
  · exact inv.call (.reading count 0) ⟨meets,Nat.zero_le _⟩ (!nonNull || count = 0)
  · exact inv

theorem Inv.fifoWrite (p : Proc) (nonNull : Bool) (src : Nat → Byte) (count : BitVec 64) :
    Inv (fifoWrite p nonNull src count s) := by
  rw [Fifo.fifoWrite]
  split
  · exact inv.call (.writing src (count.toNat % 2 ^ 32) 0) trivial (!nonNull || count = 0)
  · exact inv

theorem Inv.stop {result : Proc → Int} {log : List Iteration} (here : s.holds p = true) (next : Phase)
    (ends : next.inLoop = false) (fits : next.Fits) (logged : log = s.log ∨ log = ⟨s.holds p,false,0⟩ :: s.log) :
    Inv { s with
      phase := update s.phase p next
      holds := update s.holds p false
      locked := false
      result := result
      log := log } := by
  refine ⟨inv.ring,inv.turns.stop here ends fits,?_⟩
  rcases logged with rfl | rfl
  · exact inv.log
  · exact List.forall_mem_cons.mpr ⟨⟨here,fun found => by cases found⟩,inv.log⟩

theorem Inv.readStep (here : s.phase p = .reading count total) :
    Inv (readStep p count total s) := by
  have holder : s.holds p = true := inv.turns.loops p (by rw [here]; rfl)
  obtain ⟨meets,bound⟩ : (Phase.reading count total).Fits := here ▸ inv.turns.fits p
  rw [Fifo.readStep]
  split
  next more =>
    obtain ⟨small,less⟩ := toNat_of_lt_toInt meets more
    split
    next empty =>
      dsimp only
      split
      · exact inv.stop holder .outside rfl trivial (.inr rfl)
      · exact inv.stop holder (.readWaits count total) rfl ⟨meets,bound⟩ (.inr rfl)
    next some =>
      rw [sub32_eq small bound]
      obtain ⟨content,ring,stream⟩ := inv.ring
      obtain ⟨copied,left⟩ := take_ring ring (Nat.min_le_right (count.toNat - total) s.pipe.bytes)
      refine ⟨⟨_,left,?_⟩,?_,?_⟩
      · show s.accepted = s.returned ++ _ ++ _
        rw [copied,List.append_assoc,List.take_append_drop,stream]
      · exact inv.turns.go (fun _ => holder) ⟨meets,by omega⟩
      · exact List.forall_mem_cons.mpr ⟨⟨holder,fun _ => by dsimp only; omega⟩,inv.log⟩
  · exact inv.stop holder .outside rfl trivial (.inl rfl)

theorem Inv.writeStep {remaining : Nat}
    (here : s.phase p = .writing src remaining total) : Inv (writeStep p src remaining total s) := by
  have holder : s.holds p = true := inv.turns.loops p (by rw [here]; rfl)
  rw [Fifo.writeStep]
  split
  next more =>
    split
    · exact inv.stop holder .outside rfl trivial (.inl rfl)
    · dsimp only
      split
      · exact inv.stop holder (.writeWaits src remaining total) rfl trivial (.inr rfl)
      next room =>
        obtain ⟨content,ring,stream⟩ := inv.ring
        refine ⟨⟨_,put_ring ring (Nat.min_le_right remaining (pipeSize - s.pipe.bytes)),?_⟩,?_,?_⟩
        · show s.accepted ++ _ = s.returned ++ _
          rw [stream,List.append_assoc]
        · exact inv.turns.go (fun _ => holder) trivial
        · exact List.forall_mem_cons.mpr ⟨⟨holder,fun _ => by dsimp only; omega⟩,inv.log⟩
  · exact inv.stop holder .outside rfl trivial (.inl rfl)

theorem Inv.iterate (p : Proc) : Inv (iterate p s) := by
  rw [Fifo.iterate]
  split
  next here => exact inv.readStep here
  next here => exact inv.writeStep here
  · exact inv

theorem Inv.comeBack (stays : (s.phase p).waits = false) : Inv (comeBack p s) := by
  rw [Fifo.comeBack]
  split
  next here => rw [here] at stays; cases stays
  next here => rw [here] at stays; cases stays
  · exact inv

end

theorem inv_step (a : Request Proc) (inv : Inv s) (meets : Meets s a) : ∃ t, step s a = some t ∧ Inv t := by
  cases a with
  | fifoRead p nonNull count => exact ⟨_,rfl,inv.fifoRead p nonNull meets⟩
  | fifoWrite p nonNull src count => exact ⟨_,rfl,inv.fifoWrite p nonNull src count⟩
  | iterate p => exact ⟨_,rfl,inv.iterate p⟩
  | comeBack p => exact ⟨_,rfl,inv.comeBack meets⟩

/-- In every run that meets the condition, the bytes read are the first of those written, and the pipe is used under its lock. -/
theorem fifo_run_stream (readerClosed writerClosed : Bool) (requests : List (Request Proc))
    (guarded : Guarded step Meets (start readerClosed writerClosed) requests) :
    ∃ s, run step (start readerClosed writerClosed) requests = some s ∧ Sound s := by
  obtain ⟨s,ran,inv⟩ := run_invariant (fun _ a => inv_step a) requests _ (start_inv readerClosed writerClosed) guarded
  exact ⟨s,ran,inv.sound⟩

end

def someBytes (i : Nat) : Byte := BitVec.ofNat 8 (i + 1)

def someRun : List (Request Bool) :=
  [.fifoWrite false true someBytes 3,.fifoRead true true 2,.iterate false,.iterate false,.fifoRead true true 2,
    .iterate true,.iterate true]

theorem fifo_run_stream_of_two : ∃ s, run step (start false false) someRun = some s ∧ Sound s :=
  fifo_run_stream false false someRun (by decide +kernel)

/-- A reader waits for data and comes back without the lock while the writer still holds it: it reads the ring
    beside the writer. Its count is `2 ^ 32 + 1`: after the first byte the rest of the count is zero in 32 bits,
    and the next iteration finds data and moves nothing. -/
theorem fifo_read_bare :
    (run step (start false false : State Bool)
      [.fifoRead true true (2 ^ 32 + 1),.iterate true,.fifoWrite false true someBytes 3,.iterate false,.comeBack true,
        .iterate true,.iterate true]).map (fun s => (s.log,s.holds false,s.returned,s.pipe.bytes))
      = some ([⟨false,true,0⟩,⟨false,true,1⟩,⟨true,true,3⟩,⟨true,false,0⟩],true,[1],2) := by decide +kernel

end Kenux.Fifo
