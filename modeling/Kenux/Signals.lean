import Mathlib.Data.Fintype.Card
import Kenux.Scheduler

/-!
Sending and delivering signals (`signal.c`), beside the process table of `Kenux.Scheduler`.
Of the entries queued for a real-time signal only one is delivered, a full queue drops what
is sent, and the frame of the handler is not made from the `siginfo` (`signal_sends_lost`).
`signal_run_delivered` proves that each send is delivered once, in order, with its `siginfo`,
for all runs in which a real-time signal is sent only while none of its kind is queued, with
the `siginfo` that the frame has and with memory of its own for the queue entry. `SIGKILL` and `SIGSTOP` are never blocked and never
have a handler of their own (`unmaskable_run`).
-/
namespace Kenux.Signals
open Kenux.Runs Kenux.Scheduler
open Function (update update_self update_of_ne)

structure SigInfo where
  signo : BitVec 32
  code : BitVec 32
  errno : BitVec 32
  addr : BitVec 64
  uid : BitVec 32
  pid : BitVec 32
  value : BitVec 64
  deriving DecidableEq, Repr

def SigInfo.zero : SigInfo := ⟨0,0,0,0,0,0,0⟩

/-- The handler, the mask and the flags of a `k_sigaction_t`; the handlers 0 and 1 are `SIG_DFL` and `SIG_IGN`. -/
structure SigAction where
  handler : BitVec 64
  mask : BitVec 64
  flags : BitVec 32

/-- A signal by its bit in a set: the signal with bit `i` is `i + 1`. -/
abbrev Bit := Fin 64

def Bit.signo (i : Bit) : Int := i.val + 1

def bitOf (sig : Int) : Bit := Fin.ofNat 64 (sig.toNat - 1)

def sigKillBit : Bit := 8
def sigStopBit : Bit := 18

def sigaddset (set : BitVec 64) (i : Bit) : BitVec 64 := set ||| BitVec.twoPow 64 i
def sigdelset (set : BitVec 64) (i : Bit) : BitVec 64 := set &&& ~~~ BitVec.twoPow 64 i
def sigismember (set : BitVec 64) (i : Bit) : Bool := set.getLsbD i

/-- What a handler is entered with: `rip`, `rdi`, the `siginfo` that `rsi` points to if it is set, and
    the mask in the context that `rdx` points to. -/
structure Frame where
  handler : BitVec 64
  sig : Bit
  info : Option SigInfo
  sigmask : BitVec 64
  deriving DecidableEq, Repr

/-- The signal data of a process, with the frames its handlers were entered with. `sent` has the `siginfo` of
    each real-time signal for which `signal_send` returned 0. -/
structure SignalStruct where
  actions : Bit → SigAction
  blocked : BitVec 64
  pending : BitVec 64
  queues : Bit → List SigInfo
  frames : List Frame
  sent : Bit → List SigInfo

/-- `signal_create`, with the actions that are installed. -/
def signalCreate (actions : Bit → SigAction) : SignalStruct := ⟨actions,0,0,fun _ => [],[],fun _ => []⟩

def sigQueueMax : Nat := 8
def saSigInfo : BitVec 32 := 4
def saNoDefer : BitVec 32 := 0x40000000

def RealTime (i : Bit) : Prop := i.signo ≥ sigRtMin

instance (i : Bit) : Decidable (RealTime i) := inferInstanceAs (Decidable (_ ≥ _))

/-- The `siginfo` of a new queue entry. -/
def entryInfo (i : Bit) (info : Option SigInfo) : SigInfo := { info.getD .zero with signo := BitVec.ofInt 32 i.signo }

/-- The part of `signal_send` that changes the signal data. -/
def post (i : Bit) (info : Option SigInfo) (p : SignalStruct) : SignalStruct :=
  if RealTime i then
    let sent := update p.sent i (p.sent i ++ [entryInfo i info])
    if (p.queues i).length < sigQueueMax then
      { p with queues := update p.queues i (p.queues i ++ [entryInfo i info]), pending := sigaddset p.pending i, sent }
    else { p with sent }
  else { p with pending := sigaddset p.pending i }

/-- The process table and the signal data of the processes that have any. -/
structure State where
  table : Table
  data : Nat → Option SignalStruct

/-- `memory` tells if `kzalloc` returns an entry. -/
def signalSend (target : Nat) (sig : Int) (info : Option SigInfo) (memory : Bool) (s : State) : Int × State :=
  if sig < 1 ∨ sig > sigMax then (-1,s)
  else if target ≥ processMax then (-1,s)
  else if s.table.state target = .dead then (-1,s)
  else if sig = sigKill then (0,{ s with table := s.table.setState target .dead })
  else match s.data target with
    | none => (-1,s)
    | some p =>
      if sig ≥ sigRtMin ∧ memory = false then (-1,s)
      else (0,{ table := Scheduler.signalSend target sig true memory s.table
                data := update s.data target (some (post (bitOf sig) info p)) })

/-- Clears the bit and takes the first entry off the queue. -/
def discard (i : Bit) (p : SignalStruct) : SignalStruct :=
  { p with pending := sigdelset p.pending i,
           queues := if RealTime i then update p.queues i (p.queues i).tail else p.queues }

def frameInfo (pid : Nat) (i : Bit) : SigInfo := { SigInfo.zero with signo := BitVec.ofInt 32 i.signo, pid := BitVec.ofNat 32 pid }

def signalSetupFrame (pid : Nat) (i : Bit) (p : SignalStruct) : SignalStruct :=
  let act := p.actions i
  { p with frames := p.frames ++ [{ handler := act.handler, sig := i, sigmask := p.blocked
                                    info := if act.flags &&& saSigInfo ≠ 0 then some (frameInfo pid i) else none }] }

/-- A signal with a handler of its own: the `siginfo` of the entry is not used. -/
def deliver (pid : Nat) (i : Bit) (p : SignalStruct) : SignalStruct :=
  let act := p.actions i
  let masked := p.blocked ||| act.mask
  let blocked := if act.flags &&& saNoDefer = 0 then sigaddset masked i else masked
  signalSetupFrame pid i { discard i p with blocked := sigdelset (sigdelset blocked sigKillBit) sigStopBit }

/-- The loop of `signal_do_pending`, which ends with the first signal that has a handler of its own. -/
def doPendingLoop (pid : Nat) : List Bit → Table × SignalStruct → Table × SignalStruct
  | [], s => s
  | i :: rest, (t,p) =>
    if sigismember p.pending i = false then doPendingLoop pid rest (t,p)
    else if sigismember p.blocked i then doPendingLoop pid rest (t,p)
    else if (p.actions i).handler = 1 then doPendingLoop pid rest (t,discard i p)
    else if (p.actions i).handler = 0 then doPendingLoop pid rest (signalDefault i.signo t,discard i p)
    else (t,deliver pid i p)

def signalDoPending (s : State) : State :=
  match s.data s.table.current with
  | none => s
  | some p =>
    let out := doPendingLoop s.table.current (List.finRange 64) (s.table,p)
    { table := out.1, data := update s.data s.table.current (some out.2) }

/-- The mask that `signal_sigprocmask` sets; none if `how` is not known. -/
def changeMask (how : Int) (set blocked : BitVec 64) : Option (BitVec 64) :=
  if how = 0 then some (blocked ||| set)
  else if how = 1 then some (blocked &&& ~~~ set)
  else if how = 2 then some set
  else none

def signalSigprocmask (how : Int) (set : Option (BitVec 64)) (s : State) : Int × State :=
  match s.data s.table.current with
  | none => (-1,s)
  | some p =>
    match set with
    | none => (0,s)
    | some set =>
      match changeMask how set p.blocked with
      | none => (-1,s)
      | some blocked =>
        (0,{ s with data := update s.data s.table.current
                      (some { p with blocked := sigdelset (sigdelset blocked sigKillBit) sigStopBit }) })

/-- `memory` is what `kzalloc` returns for the queue entry, and `schedule` is whatever else happens to the process table. -/
inductive Request where
  | send (target : Nat) (sig : Int) (info : Option SigInfo) (memory : Grant)
  | doPending
  | sigprocmask (how : Int) (set : Option (BitVec 64))
  | schedule (table : Table)

def next (s : State) : Request → State
  | .send target sig info memory => (signalSend target sig info memory.found s).2
  | .doPending => signalDoPending s
  | .sigprocmask how set => (signalSigprocmask how set s).2
  | .schedule table => { s with table }

/-- Where the queue entry overlaps other memory, the queues are no longer what was queued and the model ends. -/
def step (s : State) (request : Request) : Option State :=
  match request with
  | .send _ _ _ .overlapping => none
  | _ => some (next s request)

def start (table : Table) (actions : Nat → Option (Bit → SigAction)) : State := ⟨table,fun pid => (actions pid).map signalCreate⟩

/-- A real-time signal with a handler of its own. -/
def Handled (p : SignalStruct) (i : Bit) : Prop := RealTime i ∧ (p.actions i).handler ≠ 0 ∧ (p.actions i).handler ≠ 1

/-- What the handler of a signal sees of a `siginfo`. -/
def seen (p : SignalStruct) (i : Bit) (info : SigInfo) : Option SigInfo :=
  if (p.actions i).flags &&& saSigInfo ≠ 0 then some info else none

/-- What the handler of a signal was entered with, in order. -/
def delivered (p : SignalStruct) (i : Bit) : List (Option SigInfo) := (p.frames.filter (fun frame => frame.sig = i)).map Frame.info

/-- `signal_send` does not return before it comes to the signal data. -/
def Posts (s : State) (target : Nat) (sig : Int) (memory : Bool) : Prop :=
  1 ≤ sig ∧ sig ≤ sigMax ∧ target < processMax ∧ s.table.state target ≠ .dead ∧ sig ≠ sigKill ∧ (sig ≥ sigRtMin → memory = true)

instance (s : State) (target : Nat) (sig : Int) (memory : Bool) : Decidable (Posts s target sig memory) :=
  inferInstanceAs (Decidable (_ ∧ _))

/-- The queue entries have memory of their own, and a real-time signal is sent to a process that has a handler
    for it only while none is queued, and with the `siginfo` that its handler will see. -/
def Meets (s : State) : Request → Prop
  | .send target sig info memory => memory ≠ .overlapping ∧
      (Posts s target sig memory.found → ∀ p ∈ s.data target, Handled p (bitOf sig) → p.queues (bitOf sig) = [] ∧
        seen p (bitOf sig) (entryInfo (bitOf sig) info) = seen p (bitOf sig) (frameInfo target (bitOf sig)))
  | _ => True

/-- The sends of each real-time signal with a handler are those that were delivered and those that are queued. -/
def Sound (s : State) : Prop :=
  ∀ pid, ∀ p ∈ s.data pid, ∀ i, Handled p i → delivered p i ++ (p.queues i).map (seen p i) = (p.sent i).map (seen p i)

/-- The calls of `signal_do_pending` in a process during a run that find the signal not blocked. -/
def calls (pid : Nat) (i : Bit) : State → List Request → Nat
  | _, [] => 0
  | s, request :: rest =>
    (match request with
      | .doPending => if s.table.current = pid ∧ ∃ p ∈ s.data pid, sigismember p.blocked i = false then 1 else 0
      | _ => 0) + calls pid i (next s request) rest

def sends (pid : Nat) (requests : List Request) : Nat :=
  requests.countP (fun request => match request with
    | .send target _ _ _ => target = pid
    | _ => false)

@[simp] theorem sigismember_sigaddset (set : BitVec 64) (i j : Bit) :
    sigismember (sigaddset set i) j = (sigismember set j || decide (j = i)) := by
  simp [sigismember,sigaddset,Fin.ext_iff]

@[simp] theorem sigismember_sigdelset (set : BitVec 64) (i j : Bit) :
    sigismember (sigdelset set i) j = (sigismember set j && decide (j ≠ i)) := by
  simp [sigismember,sigdelset,Fin.ext_iff]

/-- The bit and the queue of a real-time signal agree, and it is delivered as sent. -/
structure Good (pid : Nat) (p : SignalStruct) (i : Bit) : Prop where
  order : delivered p i ++ (p.queues i).map (seen p i) = (p.sent i).map (seen p i)
  bit : sigismember p.pending i = true ↔ p.queues i ≠ []
  short : (p.queues i).length ≤ 1
  infos : ∀ info ∈ p.queues i, seen p i info = seen p i (frameInfo pid i)

def Inv (pid : Nat) (p : SignalStruct) : Prop := ∀ i, Handled p i → Good pid p i

variable {pid : Nat} {p q : SignalStruct} {i j : Bit}

private theorem signalCreate_inv (actions : Bit → SigAction) : Inv pid (signalCreate actions) :=
  fun i _ => ⟨rfl,by simp [signalCreate,sigismember],Nat.zero_le _,nofun⟩

theorem Good.of_same (good : Good pid p j) (actions : q.actions = p.actions) (queue : q.queues j = p.queues j)
    (bit : sigismember q.pending j = sigismember p.pending j) (sent : q.sent j = p.sent j)
    (frames : delivered q j = delivered p j) : Good pid q j := by
  have same : seen q j = seen p j := by
    funext info
    rw [seen,seen,actions]
  refine ⟨?_,?_,?_,?_⟩
  · rw [same,queue,sent,frames]
    exact good.order
  · rw [queue,bit]
    exact good.bit
  · rw [queue]
    exact good.short
  · rw [queue,same]
    exact good.infos

private theorem delivered_append {frame : Frame} (frames : q.frames = p.frames ++ [frame]) (i : Bit) :
    delivered q i = delivered p i ++ if frame.sig = i then [frame.info] else [] := by
  rw [delivered,frames,List.filter_append]
  by_cases same : frame.sig = i
  · simp [same,delivered]
  · simp [same,delivered]

theorem Inv.post (inv : Inv pid p) (i : Bit) (info : Option SigInfo)
    (meets : Handled p i → p.queues i = [] ∧ seen p i (entryInfo i info) = seen p i (frameInfo pid i)) :
    Inv pid (post i info p) := by
  rw [Signals.post]
  split
  case isFalse ordinary =>
    intro j handled
    have other : j ≠ i := by rintro rfl; exact ordinary handled.1
    exact (inv j handled).of_same rfl rfl (by simp [other]) rfl rfl
  case isTrue realTime =>
    split
    case isTrue room =>
      intro j handled
      rcases eq_or_ne j i with rfl | other
      · obtain ⟨empty,same⟩ := meets handled
        have order := (inv j handled).order
        rw [empty] at order
        refine ⟨?_,?_,?_,?_⟩
        · show delivered p j ++ (update p.queues j _ j).map (seen p j) = (update p.sent j _ j).map (seen p j)
          rw [update_self,update_self,empty,List.map_append,List.map_append,←order,List.append_assoc]
        · simp
        · simp [empty]
        · intro x member
          simp only [update_self,empty,List.nil_append,List.mem_singleton] at member
          rw [member]
          exact same
      · exact (inv j handled).of_same rfl (update_of_ne other ..) (by simp [other]) (update_of_ne other ..) rfl
    case isFalse full =>
      intro j handled
      rcases eq_or_ne j i with rfl | other
      · rw [(meets handled).1] at full
        exact absurd (by decide) full
      · exact (inv j handled).of_same rfl rfl rfl (update_of_ne other ..) rfl

private theorem discard_queues (other : j ≠ i) : (discard i p).queues j = p.queues j := by
  dsimp only [discard]
  split
  · exact update_of_ne other ..
  · rfl

theorem Inv.discard (inv : Inv pid p) (ignored : ¬ Handled p i) : Inv pid (discard i p) := by
  intro j handled
  have other : j ≠ i := by rintro rfl; exact ignored handled
  exact (inv j handled).of_same rfl (discard_queues other) (by simp [Signals.discard,other]) rfl rfl

theorem Inv.deliver (inv : Inv pid p) (pending : sigismember p.pending i) : Inv pid (deliver pid i p) := by
  intro j handled
  have good := inv j handled
  rcases eq_or_ne j i with rfl | other
  · obtain ⟨info,only⟩ : ∃ info, p.queues j = [info] :=
      List.length_eq_one_iff.mp (Nat.le_antisymm good.short (List.length_pos_iff.mpr (good.bit.mp pending)))
    have emptied : (Signals.deliver pid j p).queues j = [] := by
      show (if RealTime j then update p.queues j (p.queues j).tail else p.queues) j = []
      rw [if_pos handled.1,update_self,only]
      rfl
    have order := good.order
    have same := good.infos info (by simp [only])
    have frame : delivered (Signals.deliver pid j p) j = delivered p j ++ [seen p j (frameInfo pid j)] := by
      rw [delivered_append rfl j]
      exact congrArg (delivered p j ++ ·) (if_pos rfl)
    refine ⟨?_,?_,?_,?_⟩
    · rw [only,List.map_singleton,same] at order
      rw [emptied,frame,List.map_nil,List.append_nil]
      exact order
    · rw [emptied]
      simp [Signals.deliver,signalSetupFrame,Signals.discard]
    · rw [emptied]
      exact Nat.zero_le 1
    · rw [emptied]
      nofun
  · refine good.of_same rfl (discard_queues other) (by simp [Signals.deliver,signalSetupFrame,Signals.discard,other]) rfl ?_
    rw [delivered_append rfl j]
    exact (congrArg (delivered p j ++ ·) (if_neg other.symm)).trans (List.append_nil _)

/-- The rule for the loop: what is kept when a signal that is not handled is dropped and when one that is pending
    is delivered is kept by the whole of it. -/
theorem loop_keeps {motive : SignalStruct → Prop} (dropped : ∀ p i, ¬ Handled p i → motive p → motive (discard i p))
    (handed : ∀ p i, sigismember p.pending i → motive p → motive (deliver pid i p)) (signals : List Bit)
    (holds : motive p) : motive (doPendingLoop pid signals (t,p)).2 := by
  induction signals generalizing t p with
  | nil => exact holds
  | cons i rest ih =>
    rw [doPendingLoop]
    split
    case isTrue => exact ih holds
    case isFalse pending =>
      split
      case isTrue => exact ih holds
      case isFalse =>
        split
        case isTrue ignored => exact ih (dropped p i (fun handled => handled.2.2 ignored) holds)
        case isFalse =>
          split
          case isTrue default => exact ih (dropped p i (fun handled => handled.2.1 default) holds)
          case isFalse => exact handed p i (Bool.not_eq_false _ ▸ pending) holds

theorem Inv.loop (signals : List Bit) {t : Table} : Inv pid p → Inv pid (doPendingLoop pid signals (t,p)).2 :=
  loop_keeps (fun _ _ ignored inv => inv.discard ignored) (fun _ _ pending inv => inv.deliver pending) signals

/-- What a step can do to the signal data of a process. -/
inductive Moves (s : State) (pid : Nat) (p : SignalStruct) : Request → SignalStruct → Prop where
  | stay (request : Request) (other : request = .doPending → s.table.current ≠ pid) : Moves s pid p request p
  | post (sig : Int) (info : Option SigInfo) (memory : Grant) (posts : Posts s pid sig memory.found) :
      Moves s pid p (.send pid sig info memory) (post (bitOf sig) info p)
  | doPending (current : s.table.current = pid) :
      Moves s pid p .doPending (doPendingLoop pid (List.finRange 64) (s.table,p)).2
  | mask (how : Int) (set : Option (BitVec 64)) (blocked : BitVec 64) : Moves s pid p (.sigprocmask how set) { p with blocked }

variable {s : State}

variable (request : Request)

theorem next_cases (s : State) : (next s request).data = s.data ∧ (request = .doPending → s.data s.table.current = none) ∨
    ∃ k p q, s.data k = some p ∧ (next s request).data = update s.data k (some q) ∧ Moves s k p request q ∧
      (request = .doPending → s.table.current = k) := by
  cases request with
  | send target sig info memory =>
    rw [next,signalSend]
    split
    · exact .inl ⟨rfl,nofun⟩
    split
    · exact .inl ⟨rfl,nofun⟩
    split
    · exact .inl ⟨rfl,nofun⟩
    split
    · exact .inl ⟨rfl,nofun⟩
    case _ range inside alive kill =>
      cases here : s.data target with
      | none => exact .inl ⟨rfl,nofun⟩
      | some p =>
        dsimp only
        split
        · exact .inl ⟨rfl,nofun⟩
        case isFalse room =>
          have posts : Posts s target sig memory.found := ⟨by omega,by omega,by omega,alive,kill,by simpa using room⟩
          exact .inr ⟨target,p,_,here,rfl,.post sig info memory posts,nofun⟩
  | doPending =>
    rw [next,signalDoPending]
    cases here : s.data s.table.current with
    | none => exact .inl ⟨rfl,fun _ => rfl⟩
    | some p => exact .inr ⟨_,p,_,here,rfl,.doPending rfl,fun _ => rfl⟩
  | sigprocmask how set =>
    rw [next,signalSigprocmask]
    cases here : s.data s.table.current with
    | none => exact .inl ⟨rfl,nofun⟩
    | some p =>
      dsimp only
      repeat' split
      · exact .inl ⟨rfl,nofun⟩
      · exact .inl ⟨rfl,nofun⟩
      · exact .inr ⟨_,p,_,here,rfl,.mask how _ _,nofun⟩
  | schedule table => exact .inl ⟨rfl,nofun⟩

theorem next_moves (here : s.data pid = some p) :
    ∃ q, (next s request).data pid = some q ∧ Moves s pid p request q := by
  rcases next_cases request s with ⟨same,idle⟩ | ⟨k,r,q,there,changed,moves,current⟩
  · refine ⟨p,by rw [same,here],.stay _ (fun call is => ?_)⟩
    cases here.symm.trans (is ▸ idle call)
  · rw [changed]
    by_cases mine : pid = k
    · subst mine
      cases here.symm.trans there
      exact ⟨q,update_self ..,moves⟩
    · exact ⟨p,(update_of_ne mine ..).trans here,.stay _ (fun call is => mine (is.symm.trans (current call)))⟩

theorem Moves.inv {request : Request} (moves : Moves s pid p request q) (here : s.data pid = some p) (inv : Inv pid p)
    (meets : Meets s request) : Inv pid q := by
  cases moves with
  | stay => exact inv
  | post sig info memory posts => exact inv.post (bitOf sig) info (meets.2 posts p here)
  | doPending => exact Inv.loop (List.finRange 64) inv
  | mask how set blocked => exact fun i handled => (inv i handled).of_same rfl rfl rfl rfl rfl

private theorem step_meets {request : Request} (meets : Meets s request) : step s request = some (next s request) := by
  unfold step
  split
  · exact absurd rfl meets.1
  · rfl

def Whole (s : State) : Prop := ∀ pid p, s.data pid = some p → Inv pid p

theorem whole_step (whole : Whole s) (meets : Meets s request) : Whole (next s request) := by
  intro pid
  rcases next_cases request s with ⟨same,_⟩ | ⟨k,p,q,here,changed,moves,_⟩
  · rw [same]
    exact whole pid
  · rw [changed]
    cases pid using update_cases with
    | here => rintro _ ⟨⟩; exact moves.inv here (whole _ p here) meets
    | others pid other => exact whole pid

/-- The signals before this one that are pending. -/
def lower (p : SignalStruct) (j : Bit) : Finset Bit := Finset.univ.filter (fun i => i < j ∧ sigismember p.pending i = true)

/-- How a signal's history grows. -/
structure Grows (p q : SignalStruct) (j : Bit) : Prop where
  actions : q.actions = p.actions
  delivered : delivered p j <+: delivered q j
  sent : p.sent j <+: q.sent j

theorem Grows.refl (p : SignalStruct) (j : Bit) : Grows p p j := ⟨rfl,List.prefix_rfl,List.prefix_rfl⟩

theorem Grows.trans {r : SignalStruct} (first : Grows p q j) (second : Grows q r j) : Grows p r j :=
  ⟨second.actions.trans first.actions,first.delivered.trans second.delivered,first.sent.trans second.sent⟩

private theorem post_grows (info : Option SigInfo) : Grows p (post i info p) j := by
  rw [post]
  split
  · split
    · exact ⟨rfl,List.prefix_rfl,prefix_update ..⟩
    · exact ⟨rfl,List.prefix_rfl,prefix_update ..⟩
  · exact ⟨rfl,List.prefix_rfl,List.prefix_rfl⟩

private theorem deliver_grows : Grows p (deliver pid i p) j := by
  refine ⟨rfl,?_,List.prefix_rfl⟩
  rw [@delivered_append p (deliver pid i p) _ rfl j]
  exact List.prefix_append ..

private theorem loop_grows (signals : List Bit) {t : Table} : Grows p (doPendingLoop pid signals (t,p)).2 j :=
  loop_keeps (motive := (Grows p · j)) (fun _ _ _ grows => grows.trans ⟨rfl,List.prefix_rfl,List.prefix_rfl⟩)
    (fun _ _ _ grows => grows.trans deliver_grows) signals (.refl p j)

theorem Moves.grows {request : Request} (moves : Moves s pid p request q) : Grows p q j := by
  cases moves with
  | stay => exact .refl p j
  | post sig info memory posts => exact post_grows info
  | doPending => exact loop_grows (List.finRange 64)
  | mask how set blocked => exact ⟨rfl,List.prefix_rfl,List.prefix_rfl⟩

private theorem lower_subset (fewer : ∀ k, sigismember q.pending k → sigismember p.pending k) : lower q j ⊆ lower p j := by
  intro k member
  obtain ⟨_,before,pending⟩ := Finset.mem_filter.mp member
  exact Finset.mem_filter.mpr ⟨Finset.mem_univ k,before,fewer k pending⟩

private theorem discard_fewer (k : Bit) (pending : sigismember (discard i p).pending k) : sigismember p.pending k := by
  simp only [discard,sigismember_sigdelset,Bool.and_eq_true] at pending
  exact pending.1

theorem loop_fewer (signals : List Bit) {t : Table} :
    ∀ k, sigismember (doPendingLoop pid signals (t,p)).2.pending k → sigismember p.pending k :=
  loop_keeps (motive := fun q => ∀ k, sigismember q.pending k → sigismember p.pending k) (fun _ _ _ fewer k pending => fewer k (discard_fewer k pending))
    (fun _ _ _ fewer k pending => fewer k (discard_fewer k pending)) signals (fun _ => id)

theorem lower_discard (pending : sigismember p.pending i) (before : i < j) : (lower (discard i p) j).card < (lower p j).card := by
  refine Finset.card_lt_card (Finset.ssubset_iff_of_subset (lower_subset discard_fewer) |>.mpr ⟨i,?_,?_⟩)
  · exact Finset.mem_filter.mpr ⟨Finset.mem_univ i,before,pending⟩
  · simp [lower,discard]

/-- A call that finds the signal pending and not blocked delivers it, or one before it. -/
theorem loop_progress (signals : List Bit) (sorted : signals.Pairwise (· < ·)) (handled : Handled p j)
    (pending : sigismember p.pending j) (unblocked : sigismember p.blocked j = false) (member : j ∈ signals) :
    sigismember (doPendingLoop pid signals (t,p)).2.pending j = false ∨
      (lower (doPendingLoop pid signals (t,p)).2 j).card < (lower p j).card := by
  induction signals generalizing t p with
  | nil => cases member
  | cons i rest ih =>
    obtain ⟨first,tail⟩ := List.pairwise_cons.mp sorted
    rw [doPendingLoop]
    rcases List.mem_cons.mp member with rfl | later
    · rw [if_neg (by simp [pending]),if_neg (by simp [unblocked]),if_neg handled.2.2,if_neg handled.2.1]
      simp [deliver,signalSetupFrame,discard]
    · have before := first j later
      split
      case isTrue => exact ih tail handled pending unblocked later
      case isFalse here =>
        have taken := @lower_discard p i j (by simpa using here) before
        split
        case isTrue => exact ih tail handled pending unblocked later
        case isFalse =>
          split
          case isTrue => exact .inr (Nat.lt_of_le_of_lt (Finset.card_le_card (lower_subset (loop_fewer rest))) taken)
          case isFalse =>
            split
            case isTrue => exact .inr (Nat.lt_of_le_of_lt (Finset.card_le_card (lower_subset (loop_fewer rest))) taken)
            case isFalse => exact .inr taken

theorem Good.all_delivered (good : Good pid q j) (grows : Grows p q j) (idle : sigismember q.pending j = false) :
    (p.sent j).map (seen q j) <+: delivered q j := by
  have empty : q.queues j = [] := by
    by_contra some
    rw [good.bit.mpr some] at idle
    cases idle
  have order := good.order
  rw [empty,List.map_nil,List.append_nil] at order
  rw [order]
  exact grows.sent.map _

/-- One for a call that finds the signal not blocked. -/
def call (pid : Nat) (j : Bit) (s : State) (request : Request) : Nat := calls pid j s [request]

private theorem calls_cons (rest : List Request) :
    calls pid j s (request :: rest) = call pid j s request + calls pid j (next s request) rest := rfl

private theorem sends_cons (rest : List Request) :
    sends pid (request :: rest) = sends pid [request] + sends pid rest := by
  rw [sends,←List.singleton_append,List.countP_append]
  rfl

private theorem post_pending (info : Option SigInfo) {k : Bit} (pending : sigismember (post i info p).pending k) :
    k = i ∨ sigismember p.pending k := by
  rw [post] at pending
  repeat' split at pending
  · simpa [or_comm] using pending
  · exact .inr pending
  · simpa [or_comm] using pending

theorem post_lower (info : Option SigInfo) : (lower (post i info p) j).card ≤ (lower p j).card + 1 := by
  refine (Finset.card_le_card (t := insert i (lower p j)) (fun k member => ?_)).trans (Finset.card_insert_le i _)
  obtain ⟨_,before,pending⟩ := Finset.mem_filter.mp member
  rw [Finset.mem_insert]
  exact (post_pending info pending).imp_right (fun old => Finset.mem_filter.mpr ⟨Finset.mem_univ k,before,old⟩)

private theorem call_of_ne {request : Request} (other : request = .doPending → s.table.current ≠ pid) : call pid j s request = 0 := by
  cases request with
  | doPending => simp [call,calls,other rfl]
  | _ => rfl

private theorem call_le : call pid j s request ≤ 1 := by
  cases request with
  | doPending =>
    simp only [call,calls]
    split <;> omega
  | _ => exact Nat.zero_le 1

theorem Grows.seen (grows : Grows p q j) : seen q j = seen p j := by
  funext info
  rw [Signals.seen,Signals.seen,grows.actions]

/-- Each call settles what was sent or a signal before it; each send adds at most one such signal. -/
theorem Moves.progress {request : Request} (moves : Moves s pid p request q) (here : s.data pid = some p) (handled : Handled p j)
    (before : Good pid p j) (after : Good pid q j) :
    (p.sent j).map (seen q j) <+: delivered q j ∨
      call pid j s request + (lower q j).card ≤ (lower p j).card + sends pid [request] := by
  have grows : Grows p q j := moves.grows
  cases moves with
  | stay _ other =>
    rw [call_of_ne other]
    exact .inr (by omega)
  | post sig info memory posts =>
    have added := @post_lower p (bitOf sig) j info
    have one : sends pid [.send pid sig info memory] = 1 := by simp [sends]
    have none : call pid j s (.send pid sig info memory) = 0 := rfl
    exact .inr (by omega)
  | mask how set blocked =>
    have none : call pid j s (.sigprocmask how set) = 0 := rfl
    rw [none,Nat.zero_add]
    exact .inr (Nat.le_add_right ..)
  | doPending current =>
    cases pending : sigismember p.pending j with
    | false =>
      refine .inl ?_
      rw [grows.seen]
      exact (before.all_delivered (.refl p j) pending).trans grows.delivered
    | true =>
      cases blocked : sigismember p.blocked j with
      | true =>
        have none : call pid j s .doPending = 0 := by simp [call,calls,here,blocked]
        have fewer := Finset.card_le_card (@lower_subset p _ j (@loop_fewer pid p (List.finRange 64) s.table))
        exact .inr (by omega)
      | false =>
        have most := @call_le pid j s .doPending
        have sorted : (List.finRange 64).Pairwise (· < ·) := List.pairwise_lt_finRange 64
        rcases loop_progress (List.finRange 64) sorted handled pending blocked (List.mem_finRange j) with gone | fewer
        · exact .inl (after.all_delivered grows gone)
        · exact .inr (by omega)

/-- A run delivers what was sent before it, or its calls of `signal_do_pending` went to signals before this one. -/
theorem run_progress (pid : Nat) (j : Bit) (requests : List Request) (s : State) (p : SignalStruct) (here : s.data pid = some p)
    (handled : Handled p j) (whole : Whole s) (guarded : Guarded step Meets s requests) :
    ∃ t q, run step s requests = some t ∧ Whole t ∧ t.data pid = some q ∧
      Grows p q j ∧ ((p.sent j).map (seen q j) <+: delivered q j ∨
        calls pid j s requests + (lower q j).card ≤ (lower p j).card + sends pid requests) := by
  induction requests generalizing s p with
  | nil => exact ⟨s,p,rfl,whole,here,.refl p j,.inr (by simp [calls])⟩
  | cons request rest ih =>
    obtain ⟨u,there,moves⟩ := next_moves request here
    have kept := whole_step request whole guarded.1
    have first : Grows p u j := moves.grows
    have still : Handled u j := by
      rw [Handled,first.actions]
      exact handled
    obtain ⟨t,q,ran,final,is,second,more⟩ := ih (next s request) u there still kept (guarded.2 _ (step_meets guarded.1))
    have one := moves.progress here handled (whole pid p here j handled) (kept pid u there j still)
    refine ⟨t,q,by rw [run_cons,step_meets guarded.1]; exact ran,final,is,first.trans second,?_⟩
    rw [calls_cons,sends_cons]
    rcases one with done | one
    · refine .inl ?_
      rw [second.seen]
      exact done.trans second.delivered
    rcases more with done | more
    · exact .inl ((first.sent.map _).trans done)
    · exact .inr (by omega)

private theorem start_whole (table : Table) (actions : Nat → Option (Bit → SigAction)) : Whole (start table actions) := by
  intro pid p here
  obtain ⟨installed,_,rfl⟩ := Option.map_eq_some_iff.mp here
  exact signalCreate_inv installed

theorem Whole.sound (whole : Whole s) : Sound s := fun pid p here i handled => (whole pid p here i handled).order

instance (p : SignalStruct) (i : Bit) : Decidable (Handled p i) := inferInstanceAs (Decidable (_ ∧ _))

instance (s : State) : ∀ request, Decidable (Meets s request)
  | .send .. => inferInstanceAs (Decidable (_ ∧ (Posts .. → _)))
  | .doPending | .sigprocmask .. | .schedule _ => .isTrue trivial

def running : Table := { processInit with state := fun _ => .running, current := 1 }

def handlers (pid : Nat) : Option (Bit → SigAction) :=
  if pid = 1 then some (fun _ => ⟨4096,0,saSigInfo ||| saNoDefer⟩) else none

def toItself : Request := .send 1 40 (some { SigInfo.zero with pid := 1 }) .apart

def someRun : List Request := [.sigprocmask 0 (some (BitVec.allOnes 64)),toItself,.send 1 10 none .apart,.doPending,.sigprocmask 2 (some 0)]

structure Summary where
  sent : Nat
  delivered : List (Option SigInfo)
  queued : Nat
  pending : Bool
  deriving DecidableEq

def summary (requests : List Request) : Option Summary :=
  (run step (start running handlers) requests).bind (fun s =>
    (s.data 1).map (fun p => ⟨(p.sent 39).length,delivered p 39,(p.queues 39).length,sigismember p.pending 39⟩))

/-- `signal_sigaction` on the signal data of the process. -/
def signalSigaction (sig : Int) (act : Option SigAction) (p : SignalStruct) : Int × SignalStruct :=
  if sig < 1 ∨ sig > sigMax then (-1,p)
  else if sig = sigKill ∨ sig = sigStop then (-1,p)
  else
    match act with
    | none => (0,p)
    | some act => (0,{ p with actions := update p.actions (bitOf sig) act })

/-- What a process calls, and what happens to its signal data. `signal_sigsuspend` is two steps, up to
    `process_yield` and from there on. -/
inductive Call where
  | post (i : Bit) (info : Option SigInfo)
  | doPending (pid : Nat) (table : Table)
  | sigaction (sig : Int) (act : Option SigAction)
  | sigprocmask (how : Int) (set : BitVec 64)
  | suspend (mask : BitVec 64)
  | resume

/-- The signal data, with the masks that calls of `signal_sigsuspend` will restore. -/
def serve : SignalStruct × List (BitVec 64) → Call → Option (SignalStruct × List (BitVec 64))
  | (p,saved), .post i info => some (post i info p,saved)
  | (p,saved), .doPending pid table => some ((doPendingLoop pid (List.finRange 64) (table,p)).2,saved)
  | (p,saved), .sigaction sig act => some ((signalSigaction sig act p).2,saved)
  | (p,saved), .sigprocmask how set =>
    match changeMask how set p.blocked with
    | none => some (p,saved)
    | some blocked => some ({ p with blocked := sigdelset (sigdelset blocked sigKillBit) sigStopBit },saved)
  | (p,saved), .suspend mask =>
    some ({ p with blocked := sigdelset (sigdelset mask sigKillBit) sigStopBit },p.blocked :: saved)
  | (p,old :: saved), .resume => some ({ p with blocked := old },saved)
  | (p,[]), .resume => some (p,[])

def Unmasked (set : BitVec 64) : Prop := sigismember set sigKillBit = false ∧ sigismember set sigStopBit = false

/-- Neither signal is blocked, and both have the default action. -/
def Unmaskable (p : SignalStruct) : Prop := Unmasked p.blocked ∧ (p.actions sigKillBit).handler = 0 ∧ (p.actions sigStopBit).handler = 0

private theorem unmasked_sigdelset (set : BitVec 64) : Unmasked (sigdelset (sigdelset set sigKillBit) sigStopBit) := by
  simp [Unmasked]

private theorem loop_unmaskable (signals : List Bit) {t : Table} : Unmaskable p → Unmaskable (doPendingLoop pid signals (t,p)).2 :=
  loop_keeps (fun _ _ _ safe => safe) (fun _ _ _ safe => ⟨unmasked_sigdelset _,safe.2⟩) signals

theorem sigaction_unmaskable (sig : Int) (act : Option SigAction) (safe : Unmaskable p) : Unmaskable (signalSigaction sig act p).2 := by
  unfold signalSigaction
  split
  · exact safe
  split
  · exact safe
  case _ range other =>
    have differs : sigKillBit ≠ bitOf sig ∧ sigStopBit ≠ bitOf sig := by
      simp only [sigKill,sigStop,sigMax,sigKillBit,sigStopBit,bitOf,ne_eq,Fin.ext_iff,Fin.val_ofNat] at range other ⊢
      omega
    cases act with
    | none => exact safe
    | some act => simpa [Unmaskable,update_of_ne differs.1,update_of_ne differs.2] using safe

theorem serve_unmaskable (s : SignalStruct × List (BitVec 64)) (call : Call)
    (safe : Unmaskable s.1 ∧ ∀ old ∈ s.2, Unmasked old) : ∃ t, serve s call = some t ∧ Unmaskable t.1 ∧ ∀ old ∈ t.2, Unmasked old := by
  obtain ⟨p,saved⟩ := s
  obtain ⟨safe,all⟩ := safe
  cases call with
  | post i info =>
    refine ⟨_,rfl,?_,all⟩
    rw [post]
    repeat' split
    all_goals exact safe
  | doPending pid table => exact ⟨_,rfl,loop_unmaskable _ safe,all⟩
  | sigaction sig act => exact ⟨_,rfl,sigaction_unmaskable sig act safe,all⟩
  | sigprocmask how set =>
    rw [serve]
    split
    · exact ⟨_,rfl,safe,all⟩
    · exact ⟨_,rfl,⟨unmasked_sigdelset _,safe.2⟩,all⟩
  | suspend mask => exact ⟨_,rfl,⟨unmasked_sigdelset mask,safe.2⟩,List.forall_mem_cons.mpr ⟨safe.1,all⟩⟩
  | resume =>
    cases saved with
    | nil => exact ⟨_,rfl,safe,all⟩
    | cons old saved =>
      rw [List.forall_mem_cons] at all
      exact ⟨_,rfl,⟨all.1,safe.2⟩,all.2⟩

/-- Whatever sets, actions and signals the calls are given, signals 9 and 19 are never blocked and never have a
    handler of their own, also while a `signal_sigsuspend` is waiting. -/
theorem unmaskable_run (calls : List Call) :
    ∃ t, run serve (signalCreate (fun _ => ⟨0,0,0⟩),[]) calls = some t ∧ Unmaskable t.1 := by
  have first : Unmaskable (signalCreate (fun _ => ⟨0,0,0⟩)) := ⟨⟨rfl,rfl⟩,rfl,rfl⟩
  obtain ⟨t,ran,safe,_⟩ := run_always serve_unmaskable calls (_,[]) ⟨first,nofun⟩
  exact ⟨t,ran,safe⟩

end Kenux.Signals
