import Kenux.Scheduler
import Kenux.TimerWheel
import Kenux.WaitQueue
import Mathlib.Data.Fintype.Card

/-!
The calls of `wait.c` on any number of wait queues, by any number of processes, each of
which may come back from `process_yield` at any time. `wait_queue_wait` leaves its node, which
lies on the stack, to the process that wakes it; a process that a signal or `process_wakeup`
made ready returns with its node still in the queue (`wait_queue_wait_dangles`).
`wait_run_inside`: in every run where a process leaves `wait_queue_wait` only once its node is
unlinked, each queue is a finite doubly linked list of nodes of processes that wait on it.
-/
namespace Kenux.WaitRuns
open Kenux.Runs
open Function (update update_self update_of_ne)

open Scheduler (ProcState)
open WaitQueue (Queue wqAdd wqRemove wqLinked scan)
open Links (Linked Family)

/-- Where a process is: outside, in the `process_yield` of `wait_queue_wait`, or in
    `wait_queue_wait_timeout` before the test of its loop, in its `process_yield`, behind its
    deadline before the node is unlinked, or behind the loop before that. -/
inductive Call (Key : Type*) where
  | outside
  | waits (k : Key)
  | loopTest (k : Key) (deadline : Option (BitVec 64))
  | loopYield (k : Key) (deadline : Option (BitVec 64))
  | late (k : Key)
  | leaving (k : Key)
  deriving DecidableEq, Repr

/-- The queue that the process waits on. -/
def Call.on {Key : Type*} : Call Key → Option Key
  | .outside => none
  | .waits k => some k
  | .loopTest k _ => some k
  | .loopYield k _ => some k
  | .late k => some k
  | .leaving k => some k

/-- The queues, the links of the nodes, the processes, what their last
    `wait_queue_wait_timeout` returned, and the time. -/
structure State (n : Nat) (Key : Type*) where
  head : Key → Option (Fin n)
  tail : Key → Option (Fin n)
  next : Fin n → Option (Fin n)
  prev : Fin n → Option (Fin n)
  procState : Fin n → ProcState
  call : Fin n → Call Key
  returned : Fin n → Int
  jiffies : BitVec 64

section
variable {n : Nat} {Key : Type*}

def start : State n Key where
  head := fun _ => none
  tail := fun _ => none
  next := fun _ => none
  prev := fun _ => none
  procState := fun _ => .running
  call := fun _ => .outside
  returned := fun _ => 0
  jiffies := 0

def State.queue (s : State n Key) (k : Key) : Queue (Fin n) := ⟨s.head k,s.tail k,s.next,s.prev⟩

variable [DecidableEq Key]

variable (s : State n Key)

def State.setQueue (k : Key) (q : Queue (Fin n)) : State n Key :=
  { s with
    head := update s.head k q.head
    tail := update s.tail k q.tail
    next := q.next
    prev := q.prev }

def State.setCall (p : Fin n) (c : Call Key) : State n Key := { s with call := update s.call p c }

def State.setState (p : Fin n) (x : ProcState) : State n Key :=
  { s with procState := update s.procState p x }

/-- The section of a wait call that queues its node. -/
def enqueue (p : Fin n) (k : Key) (s : State n Key) : State n Key :=
  (s.setQueue k (wqAdd (s.queue k) p)).setState p .waiting

def waitQueueWait (p : Fin n) (k : Key) (s : State n Key) : State n Key := (enqueue p k s).setCall p (.waits k)

def waitQueueWaitTimeout (p : Fin n) (k : Key) (ms : BitVec 64) (s : State n Key) : State n Key :=
  let deadline := if ms > 0 then some (s.jiffies + TimerWheel.timerMsToJiffies ms) else none
  (enqueue p k s).setCall p (.loopTest k deadline)

def unlink (p : Fin n) (k : Key) (s : State n Key) : State n Key :=
  if wqLinked (s.queue k) p then s.setQueue k (wqRemove (s.queue k) p) else s

/-- What a process returns to after `process_yield`: it came back at once, or after a switch. -/
def yielded (p : Fin n) (switched : Bool) (s : State n Key) : State n Key :=
  if switched then s.setState p .running else s

/-- The next part of the call of a process. -/
def resume (p : Fin n) (switched : Bool) (s : State n Key) : State n Key :=
  match s.call p with
  | .outside => s
  | .waits _ => (yielded p switched s).setCall p .outside
  | .loopTest k deadline =>
    if s.procState p = .waiting then s.setCall p (.loopYield k deadline) else s.setCall p (.leaving k)
  | .loopYield k deadline =>
    if deadline.any (fun d => s.jiffies ≥ d) then (yielded p switched s).setCall p (.late k)
    else (yielded p switched s).setCall p (.loopTest k deadline)
  | .late k =>
    let ret : Int := if wqLinked (s.queue k) p then -1 else 0
    { (unlink p k s).setCall p .outside with returned := update s.returned p ret }
  | .leaving k => { (unlink p k s).setCall p .outside with returned := update s.returned p 0 }

/-- A process is taken from the queue and made ready. -/
def wake (k : Key) (p : Fin n) (s : State n Key) : State n Key :=
  (s.setQueue k (wqRemove (s.queue k) p)).setState p .ready

/-- `none` if the search does not end. -/
def waitQueueWakeOne (k : Key) (s : State n Key) : Option (State n Key) :=
  match scan (fun p => s.procState p = .waiting) s.next n (s.head k) with
  | none => none
  | some none => some s
  | some (some p) => some (wake k p s)

/-- The loop of `wait_queue_wake_all`, over so many nodes; `none` if it does not end. -/
def wakeAllLoop (k : Key) : Nat → Option (Fin n) → State n Key → Option (State n Key)
  | _, none, s => some s
  | 0, some _, _ => none
  | fuel+1, some node, s =>
    let next := s.next node
    wakeAllLoop k fuel next (if s.procState node = .waiting then wake k node s else s)

def waitQueueWakeAll (k : Key) (s : State n Key) : Option (State n Key) := wakeAllLoop k n (s.head k) s

def processWakeup (p : Fin n) (s : State n Key) : State n Key :=
  if s.procState p = .waiting then s.setState p .ready else s

/-- `signal_send`: `data` says if the target has signal data, and `memory` if there is room for
    the entry of a queued signal. -/
def signalSend (target : Fin n) (sig : Int) (data memory : Bool) (s : State n Key) : State n Key :=
  if sig < 1 ∨ sig > Scheduler.sigMax then s
  else if s.procState target = .dead then s
  else if sig = Scheduler.sigKill then s.setState target .dead
  else if data = false then s
  else if sig ≥ Scheduler.sigRtMin ∧ memory = false then s
  else if s.procState target = .sleeping ∨ s.procState target = .waiting then s.setState target .ready
  else s

/-- The processes are the first ones in the table of the scheduler. -/
structure Agrees (s : State n Key) (t : Scheduler.Table) : Prop where
  fits : n ≤ Scheduler.processMax
  state : ∀ p : Fin n, t.state p = s.procState p

section
omit [DecidableEq Key]
variable {s : State n Key} {t : Scheduler.Table} (agrees : Agrees s t) (p : Fin n)
include agrees

theorem Agrees.setState (x : ProcState) : Agrees (s.setState p x) (t.setState p x) := by
  refine ⟨agrees.fits,fun q => ?_⟩
  by_cases same : q = p
  · simp [State.setState,Scheduler.Table.setState,same]
  · have apart : (q : Nat) ≠ p := fun equal => same (Fin.ext equal)
    simpa [State.setState,Scheduler.Table.setState,same,apart] using agrees.state q

/-- What wakes and signals do to a process is what they do to the table of the scheduler. -/
theorem Agrees.processWakeup : Agrees (processWakeup p s) (Scheduler.processWakeup p t) := by
  have inside : (p : Nat) < Scheduler.processMax := Nat.lt_of_lt_of_le p.isLt agrees.fits
  simp only [WaitRuns.processWakeup,Scheduler.processWakeup,agrees.state,inside,true_and]
  split
  · exact agrees.setState p .ready
  · exact agrees

theorem Agrees.signalSend (sig : Int) (data memory : Bool) :
    Agrees (signalSend p sig data memory s) (Scheduler.signalSend p sig data memory t) := by
  have inside : ¬ (p : Nat) ≥ Scheduler.processMax := Nat.not_le.mpr (Nat.lt_of_lt_of_le p.isLt agrees.fits)
  simp only [WaitRuns.signalSend,Scheduler.signalSend,agrees.state,inside,if_false]
  split_ifs
  · exact agrees
  · exact agrees
  · exact agrees.setState p .dead
  · exact agrees
  · exact agrees
  · exact agrees.setState p .ready
  · exact agrees

end

inductive Request (n : Nat) (Key : Type*) where
  | wait (p : Fin n) (k : Key)
  | waitTimeout (p : Fin n) (k : Key) (ms : BitVec 64)
  | resume (p : Fin n) (switched : Bool)
  | wakeOne (k : Key)
  | wakeAll (k : Key)
  | wakeup (p : Fin n)
  | signal (p : Fin n) (sig : Int) (data memory : Bool)
  | tick
  deriving DecidableEq, Repr

/-- A process inside a wait call makes no other one. -/
def step : Request n Key → Option (State n Key)
  | .wait p k => if s.call p = .outside then some (waitQueueWait p k s) else some s
  | .waitTimeout p k ms => if s.call p = .outside then some (waitQueueWaitTimeout p k ms s) else some s
  | .resume p switched => some (resume p switched s)
  | .wakeOne k => waitQueueWakeOne k s
  | .wakeAll k => waitQueueWakeAll k s
  | .wakeup p => some (processWakeup p s)
  | .signal p sig data memory => some (signalSend p sig data memory s)
  | .tick => some { s with jiffies := s.jiffies + 1 }

/-- A process comes back from `process_yield` in `wait_queue_wait` only when its node is
    unlinked. -/
def Meets : Request n Key → Prop
  | .resume p _ =>
    match s.call p with
    | .waits k => wqLinked (s.queue k) p = false
    | _ => True
  | _ => True

instance (s : State n Key) (a : Request n Key) : Decidable (Meets s a) :=
  match a with
  | .resume p _ =>
    match here : s.call p with
    | .waits k => decidable_of_iff (wqLinked (s.queue k) p = false) (by rw [Meets,here])
    | .outside | .loopTest _ _ | .loopYield _ _ | .late _ | .leaving _ => .isTrue (by rw [Meets,here]; trivial)
  | .wait _ _ | .waitTimeout _ _ _ | .wakeOne _ | .wakeAll _ | .wakeup _ | .signal _ _ _ _ | .tick => .isTrue trivial

/-- Each queue is a finite doubly linked list of nodes of processes inside a wait call on it. -/
structure Sound (s : State n Key) (lists : Key → List (Fin n)) : Prop where
  linked : ∀ k, Linked s.next s.prev none (s.head k) (lists k)
  tails : ∀ k, s.tail k = (lists k).getLast?
  distinct : ∀ k, (lists k).Nodup
  inside : ∀ k, ∀ p ∈ lists k, (s.call p).on = some k

end

/-! ### The queues over shared nodes -/

section
variable {n : Nat} {Key : Type*}

/-- The queues are these lists, and the nodes of no list are unlinked. -/
structure Queued (s : State n Key) (lists : Key → List (Fin n)) : Prop where
  family : Family s.next s.prev s.head lists
  tails : ∀ k, s.tail k = (lists k).getLast?
  others : ∀ p, (∀ k, p ∉ lists k) → s.next p = none ∧ s.prev p = none

variable {s : State n Key} {lists : Key → List (Fin n)} {p : Fin n} {k : Key}

variable {t : State n Key} {c : Call Key} {left right : List (Fin n)}

/-- The queues are lists of nodes of processes inside a wait call on them. -/
def Inv (s : State n Key) : Prop := ∃ lists, Queued s lists ∧ ∀ k, ∀ p ∈ lists k, (s.call p).on = some k

section
variable (queued : Queued s lists)
include queued

theorem Queued.congr (heads : t.head = s.head) (tails : t.tail = s.tail)
    (nexts : t.next = s.next) (prevs : t.prev = s.prev) : Queued t lists := by
  constructor
  · rw [heads,nexts,prevs]
    exact queued.family
  · rw [tails]
    exact queued.tails
  · rw [nexts,prevs]
    exact queued.others

theorem Queued.held : WaitQueue.Held s.next s.prev s.head s.tail lists :=
  ⟨queued.family,queued.tails,queued.others⟩

theorem Queued.length_le (k : Key) : (lists k).length ≤ n := by
  have short := (queued.family.distinct k).length_le_card
  rwa [Fintype.card_fin] at short

end

theorem start_inv : Inv (start : State n Key) := by
  refine ⟨fun _ => [],⟨⟨fun _ => rfl,fun _ => .nil,?_⟩,fun _ => rfl,fun _ _ => ⟨rfl,rfl⟩⟩,?_⟩
  · intro j k a member
    cases member
  · intro k p member
    cases member

private theorem only_of_on (inside : ∀ k, ∀ p ∈ lists k, (s.call p).on = some k)
    (on : (s.call p).on = some k) (j : Key) (member : p ∈ lists j) : j = k := by
  cases on.symm.trans (inside j p member)
  rfl

section
variable (inv : Inv s)
include inv

theorem Inv.sound : ∃ lists, Sound s lists := by
  obtain ⟨lists,queued,inside⟩ := inv
  exact ⟨lists,queued.family.linked,queued.tails,queued.family.distinct,inside⟩

/-- The invariant reads the queues, and where the processes are. -/
theorem Inv.congr (heads : t.head = s.head) (tails : t.tail = s.tail) (nexts : t.next = s.next)
    (prevs : t.prev = s.prev) (calls : ∀ q, (t.call q).on = (s.call q).on) : Inv t := by
  obtain ⟨lists,queued,inside⟩ := inv
  refine ⟨lists,queued.congr heads tails nexts prevs,fun k q member => ?_⟩
  rw [calls]
  exact inside k q member

theorem Inv.setState (p : Fin n) (x : ProcState) : Inv (s.setState p x) :=
  inv.congr rfl rfl rfl rfl (fun _ => rfl)

theorem Inv.stay (same : c.on = (s.call p).on) : Inv (s.setCall p c) := by
  refine inv.congr rfl rfl rfl rfl (fun q => ?_)
  by_cases here : q = p
  · subst here
    simp [State.setCall,same]
  · simp only [State.setCall,update_of_ne here]

theorem Inv.leave (on : (s.call p).on = some k) (unlinked : wqLinked (s.queue k) p = false) :
    Inv (s.setCall p .outside) := by
  obtain ⟨lists,queued,inside⟩ := inv
  have only := only_of_on inside on
  refine ⟨lists,queued.congr rfl rfl rfl rfl,fun j q member => ?_⟩
  have other : q ≠ p := by
    rintro rfl
    obtain rfl := only j member
    cases unlinked.symm.trans ((queued.held.linked_iff only).mpr member)
  simp only [State.setCall,update_of_ne other]
  exact inside j q member

theorem Inv.processWakeup (p : Fin n) : Inv (processWakeup p s) := by
  rw [WaitRuns.processWakeup]
  split
  · exact inv.setState p .ready
  · exact inv

theorem Inv.signalSend (p : Fin n) (sig : Int) (data memory : Bool) : Inv (signalSend p sig data memory s) := by
  rw [WaitRuns.signalSend]
  split_ifs
  · exact inv
  · exact inv
  · exact inv.setState p .dead
  · exact inv
  · exact inv
  · exact inv.setState p .ready
  · exact inv

end

variable [DecidableEq Key]

section
variable (queued : Queued s lists)
include queued

theorem Queued.enqueue (fresh : ∀ j, p ∉ lists j) :
    Queued (enqueue p k s) (update lists k (lists k ++ [p])) :=
  have held := queued.held.add fresh
  ⟨held.family,held.tails,held.others⟩

theorem Queued.remove (cells : lists k = left ++ p :: right) :
    Queued (s.setQueue k (wqRemove (s.queue k) p)) (update lists k (left ++ right)) :=
  have held := queued.held.remove cells
  ⟨held.family,held.tails,held.others⟩

theorem Inv.remove (inside : ∀ k, ∀ p ∈ lists k, (s.call p).on = some k)
    (cells : lists k = left ++ p :: right) : Inv (s.setQueue k (wqRemove (s.queue k) p)) := by
  refine ⟨_,queued.remove cells,fun j q member => ?_⟩
  exact inside j q ((queued.family.parted.mem_without cells j q).mp member).2

/-- The loop goes through what is left of the list; the nodes before are done. -/
theorem wakeAllLoop_inv {rest done : List (Fin n)} {fuel : Nat}
    (inside : ∀ k, ∀ p ∈ lists k, (s.call p).on = some k) (cells : lists k = done ++ rest) (enough : rest.length ≤ fuel) :
    ∃ t, wakeAllLoop k fuel rest.head? s = some t ∧ Inv t := by
  induction rest generalizing done fuel s lists with
  | nil =>
    refine ⟨s,?_,lists,queued,inside⟩
    cases fuel <;> rfl
  | cons a rest ih =>
    obtain ⟨fuel,rfl⟩ : ∃ f, fuel = f + 1 := ⟨fuel - 1,by rw [List.length_cons] at enough; omega⟩
    have linked := queued.family.linked k
    rw [cells] at linked
    have short : rest.length ≤ fuel := Nat.le_of_succ_le_succ enough
    rw [List.head?_cons,wakeAllLoop,Links.linked_next_at linked]
    split
    · have queued' : Queued (wake k a s) (update lists k (done ++ rest)) := (queued.remove cells).congr rfl rfl rfl rfl
      refine ih queued' (fun j q member => ?_) (update_self ..) short
      exact inside j q ((queued.family.parted.mem_without cells j q).mp member).2
    · exact ih queued inside (cells.trans (List.append_assoc done [a] rest).symm) short

end

section
variable (inv : Inv s)
include inv

theorem Inv.enter (outside : s.call p = .outside) (on : c.on = some k) :
    Inv ((enqueue p k s).setCall p c) := by
  obtain ⟨lists,queued,inside⟩ := inv
  have fresh : ∀ j, p ∉ lists j := by
    intro j member
    have here := inside j p member
    rw [outside] at here
    cases here
  refine ⟨_,(queued.enqueue (k := k) fresh).congr rfl rfl rfl rfl,fun j q member => ?_⟩
  rcases (Links.mem_added (List.perm_append_singleton p (lists k)) j q).mp member with old | ⟨rfl,rfl⟩
  · have other : q ≠ p := fun same => fresh j (same ▸ old)
    simp only [State.setCall,update_of_ne other]
    exact inside j q old
  · simp [State.setCall,on]

theorem Inv.unlink (on : (s.call p).on = some k) : Inv ((unlink p k s).setCall p .outside) := by
  rw [WaitRuns.unlink]
  cases test : wqLinked (s.queue k) p with
  | false =>
    exact inv.leave on test
  | true =>
    obtain ⟨lists,queued,inside⟩ := inv
    have only := only_of_on inside on
    obtain ⟨left,right,cells⟩ := List.append_of_mem ((queued.held.linked_iff only).mp test)
    refine ⟨_,(queued.remove cells).congr rfl rfl rfl rfl,fun j q member => ?_⟩
    obtain ⟨other,old⟩ := (queued.family.parted.mem_without cells j q).mp member
    simp only [State.setCall,update_of_ne other]
    exact inside j q old

theorem Inv.resume {switched : Bool} (meets : Meets s (.resume p switched)) : Inv (resume p switched s) := by
  have after : Inv (yielded p switched s) ∧ (yielded p switched s).call = s.call := by
    rw [yielded]
    split
    · exact ⟨inv.setState p .running,rfl⟩
    · exact ⟨inv,rfl⟩
  rw [WaitRuns.resume]
  rw [Meets] at meets
  cases here : s.call p with
  | outside => exact inv
  | waits k =>
    rw [here] at meets
    have on : ((yielded p switched s).call p).on = some k := by rw [after.2,here]; rfl
    refine after.1.leave on ?_
    rw [yielded]
    split <;> exact meets
  | loopTest k deadline =>
    dsimp only
    split
    · exact inv.stay (by rw [here]; rfl)
    · exact inv.stay (by rw [here]; rfl)
  | loopYield k deadline =>
    dsimp only
    split
    · exact after.1.stay (by rw [after.2,here]; rfl)
    · exact after.1.stay (by rw [after.2,here]; rfl)
  | late k | leaving k => exact (inv.unlink (k := k) (by rw [here]; rfl)).congr rfl rfl rfl rfl (fun _ => rfl)

theorem Inv.wakeOne (k : Key) : ∃ t, waitQueueWakeOne k s = some t ∧ Inv t := by
  have kept := inv
  obtain ⟨lists,queued,inside⟩ := inv
  have found : WaitQueue.scan (fun p => decide (s.procState p = .waiting)) s.next n (s.head k)
      = some ((lists k).find? (fun p => decide (s.procState p = .waiting))) :=
    WaitQueue.scan_chain (queued.length_le k) (Links.linked_chain (queued.family.linked k))
  rw [waitQueueWakeOne,found]
  cases first : (lists k).find? (fun p => decide (s.procState p = .waiting)) with
  | none => exact ⟨s,rfl,kept⟩
  | some p =>
    obtain ⟨left,right,cells⟩ := List.append_of_mem (List.mem_of_find?_eq_some first)
    exact ⟨_,rfl,(Inv.remove queued inside cells).setState p .ready⟩

theorem Inv.wakeAll (k : Key) : ∃ t, waitQueueWakeAll k s = some t ∧ Inv t := by
  obtain ⟨lists,queued,inside⟩ := inv
  rw [waitQueueWakeAll,Links.linked_head (queued.family.linked k)]
  exact wakeAllLoop_inv queued inside (List.nil_append _).symm (queued.length_le k)

end

theorem inv_step (s : State n Key) (a : Request n Key) (inv : Inv s) (meets : Meets s a) : ∃ t, step s a = some t ∧ Inv t := by
  cases a with
  | wait p k | waitTimeout p k ms =>
    by_cases outside : s.call p = .outside
    · exact ⟨_,if_pos outside,inv.enter outside rfl⟩
    · exact ⟨s,if_neg outside,inv⟩
  | resume p switched => exact ⟨_,rfl,inv.resume meets⟩
  | wakeOne k => exact inv.wakeOne k
  | wakeAll k => exact inv.wakeAll k
  | wakeup p => exact ⟨_,rfl,inv.processWakeup p⟩
  | signal p sig data memory => exact ⟨_,rfl,inv.signalSend p sig data memory⟩
  | tick => exact ⟨_,rfl,inv.congr rfl rfl rfl rfl (fun _ => rfl)⟩

/-- In every run that meets the condition each queue is a finite list of nodes of processes that wait inside a call on it. -/
theorem wait_run_inside (requests : List (Request n Key)) (guarded : Guarded step Meets start requests) :
    ∃ s : State n Key, run step start requests = some s ∧ ∃ lists, Sound s lists := by
  obtain ⟨s,ran,inv⟩ := run_invariant inv_step requests start start_inv guarded
  exact ⟨s,ran,inv.sound⟩

end

def signalled : List (Request 3 Bool) :=
  [.wait 0 true,.waitTimeout 1 true 5,.wait 2 false,.resume 1 true,.signal 1 15 true true,.resume 1 true,.resume 1 true,
    .resume 1 true,.wakeOne true,.resume 0 true,.wakeAll false]

theorem wait_run_inside_of_signalled : Guarded step Meets start signalled ∧
    ∃ s, run step start signalled = some s ∧ ∃ lists, Sound s lists := by
  have guarded : Guarded step Meets start signalled := by decide +kernel
  exact ⟨guarded,wait_run_inside signalled guarded⟩

/-- A signal makes a process ready that is in `wait_queue_wait`; the process returns, and the
    head of the queue is still its node. -/
theorem wait_queue_wait_dangles :
    (run step (start : State 1 Unit) [.wait 0 (),.signal 0 15 true true,.resume 0 true]).map
      (fun s => (s.head (),s.call 0)) = some (some 0,.outside) := by
  decide +kernel

end Kenux.WaitRuns
