import Kenux.Scheduler
import Kenux.WaitQueue
import Mathlib.Data.Fintype.Card

/-!
The recursive mutex of `sync.c`, as steps of any number of processes: each section under the
lock is one step. `mutex_run_exclusive`: in every run in which each process unlocks only as
often as it locked, nests fewer than 2^32 locks, and comes back from its `process_yield` once
its node is out of the queue, one process at most holds the mutex, `owner` names it,
`recurse_count` is the number of its locks, and the queue is a list of processes that wait in
`mutex_lock`. The count is a word of 32 bits; beyond it two processes hold the mutex
(`mutex_overflows`). A process that comes back early leaves the node in the queue, on a part
of its stack that it goes on to use.
-/
namespace Kenux.Mutex
open Kenux.Runs
open Function (update update_self update_of_ne)

open Scheduler (ProcState)
open WaitQueue (wqAdd wqRemove wqLinked scan Holds)

/-- The mutex (`none` is the owner -1), the processes, which of them are in the `process_yield`
    of `mutex_lock`, and for each process the number of its locks that are not yet
    unlocked. The node of a process stands for the one on its stack while it is in `mutex_lock`. -/
structure State (n : Nat) where
  locked : Bool
  owner : Option (Fin n)
  recurseCount : Nat
  waiters : WaitQueue.Queue (Fin n)
  procState : Fin n → ProcState
  yields : Fin n → Bool
  held : Fin n → Nat

section
variable {n : Nat}

def mutexInit : State n where
  locked := false
  owner := none
  recurseCount := 0
  waiters := WaitQueue.waitQueueInit
  procState := fun _ => .running
  yields := fun _ => false
  held := fun _ => 0

variable (s : State n)

/-- The mutex is free, and a lock call of the process takes it and returns. -/
def State.take (self : Fin n) : State n :=
  { s with
    locked := true
    owner := some self
    recurseCount := 1
    held := update s.held self (s.held self + 1) }

/-- A lock call of the owner: `recurse_count++`, in 32 bits. -/
def State.again (self : Fin n) : State n :=
  { s with
    recurseCount := (s.recurseCount + 1) % 2^32
    held := update s.held self (s.held self + 1) }

/-- The loop of `mutex_lock` from its test on: the process is queued and yields, or it takes the
    mutex and returns. The loop does not ask for the owner again. -/
def lockLoop (self : Fin n) (s : State n) : State n :=
  if s.locked then
    { s with
      waiters := wqAdd s.waiters self
      procState := update s.procState self .waiting
      yields := update s.yields self true }
  else
    { s with yields := update s.yields self false }.take self

def mutexLock (self : Fin n) (s : State n) : State n :=
  if s.locked = true ∧ s.owner = some self then s.again self else lockLoop self s

/-- A process comes back from the `process_yield` of `mutex_lock`. The node goes out of scope there; if the
    queue still holds it, what the mutex does from then on depends on the stack of the process. -/
def resume (self : Fin n) (s : State n) : Option (State n) :=
  if wqLinked s.waiters self then none else some (lockLoop self { s with procState := update s.procState self .running })

def mutexTrylock (self : Fin n) (s : State n) : Int × State n :=
  if s.locked = false then (1,s.take self)
  else if s.owner = some self then (1,s.again self)
  else (0,s)

/-- The search of `mutex_unlock` for a process to wake; `none` if it does not end. -/
def wakeWaiter : Option (State n) :=
  match scan (fun p => s.procState p = .waiting) s.waiters.next n s.waiters.head with
  | none => none
  | some none => some s
  | some (some p) =>
    some { s with
      waiters := wqRemove s.waiters p
      procState := update s.procState p .ready }

/-- `mutex_unlock`, called by a process for one of its locks; the code does not ask who calls. -/
def mutexUnlock (self : Fin n) (s : State n) : Option (State n) :=
  let s := { s with held := update s.held self (s.held self - 1) }
  if s.locked = false then some s
  else
    let s := { s with recurseCount := (s.recurseCount + (2^32 - 1)) % 2^32 }
    if s.recurseCount > 0 then some s
    else
      wakeWaiter { s with
        locked := false
        owner := none }

inductive Request (n : Nat) where
  | lock (p : Fin n)
  | trylock (p : Fin n)
  | unlock (p : Fin n)
  | resume (p : Fin n)
  deriving DecidableEq, Repr

/-- A process that yields in `mutex_lock` makes no other call, and only such a process resumes. -/
def step : Request n → Option (State n)
  | .lock p => if s.yields p then some s else some (mutexLock p s)
  | .trylock p => if s.yields p then some s else some (mutexTrylock p s).2
  | .unlock p => if s.yields p then some s else mutexUnlock p s
  | .resume p => if s.yields p then resume p s else some s

/-- A process unlocks only as often as it locked, nests fewer than 2^32 locks, and comes back from its
    `process_yield` once its node is out of the queue. -/
def Meets : Request n → Prop
  | .lock p => s.held p + 1 < 2^32
  | .trylock p => s.held p + 1 < 2^32
  | .unlock p => 0 < s.held p
  | .resume p => s.yields p = true → wqLinked s.waiters p = false

instance (s : State n) (a : Request n) : Decidable (Meets s a) :=
  match a with
  | .lock _ | .trylock _ | .unlock _ => inferInstanceAs (Decidable (_ < _))
  | .resume _ => inferInstanceAs (Decidable (_ → _))

/-- One process at most holds the mutex; `owner` and `recurse_count` are its own; a locked mutex is held; and
    the queue is a list of processes that yield in `mutex_lock`. -/
structure Sound (s : State n) : Prop where
  exclusive : ∀ p q, 0 < s.held p → 0 < s.held q → p = q
  owner : ∀ p, 0 < s.held p → s.owner = some p
  count : ∀ p, 0 < s.held p → s.recurseCount = s.held p
  locked : s.locked = true ↔ ∃ p, 0 < s.held p
  queue : ∃ nodes, Holds s.waiters nodes ∧ ∀ p ∈ nodes, s.yields p = true

/-! ### The mutex is free, or owned by one process -/

structure Free (s : State n) : Prop where
  locked : s.locked = false
  held : ∀ p, s.held p = 0

structure Owned (s : State n) (p : Fin n) : Prop where
  locked : s.locked = true
  owner : s.owner = some p
  count : s.recurseCount = s.held p
  positive : 0 < s.held p
  small : s.held p < 2^32
  others : ∀ q, q ≠ p → s.held q = 0

def Exclusive : Prop := Free s ∨ ∃ p, Owned s p

/-- The queue is a list of processes that yield. -/
def Queued : Prop := ∃ nodes, Holds s.waiters nodes ∧ ∀ p ∈ nodes, s.yields p = true

structure Inv (s : State n) : Prop where
  exclusive : Exclusive s
  queued : Queued s

variable {s t : State n} {self : Fin n}

theorem Owned.holder {p q : Fin n} (own : Owned s p) (holds : 0 < s.held q) : q = p := by
  by_contra other
  have none_held := own.others q other
  omega

theorem Inv.sound (inv : Inv s) : Sound s := by
  obtain ⟨free | ⟨p,own⟩,queued⟩ := inv
  · have nobody : ∀ q, ¬ 0 < s.held q := fun q holds => by simp [free.held q] at holds
    constructor
    · exact fun q _ holds => absurd holds (nobody q)
    · exact fun q holds => absurd holds (nobody q)
    · exact fun q holds => absurd holds (nobody q)
    · simp [free.locked,free.held]
    · exact queued
  · constructor
    · exact fun q r first second => (own.holder first).trans (own.holder second).symm
    · exact fun q holds => own.holder holds ▸ own.owner
    · exact fun q holds => own.holder holds ▸ own.count
    · exact ⟨fun _ => ⟨p,own.positive⟩,fun _ => own.locked⟩
    · exact queued

private theorem mutexInit_inv : Inv (mutexInit : State n) :=
  ⟨Or.inl ⟨rfl,fun _ => rfl⟩,[],WaitQueue.waitQueueInit_holds,nofun⟩

/-- What the invariant reads: a step that leaves it alone keeps the invariant. -/
theorem Exclusive.same (inv : Exclusive s) (locked : t.locked = s.locked) (owner : t.owner = s.owner)
    (count : t.recurseCount = s.recurseCount) (held : t.held = s.held) : Exclusive t := by
  rcases inv with free | ⟨p,own⟩
  · exact Or.inl ⟨locked.trans free.locked,held ▸ free.held⟩
  · refine Or.inr ⟨p,locked.trans own.locked,owner.trans own.owner,?_,?_,?_,?_⟩
    · rw [count,held,own.count]
    · exact held ▸ own.positive
    · exact held ▸ own.small
    · exact held ▸ own.others

theorem Free.take (free : Free s) (self : Fin n) : Owned (s.take self) self := by
  constructor
  · rfl
  · rfl
  · simp [State.take,free.held]
  · simp [State.take]
  · simp [State.take,free.held]
  · intro q other
    simp [State.take,other,free.held]

theorem Owned.again (own : Owned s self) (room : s.held self + 1 < 2^32) : Owned (s.again self) self := by
  constructor
  · exact own.locked
  · exact own.owner
  · simp only [State.again,update_self,own.count]
    exact Nat.mod_eq_of_lt room
  · simp [State.again]
  · simp only [State.again,update_self]
    exact room
  · intro q other
    simp [State.again,other,own.others]

section
variable (inv : Exclusive s)
include inv

theorem Exclusive.lockLoop (self : Fin n) : Exclusive (lockLoop self s) := by
  unfold Mutex.lockLoop
  split
  · exact inv.same rfl rfl rfl rfl
  · rename_i unlocked
    rcases inv with free | ⟨p,own⟩
    · have free : Free { s with yields := update s.yields self false } := ⟨free.locked,free.held⟩
      exact Or.inr ⟨self,free.take self⟩
    · exact absurd own.locked unlocked

theorem Exclusive.again (locked : s.locked = true) (owner : s.owner = some self)
    (room : s.held self + 1 < 2^32) : Exclusive (s.again self) := by
  rcases inv with free | ⟨p,own⟩
  · simp [free.locked] at locked
  · obtain rfl : p = self := Option.some.inj (own.owner.symm.trans owner)
    exact Or.inr ⟨p,own.again room⟩

theorem Exclusive.mutexTrylock (self : Fin n) (room : s.held self + 1 < 2^32) :
    Exclusive (mutexTrylock self s).2 := by
  unfold Mutex.mutexTrylock
  split
  · rename_i unlocked
    rcases inv with free | ⟨p,own⟩
    · exact Or.inr ⟨self,free.take self⟩
    · simp [own.locked] at unlocked
  · rename_i locked
    split
    · rename_i mine
      exact inv.again (by simpa using locked) mine room
    · exact inv

end

/-! ### The queue -/

theorem Queued.not_linked (queued : Queued s) (outside : s.yields self = false) : wqLinked s.waiters self = false := by
  obtain ⟨nodes,holds,inside⟩ := queued
  refine Bool.eq_false_iff.mpr (fun linked => ?_)
  have yields := inside self (holds.linked_iff.mp linked)
  simp [outside] at yields

theorem Queued.lockLoop (queued : Queued s) (unlinked : wqLinked s.waiters self = false) : Queued (lockLoop self s) := by
  obtain ⟨nodes,holds,inside⟩ := queued
  have absent : self ∉ nodes := fun member => by simp [holds.linked_iff.mpr member] at unlinked
  unfold Mutex.lockLoop
  split
  · refine ⟨nodes ++ [self],holds.add absent,fun p member => ?_⟩
    rcases List.mem_append.mp member with old | new
    · exact (update_of_ne (ne_of_mem_of_not_mem old absent) ..).trans (inside p old)
    · obtain rfl := List.mem_singleton.mp new
      exact update_self ..
  · refine ⟨nodes,holds,fun p member => ?_⟩
    exact (update_of_ne (ne_of_mem_of_not_mem member absent) ..).trans (inside p member)

theorem Inv.lockLoop (inv : Inv s) (unlinked : wqLinked s.waiters self = false) : Inv (lockLoop self s) :=
  ⟨inv.exclusive.lockLoop self,inv.queued.lockLoop unlinked⟩

theorem Inv.mutexLock (inv : Inv s) (outside : s.yields self = false) (room : s.held self + 1 < 2^32) :
    Inv (mutexLock self s) := by
  unfold Mutex.mutexLock
  split
  · rename_i mine
    exact ⟨inv.exclusive.again mine.1 mine.2 room,inv.queued⟩
  · exact inv.lockLoop (inv.queued.not_linked outside)

theorem Inv.mutexTrylock (inv : Inv s) (self : Fin n) (room : s.held self + 1 < 2^32) : Inv (mutexTrylock self s).2 := by
  refine ⟨inv.exclusive.mutexTrylock self room,?_⟩
  unfold Mutex.mutexTrylock
  split
  · exact inv.queued
  · split <;> exact inv.queued

/-- The search ends, and takes at most one node out. -/
theorem Inv.wakeWaiter (inv : Inv s) : ∃ t, wakeWaiter s = some t ∧ Inv t := by
  obtain ⟨nodes,holds,inside⟩ := inv.queued
  have few : nodes.length ≤ n := by
    have short := holds.distinct.length_le_card
    rwa [Fintype.card_fin] at short
  unfold Mutex.wakeWaiter
  rw [holds.scan _ few]
  cases found : nodes.find? (fun p => s.procState p = .waiting) with
  | none => exact ⟨s,rfl,inv⟩
  | some p =>
    have member := List.mem_of_find?_eq_some found
    refine ⟨_,rfl,inv.exclusive.same rfl rfl rfl rfl,nodes.erase p,holds.remove member,fun q left => ?_⟩
    exact inside q (List.mem_of_mem_erase left)

private theorem count_pred {count : Nat} (positive : 0 < count) (small : count < 2^32) :
    (count + (2^32 - 1)) % 2^32 = count - 1 := by
  omega

theorem Inv.mutexUnlock (inv : Inv s) (holds : 0 < s.held self) : ∃ t, mutexUnlock self s = some t ∧ Inv t := by
  obtain ⟨free | ⟨p,own⟩,queued⟩ := inv
  · simp [free.held] at holds
  obtain rfl := own.holder holds
  have count := count_pred own.positive own.small
  simp only [Mutex.mutexUnlock,own.locked,own.count,count,Bool.true_eq_false,if_false]
  split
  · -- an inner lock is given back
    rename_i inner
    refine ⟨_,rfl,Or.inr ⟨self,rfl,own.owner,?_,?_,?_,?_⟩,queued⟩
    · simp
    · simpa using inner
    · simp only [update_self]
      omega
    · intro q other
      simp [other,own.others]
  · -- the last one
    refine Inv.wakeWaiter ⟨Or.inl ⟨rfl,?_⟩,queued⟩
    intro q
    by_cases same : q = self
    · subst same
      simp only [update_self]
      omega
    · simp [same,own.others]

theorem inv_step (s : State n) (a : Request n) (inv : Inv s) (meets : Meets s a) : ∃ t, step s a = some t ∧ Inv t := by
  have stays : ∀ {p} {after : Option (State n)}, (s.yields p = false → ∃ t, after = some t ∧ Inv t) →
      ∃ t, (if s.yields p then some s else after) = some t ∧ Inv t := by
    intro p after moves
    cases outside : s.yields p with
    | true => exact ⟨s,rfl,inv⟩
    | false => exact moves outside
  cases a with
  | lock p => exact stays (fun outside => ⟨_,rfl,inv.mutexLock outside meets⟩)
  | trylock p => exact stays (fun _ => ⟨_,rfl,inv.mutexTrylock p meets⟩)
  | unlock p => exact stays (fun _ => inv.mutexUnlock meets)
  | resume p =>
    rw [step]
    split
    · rename_i yields
      have unlinked := meets yields
      have running : Inv { s with procState := update s.procState p .running } :=
        ⟨inv.exclusive.same rfl rfl rfl rfl,inv.queued⟩
      refine ⟨_,?_,running.lockLoop unlinked⟩
      rw [resume,unlinked]
      rfl
    · exact ⟨s,rfl,inv⟩

/-- Every run that meets the condition ends, and the mutex is as it should be in the state it reaches. -/
theorem mutex_run_exclusive (requests : List (Request n)) (guarded : Guarded step Meets mutexInit requests) :
    ∃ s, run step mutexInit requests = some s ∧ Sound s := by
  obtain ⟨s,ran,inv⟩ := run_invariant inv_step requests mutexInit mutexInit_inv guarded
  exact ⟨s,ran,inv.sound⟩

end

def contention : List (Request 2) :=
  [.lock 0,.trylock 0,.lock 1,.trylock 1,.unlock 0,.unlock 0,.resume 1,.unlock 1]

theorem mutex_run_exclusive_of_contention : Guarded step Meets mutexInit contention ∧
    ∃ s, run step mutexInit contention = some s ∧ Sound s := by
  have guarded : Guarded step Meets mutexInit contention := by decide +kernel
  exact ⟨guarded,mutex_run_exclusive contention guarded⟩

theorem run_relock {n : Nat} (p : Fin n) (rest : List (Request n)) (k : Nat) (s : State n) (outside : s.yields p = false)
    (locked : s.locked = true) (owner : s.owner = some p) (small : s.recurseCount < 2^32) :
    run step s (List.replicate k (.lock p) ++ rest) =
      run step { s with
        recurseCount := (s.recurseCount + k) % 2^32
        held := update s.held p (s.held p + k) } rest := by
  induction k generalizing s with
  | zero =>
    simp only [List.replicate_zero,List.nil_append,Nat.add_zero,Nat.mod_eq_of_lt small,Function.update_eq_self]
  | succ k ih =>
    have locks : step s (.lock p) = some (s.again p) := by
      simp [step,outside,mutexLock,locked,owner]
    rw [List.replicate_succ,List.cons_append,run_cons,locks,Option.bind_some]
    rw [ih (s.again p) outside locked owner (Nat.mod_lt _ (Nat.two_pow_pos 32))]
    have count : ((s.recurseCount + 1) % 2^32 + k) % 2^32 = (s.recurseCount + (k + 1)) % 2^32 := by omega
    have held : s.held p + 1 + k = s.held p + (k + 1) := by omega
    simp only [State.again,update_self,Function.update_idem,count,held]

/-- A process that has locked 2^32 + 1 times unlocks once; the mutex is free then, and another
    process takes it. -/
theorem mutex_overflows :
    (run step (mutexInit : State 2) (List.replicate (2^32 + 1) (.lock 0) ++ [.unlock 0,.lock 1])).map
      (fun s => (s.held 0,s.held 1)) = some (2^32,1) := by
  have locks : step (mutexInit : State 2) (.lock 0) = some (mutexInit.take 0) := by
    simp [step,mutexInit,mutexLock,lockLoop]
  rw [List.replicate_succ,List.cons_append,run_cons,locks,Option.bind_some]
  rw [run_relock 0 _ (2^32) (mutexInit.take 0) rfl rfl rfl (by decide)]
  decide +kernel

end Kenux.Mutex
