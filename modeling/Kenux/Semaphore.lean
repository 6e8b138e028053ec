import Kenux.Scheduler
import Kenux.Slots
import Kenux.TimerWheel
import Kenux.WaitQueue

/-!
The counting semaphore of `sync.c`, as steps of any number of processes: each section
under a lock is one step, and a process that blocks resumes only after `semaphore_up` or a
timer has made it ready. A process that was woken may find its deadline passed and give its
permit back without waking anybody (`semaphore_strands`). `semaphore_run_counts`: in every
run without such a hand-over to a process that is late, the successful downs do not exceed
the initial count and the ups, and a queue of waiting processes is as long as the count is
below 0.
-/
namespace Kenux.Semaphore
open Kenux.Runs
open Function (update update_of_ne)

open Scheduler (ProcState)
open WaitQueue (wqAdd wqRemove wqLinked scan)

/-- Where a process is in its call: outside, in the `process_yield` of `semaphore_down`,
    before the test or in the `process_yield` of the loop of `semaphore_down_timeout`
    (with its deadline, if it has one), or late: before the section that unlinks its node,
    and before the one that gives the permit back. -/
inductive Phase where
  | outside
  | downYield
  | loopTest (deadline : Option (BitVec 64))
  | loopYield (deadline : Option (BitVec 64))
  | late
  | leaving
  deriving DecidableEq, Repr

/-- The semaphore, the processes, the time, and the ups and successful downs so far. The node
    of a process stands for the one on its stack. -/
structure State (n : Nat) where
  count : Int
  waiters : WaitQueue.Queue (Fin n)
  procState : Fin n → ProcState
  phase : Fin n → Phase
  jiffies : BitVec 64
  ups : Nat
  successes : Nat

section
variable {n : Nat}

def int32 (x : Int) : Int := Int.bmod x (2^32)

def semaphoreInit (initial : Int) : State n :=
  ⟨initial,WaitQueue.waitQueueInit,fun _ => .running,fun _ => .outside,0,0,0⟩

/-- The first section of a down: the process goes on, or it is queued and blocks. -/
def enter (p : Fin n) (blocked : Phase) (s : State n) : State n :=
  let s := { s with count := int32 (s.count - 1) }
  if s.count < 0 then
    { s with
      waiters := wqAdd s.waiters p
      procState := update s.procState p .waiting
      phase := update s.phase p blocked }
  else { s with successes := s.successes + 1 }

def semaphoreDown (p : Fin n) (s : State n) : State n := enter p .downYield s

def semaphoreDownTimeout (p : Fin n) (ms : BitVec 64) (s : State n) : State n :=
  enter p (.loopTest (if ms > 0 then some (s.jiffies + TimerWheel.timerMsToJiffies ms) else none)) s

variable (s : State n)

/-- `none` if the search for a waiting process does not end. -/
def semaphoreUp : Option (State n) :=
  let s := { s with
    count := int32 (s.count + 1)
    ups := s.ups + 1 }
  if s.count ≤ 0 then
    match scan (fun p => s.procState p = .waiting) s.waiters.next n s.waiters.head with
    | none => none
    | some none => some s
    | some (some p) =>
      some { s with
        waiters := wqRemove s.waiters p
        procState := update s.procState p .ready }
  else some s

/-- The process goes on, if it can: it blocks while its state is waiting. -/
def resume (p : Fin n) (s : State n) : State n :=
  match s.phase p with
  | .outside => s
  | .downYield =>
    if s.procState p = .waiting then s
    else { s with
      procState := update s.procState p .running
      phase := update s.phase p .outside
      successes := s.successes + 1 }
  | .loopTest deadline =>
    if s.procState p = .waiting then { s with phase := update s.phase p (.loopYield deadline) }
    else { s with
      phase := update s.phase p .outside
      successes := s.successes + 1 }
  | .loopYield deadline =>
    if s.procState p = .waiting then s
    else { s with
      procState := update s.procState p .running
      phase := update s.phase p (if deadline.any (fun d => s.jiffies ≥ d) then .late else .loopTest deadline) }
  | .late =>
    { s with
      waiters := if wqLinked s.waiters p then wqRemove s.waiters p else s.waiters
      phase := update s.phase p .leaving }
  | .leaving =>
    { s with
      count := int32 (s.count + 1)
      phase := update s.phase p .outside }

/-- A timer sets a blocked process back to ready at its deadline, and it resumes. -/
def timeout (p : Fin n) (s : State n) : State n :=
  match s.phase p with
  | .loopYield (some d) =>
    if s.procState p = .waiting ∧ s.jiffies ≥ d then
      { s with
        procState := update s.procState p .running
        phase := update s.phase p .late }
    else s
  | _ => s

inductive Request (n : Nat) where
  | down (p : Fin n)
  | downTimeout (p : Fin n) (ms : BitVec 64)
  | up
  | resume (p : Fin n)
  | timeout (p : Fin n)
  | tick
  deriving DecidableEq, Repr

/-- A process inside a call makes no other one. -/
def step : Request n → Option (State n)
  | .down p => if s.phase p = .outside then some (semaphoreDown p s) else some s
  | .downTimeout p ms => if s.phase p = .outside then some (semaphoreDownTimeout p ms s) else some s
  | .up => semaphoreUp s
  | .resume p => some (resume p s)
  | .timeout p => some (timeout p s)
  | .tick => some { s with jiffies := s.jiffies + 1 }

def Awaited : Prop := ∃ q, wqLinked s.waiters q = true ∧ s.procState q = .waiting

instance (s : State n) : Decidable (Awaited s) := inferInstanceAs (Decidable (∃ _, _))

/-- A down may block: the count does not underflow, and no process is late. -/
def MayBlock (p : Fin n) : Prop :=
  s.phase p ≠ .outside ∨ -2^31 < s.count ∧ (0 < s.count ∨ ∀ q, s.phase q ≠ .late ∧ s.phase q ≠ .leaving)

/-- A process may go on: one that was woken is not late, or no process of the queue is
    waiting; a permit that is given back does not overflow the count. -/
def MayResume (p : Fin n) : Prop :=
  match s.phase p with
  | .loopYield deadline =>
    s.procState p = .waiting ∨ deadline.all (fun d => s.jiffies < d) = true ∨ ¬ Awaited s
  | .leaving => s.count < 2^31 - 1
  | _ => True

instance (s : State n) (p : Fin n) : Decidable (MayBlock s p) := by
  unfold MayBlock
  infer_instance

instance (s : State n) (p : Fin n) : Decidable (MayResume s p) := by
  unfold MayResume
  cases s.phase p with
  | loopYield deadline =>
    dsimp only
    infer_instance
  | leaving => exact inferInstanceAs (Decidable (s.count < 2^31 - 1))
  | _ => exact inferInstanceAs (Decidable True)

/-- The count stays in range, no call blocks while a process is late, and a woken process comes back in time. -/
def Meets : Request n → Prop
  | .down p => MayBlock s p
  | .downTimeout p _ => MayBlock s p
  | .up => s.count < 2^31 - 1
  | .resume p => MayResume s p
  | _ => True

instance (s : State n) (a : Request n) : Decidable (Meets s a) :=
  match a with
  | .down p | .downTimeout p _ => inferInstanceAs (Decidable (MayBlock s p))
  | .up => inferInstanceAs (Decidable (_ < _))
  | .resume p => inferInstanceAs (Decidable (MayResume s p))
  | .timeout _ | .tick => inferInstanceAs (Decidable True)

/-- Every process inside a call waits. -/
def Quiet : Prop := ∀ p, s.phase p ≠ .outside → s.procState p = .waiting

instance (s : State n) : Decidable (Quiet s) := inferInstanceAs (Decidable (∀ _, _))

/-- No more downs succeed than the semaphore allows, and while all wait the count is that of the queue. -/
structure Sound (initial : Int) (s : State n) : Prop where
  successes : (s.successes : Int) ≤ initial + s.ups
  queue : ∃ queue, WaitQueue.Holds s.waiters queue ∧ (Quiet s → queue ≠ [] → s.count = -queue.length)

/-- A process that `semaphore_up` has taken from the queue, and that is not late. -/
def isWoken (phase : Phase) (queued : Bool) : Bool :=
  match phase with
  | .outside => false
  | .late => false
  | .leaving => false
  | _ => !queued

/-- A process that is late, and whose node is unlinked. -/
def isGone (phase : Phase) (queued : Bool) : Bool :=
  match phase with
  | .late => !queued
  | .leaving => true
  | _ => false

/-- The number of processes of a kind, by their phase and whether they are queued. -/
def tally (kind : Phase → Bool → Bool) (s : State n) (queue : List (Fin n)) : Nat :=
  ∑ q, (kind (s.phase q) (q ∈ queue)).toNat

def woken (queue : List (Fin n)) : Nat := tally isWoken s queue

def gone (queue : List (Fin n)) : Nat := tally isGone s queue

/-- The permits that nobody holds or was handed. -/
def spare (queue : List (Fin n)) : Int := s.count + queue.length + gone s queue

structure Accounts (initial : Int) (s : State n) (queue : List (Fin n)) : Prop where
  queued : ∀ p ∈ queue, s.phase p ≠ .outside ∧ s.phase p ≠ .leaving ∧ (s.procState p = .waiting ∨ s.phase p = .late)
  awake : ∀ p, p ∉ queue → s.phase p ≠ .outside → s.procState p ≠ .waiting
  late : ∀ p, s.phase p = .late → s.procState p ≠ .waiting
  range : -2^31 ≤ s.count ∧ s.count < 2^31
  sum : s.successes + woken s queue + spare s queue = initial + s.ups
  permits : 0 ≤ spare s queue
  asleep : (∃ p ∈ queue, s.procState p = .waiting) → spare s queue = 0

def Inv (initial : Int) (s : State n) : Prop := ∃ queue, WaitQueue.Holds s.waiters queue ∧ Accounts initial s queue

variable {s t : State n} {queue queue' : List (Fin n)} {initial : Int} {p : Fin n}

private theorem gone_eq_zero (quiet : ∀ q, isGone (s.phase q) (q ∈ queue) = false) : gone s queue = 0 := by
  rw [gone]
  exact Finset.sum_eq_zero (fun q _ => by rw [quiet q]; rfl)

/-- When no process is on its way out of a call, the processes of the queue are all that
    wait for a permit. -/
theorem Inv.sound (inv : Inv initial s) : Sound initial s := by
  obtain ⟨queue,holds,acc⟩ := inv
  constructor
  · have sum := acc.sum
    have permits := acc.permits
    omega
  · refine ⟨queue,holds,fun quiet nonempty => ?_⟩
    obtain ⟨p,member⟩ := List.exists_mem_of_ne_nil queue nonempty
    have zero := acc.asleep ⟨p,member,quiet p (acc.queued p member).1⟩
    have none : gone s queue = 0 := by
      refine gone_eq_zero (fun q => ?_)
      have still := quiet q
      cases here : s.phase q with
      | late => exact absurd (still (by rw [here]; nofun)) (acc.late q here)
      | leaving =>
        have away : q ∉ queue := fun member => (acc.queued q member).2.1 here
        exact absurd (still (by rw [here]; nofun)) (acc.awake q away (by rw [here]; nofun))
      | _ => rfl
    rw [spare] at zero
    omega

private theorem int32_of_range {x : Int} (low : -2^31 ≤ x) (high : x < 2^31) : int32 x = x :=
  Int.bmod_eq_of_le_mul_two (by omega) (by omega)

/-- What one process changes. -/
structure Moves (p : Fin n) (s t : State n) (queue queue' : List (Fin n)) : Prop where
  phases : ∀ q, q ≠ p → t.phase q = s.phase q
  states : ∀ q, q ≠ p → t.procState q = s.procState q
  members : ∀ q, q ≠ p → (q ∈ queue' ↔ q ∈ queue)

theorem Moves.rephase {phase : Phase} (phases : t.phase = update s.phase p phase)
    (states : ∀ q, q ≠ p → t.procState q = s.procState q) (members : ∀ q, q ≠ p → (q ∈ queue' ↔ q ∈ queue)) :
    Moves p s t queue queue' := by
  refine ⟨fun q other => ?_,states,members⟩
  rw [phases,update_of_ne other]

theorem Moves.tally (moves : Moves p s t queue queue') (kind : Phase → Bool → Bool) :
    tally kind t queue' + (kind (s.phase p) (p ∈ queue)).toNat = tally kind s queue + (kind (t.phase p) (p ∈ queue')).toNat := by
  have others : ∀ q, q ≠ p → (kind (t.phase q) (q ∈ queue')).toNat = (kind (s.phase q) (q ∈ queue)).toNat := by
    intro q other
    rw [moves.phases q other,decide_eq_decide.mpr (moves.members q other)]
  exact Slots.sum_change p others

theorem Moves.spare (moves : Moves p s t queue queue') :
    spare t queue' + s.count + queue.length + (isGone (s.phase p) (p ∈ queue)).toNat =
      spare s queue + t.count + queue'.length + (isGone (t.phase p) (p ∈ queue')).toNat := by
  have gones := moves.tally isGone
  rw [Semaphore.spare,Semaphore.spare,gone,gone]
  omega

section
variable (acc : Accounts initial s queue)
include acc

theorem Accounts.pass (free : 0 < s.count) :
    Accounts initial { s with
      count := s.count - 1
      successes := s.successes + 1 } queue := by
  have range := acc.range
  have sum := acc.sum
  have same : spare { s with
      count := s.count - 1
      successes := s.successes + 1 } queue = spare s queue - 1 := by
    simp only [spare,gone,tally]
    omega
  have some : 0 < spare s queue := by
    rw [spare]
    omega
  constructor
  · exact acc.queued
  · exact acc.awake
  · exact acc.late
  · constructor <;> dsimp only <;> omega
  · simp only [woken,tally] at sum ⊢
    omega
  · omega
  · intro asleep
    have zero := acc.asleep asleep
    omega

/-- While no process is late, a down that blocks finds no spare permit. -/
theorem Accounts.spare_eq_zero (full : s.count ≤ 0)
    (none : ∀ q, s.phase q ≠ .late ∧ s.phase q ≠ .leaving) : spare s queue = 0 := by
  by_cases nonempty : queue = []
  · have quiet : gone s queue = 0 := by
      refine gone_eq_zero (fun q => ?_)
      have still := none q
      cases here : s.phase q with
      | late => exact absurd here still.1
      | leaving => exact absurd here still.2
      | _ => rfl
    have permits := acc.permits
    rw [spare,quiet,nonempty] at permits ⊢
    simp only [List.length_nil] at permits ⊢
    omega
  · obtain ⟨q,member⟩ := List.exists_mem_of_ne_nil queue nonempty
    exact acc.asleep ⟨q,member,(acc.queued q member).2.2.resolve_right (none q).1⟩

/-- A move that takes no spare permit, and gives one only while nobody is waiting. -/
theorem Accounts.keep (moves : Moves p s t queue queue') {w g w' g' : Bool}
    (before : isWoken (s.phase p) (p ∈ queue) = w ∧ isGone (s.phase p) (p ∈ queue) = g)
    (after : isWoken (t.phase p) (p ∈ queue') = w' ∧ isGone (t.phase p) (p ∈ queue') = g')
    (queued : p ∈ queue' → t.phase p ≠ .outside ∧ t.phase p ≠ .leaving ∧ (t.procState p = .waiting ∨ t.phase p = .late))
    (awake : p ∉ queue' → t.phase p ≠ .outside → t.procState p ≠ .waiting)
    (late : t.phase p = .late → t.procState p ≠ .waiting) (range : -2^31 ≤ t.count ∧ t.count < 2^31)
    (sum : t.successes + w'.toNat + (t.count + queue'.length + g'.toNat) + s.ups =
      s.successes + w.toNat + (s.count + queue.length + g.toNat) + t.ups)
    (grows : s.count + queue.length + g.toNat ≤ t.count + queue'.length + g'.toNat)
    (asleep : (∃ q ∈ queue', t.procState q = .waiting) → spare s queue = 0 ∧
      t.count + queue'.length + g'.toNat ≤ s.count + queue.length + g.toNat) : Accounts initial t queue' := by
  have wokens := moves.tally isWoken
  have spares := moves.spare
  rw [before.1,after.1] at wokens
  rw [before.2,after.2] at spares
  have total := acc.sum
  have permits := acc.permits
  simp only [woken] at total
  refine ⟨fun q member => ?_,fun q absent => ?_,fun q => ?_,range,?_,by omega,fun waiting => ?_⟩
  · rcases eq_or_ne q p with rfl | same
    · exact queued member
    · rw [moves.phases q same,moves.states q same]
      exact acc.queued q ((moves.members q same).mp member)
  · rcases eq_or_ne q p with rfl | same
    · exact awake absent
    · rw [moves.phases q same,moves.states q same]
      exact acc.awake q (fun member => absent ((moves.members q same).mpr member))
  · rcases eq_or_ne q p with rfl | same
    · exact late
    · rw [moves.phases q same,moves.states q same]
      exact acc.late q
  · rw [woken]
    omega
  · obtain ⟨zero,same⟩ := asleep waiting
    omega

theorem Accounts.block {waiters : WaitQueue.Queue (Fin n)}
    (outside : s.phase p = .outside) {blocked : Phase} (kind : blocked = .downYield ∨ ∃ d, blocked = .loopTest d)
    (low : -2^31 < s.count) (full : s.count ≤ 0) (none : ∀ q, s.phase q ≠ .late ∧ s.phase q ≠ .leaving) :
    Accounts initial { s with
      count := s.count - 1
      waiters := waiters
      procState := update s.procState p .waiting
      phase := update s.phase p blocked } (queue ++ [p]) := by
  have before : isWoken (s.phase p) (p ∈ queue) = false ∧ isGone (s.phase p) (p ∈ queue) = false := by
    simp [outside,isWoken,isGone]
  have now : isWoken (update s.phase p blocked p) (p ∈ queue ++ [p]) = false ∧
      isGone (update s.phase p blocked p) (p ∈ queue ++ [p]) = false := by
    rcases kind with rfl | ⟨d,rfl⟩ <;> simp [isWoken,isGone]
  refine acc.keep (.rephase rfl (fun q other => update_of_ne other ..) (fun q other => by simp [other])) before now
    ?_ (by simp) ?_ (by dsimp only; omega) ?_ ?_ (fun _ => ⟨acc.spare_eq_zero full none,?_⟩)
  · rcases kind with rfl | ⟨d,rfl⟩ <;> simp
  · rcases kind with rfl | ⟨d,rfl⟩ <;> simp
  all_goals
    simp only [List.length_append,List.length_singleton]
    omega

end

theorem Inv.enter (inv : Inv initial s) (outside : s.phase p = .outside) {blocked : Phase}
    (kind : blocked = .downYield ∨ ∃ d, blocked = .loopTest d) (meets : MayBlock s p) :
    Inv initial (enter p blocked s) := by
  obtain ⟨queue,holds,acc⟩ := inv
  obtain ⟨low,free⟩ := meets.resolve_left (not_not.mpr outside)
  have range := acc.range
  have fresh : p ∉ queue := fun member => (acc.queued p member).1 outside
  rw [Semaphore.enter,int32_of_range (by omega) (by omega)]
  split
  · rename_i negative
    dsimp only at negative
    refine ⟨queue ++ [p],holds.add fresh,acc.block outside kind low (by omega) (free.resolve_left (by omega))⟩
  · rename_i positive
    dsimp only at positive
    exact ⟨queue,holds,acc.pass (by omega)⟩

section
variable (acc : Accounts initial s queue) {states : Fin n → ProcState}
include acc

theorem Accounts.succeed (absent : p ∉ queue)
    (was : isWoken (s.phase p) (p ∈ queue) = true ∧ isGone (s.phase p) (p ∈ queue) = false)
    (others : ∀ q, q ≠ p → states q = s.procState q) :
    Accounts initial { s with
      procState := states
      phase := update s.phase p .outside
      successes := s.successes + 1 } queue := by
  have now : isWoken (update s.phase p .outside p) (p ∈ queue) = false ∧
      isGone (update s.phase p .outside p) (p ∈ queue) = false := by simp [isWoken,isGone]
  refine acc.keep (.rephase rfl others (fun _ _ => .rfl)) was now (fun member => absurd member absent) (by simp) (by simp)
    acc.range ?_ (by simp) ?_
  · simp only [Bool.toNat_true,Bool.toNat_false]
    omega
  · rintro ⟨q,member,waiting⟩
    have other : q ≠ p := fun same => absent (same ▸ member)
    exact ⟨acc.asleep ⟨q,member,(others q other).symm.trans waiting⟩,by simp⟩

theorem Accounts.rephase (p : Fin n) (phase : Phase)
    (woken : isWoken phase (p ∈ queue) = isWoken (s.phase p) (p ∈ queue))
    (gone : isGone phase (p ∈ queue) = isGone (s.phase p) (p ∈ queue))
    (queued : p ∈ queue → phase ≠ .outside ∧ phase ≠ .leaving ∧ (states p = .waiting ∨ phase = .late))
    (awake : p ∉ queue → states p ≠ .waiting) (late : phase = .late → states p ≠ .waiting)
    (others : ∀ q, q ≠ p → states q = s.procState q) (still : states p = .waiting → s.procState p = .waiting) :
    Accounts initial { s with
      procState := states
      phase := update s.phase p phase } queue := by
  refine acc.keep (.rephase rfl others (fun _ _ => .rfl)) ⟨rfl,rfl⟩ (by simpa using ⟨woken,gone⟩) (by simpa using queued)
    (fun absent _ => awake absent) (by simpa using late) acc.range (by simp) (by simp) ?_
  rintro ⟨q,member,waiting⟩
  refine ⟨acc.asleep ⟨q,member,?_⟩,by simp⟩
  rcases eq_or_ne q p with rfl | same
  · exact still waiting
  · exact (others q same).symm.trans waiting

theorem Accounts.expire (absent : p ∉ queue)
    (was : isWoken (s.phase p) (p ∈ queue) = true ∧ isGone (s.phase p) (p ∈ queue) = false)
    (nobody : ¬ ∃ q ∈ queue, s.procState q = .waiting) :
    Accounts initial { s with
      procState := update s.procState p .running
      phase := update s.phase p .late } queue := by
  have now : isWoken (update s.phase p .late p) (p ∈ queue) = false ∧
      isGone (update s.phase p .late p) (p ∈ queue) = true := by simp [isWoken,isGone,absent]
  refine acc.keep (.rephase rfl (fun q other => update_of_ne other ..) (fun _ _ => .rfl)) was now
    (fun member => absurd member absent) (by simp) (by simp) acc.range ?_ ?_ ?_
  · simp only
    omega
  · simp
  · rintro ⟨q,member,waiting⟩
    have other : q ≠ p := fun same => absent (same ▸ member)
    exact absurd ⟨q,member,by simpa [other] using waiting⟩ nobody

theorem Accounts.unlink {waiters : WaitQueue.Queue (Fin n)} (distinct : queue.Nodup)
    (was : s.phase p = .late) :
    Accounts initial { s with
      waiters := waiters
      phase := update s.phase p .leaving } (queue.erase p) := by
  have gone : p ∉ queue.erase p := distinct.not_mem_erase
  have now : isWoken (update s.phase p .leaving p) (p ∈ queue.erase p) = false ∧
      isGone (update s.phase p .leaving p) (p ∈ queue.erase p) = true := by simp [isWoken,isGone]
  have size : ((queue.erase p).length : Int) + 1 = queue.length + (isGone (s.phase p) (p ∈ queue)).toNat := by
    rw [was]
    by_cases member : p ∈ queue
    · have positive := List.length_pos_of_mem member
      rw [List.length_erase_of_mem member,decide_eq_true member]
      simp only [isGone,Bool.not_true,Bool.toNat_false]
      omega
    · rw [List.erase_of_not_mem member,decide_eq_false member]
      rfl
  have still : isWoken (s.phase p) (p ∈ queue) = false := by
    rw [was]
    rfl
  refine acc.keep (.rephase rfl (fun _ _ => rfl) (fun q other => List.mem_erase_of_ne other)) ⟨still,rfl⟩ now
    (fun member => absurd member gone) (fun _ _ => acc.late p was) (by simp) acc.range ?_ ?_ ?_
  · simp only [Bool.toNat_true]
    omega
  · simp only [Bool.toNat_true]
    omega
  · rintro ⟨q,member,waiting⟩
    refine ⟨acc.asleep ⟨q,List.mem_of_mem_erase member,waiting⟩,?_⟩
    simp only [Bool.toNat_true]
    omega

theorem Accounts.giveBack (was : s.phase p = .leaving) (room : s.count < 2^31 - 1) :
    Accounts initial { s with
      count := s.count + 1
      phase := update s.phase p .outside } queue := by
  have absent : p ∉ queue := fun member => (acc.queued p member).2.1 was
  have range := acc.range
  have before : isWoken (s.phase p) (p ∈ queue) = false ∧ isGone (s.phase p) (p ∈ queue) = true := by simp [was,isWoken,isGone]
  have now : isWoken (update s.phase p .outside p) (p ∈ queue) = false ∧
      isGone (update s.phase p .outside p) (p ∈ queue) = false := by simp [isWoken,isGone]
  refine acc.keep (.rephase rfl (fun _ _ => rfl) (fun _ _ => .rfl)) before now (fun member => absurd member absent) (by simp)
    (by simp) (by dsimp only; omega) ?_ ?_ (fun waiting => ⟨acc.asleep waiting,?_⟩)
  all_goals
    simp only [Bool.toNat_true,Bool.toNat_false]
    omega

theorem Accounts.wake {waiters : WaitQueue.Queue (Fin n)} (distinct : queue.Nodup)
    (member : p ∈ queue) (waits : s.procState p = .waiting) (room : s.count < 2^31 - 1) :
    Accounts initial { s with
      count := s.count + 1
      waiters := waiters
      procState := update s.procState p .ready
      ups := s.ups + 1 } (queue.erase p) := by
  have gone : p ∉ queue.erase p := distinct.not_mem_erase
  have range := acc.range
  obtain ⟨inside,here,_⟩ := acc.queued p member
  have early : s.phase p ≠ .late := fun late => acc.late p late waits
  have before : isWoken (s.phase p) (p ∈ queue) = false ∧ isGone (s.phase p) (p ∈ queue) = false := by
    rw [decide_eq_true member]
    cases phase : s.phase p with
    | leaving => exact absurd phase here
    | _ => exact ⟨rfl,rfl⟩
  have now : isWoken (s.phase p) (p ∈ queue.erase p) = true ∧ isGone (s.phase p) (p ∈ queue.erase p) = false := by
    rw [decide_eq_false gone]
    cases phase : s.phase p with
    | outside => exact absurd phase inside
    | late => exact absurd phase early
    | leaving => exact absurd phase here
    | _ => exact ⟨rfl,rfl⟩
  have size := List.length_erase_of_mem member
  have positive := List.length_pos_of_mem member
  refine acc.keep ⟨fun _ _ => rfl,fun q other => update_of_ne other ..,fun q other => List.mem_erase_of_ne other⟩
    before now (fun member => absurd member gone) (by simp) (fun late => absurd late early) (by dsimp only; omega) ?_ ?_
    (fun _ => ⟨acc.asleep ⟨p,member,waits⟩,?_⟩)
  all_goals
    simp only [Bool.toNat_true,Bool.toNat_false]
    omega

theorem Accounts.store (nobody : ¬ ∃ q ∈ queue, s.procState q = .waiting)
    (room : s.count < 2^31 - 1) :
    Accounts initial { s with
      count := s.count + 1
      ups := s.ups + 1 } queue := by
  have range := acc.range
  have sum := acc.sum
  have permits := acc.permits
  have same : spare { s with
      count := s.count + 1
      ups := s.ups + 1 } queue = spare s queue + 1 := by
    simp only [spare,gone,tally]
    omega
  refine ⟨acc.queued,acc.awake,acc.late,by dsimp only; omega,?_,by omega,fun waiting => absurd waiting nobody⟩
  simp only [woken,tally] at sum ⊢
  omega

end

theorem Inv.up (inv : Inv initial s) (room : s.count < 2^31 - 1) : ∃ t, semaphoreUp s = some t ∧ Inv initial t := by
  obtain ⟨queue,holds,acc⟩ := inv
  have range := acc.range
  have fits : queue.length ≤ n := by
    have short := holds.distinct.length_le_card
    rwa [Fintype.card_fin] at short
  have found := holds.scan (fun p => decide (s.procState p = .waiting)) fits
  rw [semaphoreUp,int32_of_range (by omega) (by omega)]
  dsimp only
  split
  · rw [found]
    cases first : queue.find? (fun p => decide (s.procState p = .waiting)) with
    | none =>
      have nobody : ¬ ∃ q ∈ queue, s.procState q = .waiting := by
        rintro ⟨q,member,waiting⟩
        exact List.find?_eq_none.mp first q member (decide_eq_true waiting)
      exact ⟨_,rfl,queue,holds,acc.store nobody room⟩
    | some p =>
      have member := List.mem_of_find?_eq_some first
      have waiting := List.find?_some first
      refine ⟨_,rfl,queue.erase p,holds.remove member,?_⟩
      exact acc.wake holds.distinct member (of_decide_eq_true waiting) room
  · rename_i positive
    have nobody : ¬ ∃ q ∈ queue, s.procState q = .waiting := by
      intro waiting
      have zero := acc.asleep waiting
      obtain ⟨q,member,_⟩ := waiting
      have some := List.length_pos_of_mem member
      rw [spare] at zero
      omega
    exact ⟨_,rfl,queue,holds,acc.store nobody room⟩

theorem Accounts.absent (acc : Accounts initial s queue) (awake : s.procState p ≠ .waiting) (early : s.phase p ≠ .late) :
    p ∉ queue := by
  intro member
  rcases (acc.queued p member).2.2 with waiting | late
  · exact awake waiting
  · exact early late

theorem Accounts.present (acc : Accounts initial s queue) (waits : s.procState p = .waiting) (inside : s.phase p ≠ .outside) :
    p ∈ queue := by
  by_contra absent
  exact acc.awake p absent inside waits

theorem nobody_waits_of_passed (holds : WaitQueue.Holds s.waiters queue) {deadline : Option (BitVec 64)} (meets : MayResume s p)
    (here : s.phase p = .loopYield deadline) (awake : s.procState p ≠ .waiting)
    (passed : deadline.any (fun d => s.jiffies ≥ d) = true) : ¬ ∃ q ∈ queue, s.procState q = .waiting := by
  rw [MayResume,here] at meets
  rcases meets with waits | before | free
  · exact absurd waits awake
  · cases deadline with
    | none => cases passed
    | some d =>
      simp only [Option.any_some,Option.all_some,decide_eq_true_eq] at passed before
      exact absurd before (BitVec.not_lt.mpr passed)
  · rintro ⟨q,member,waiting⟩
    exact free ⟨q,holds.linked_iff.mpr member,waiting⟩

theorem Inv.resume (inv : Inv initial s) (meets : MayResume s p) : Inv initial (resume p s) := by
  have kept := inv
  obtain ⟨queue,holds,acc⟩ := inv
  rw [Semaphore.resume]
  cases here : s.phase p with
  | outside => exact kept
  | downYield =>
    dsimp only
    split
    · exact kept
    · rename_i awake
      have absent := acc.absent awake (by rw [here]; nofun)
      exact ⟨queue,holds,acc.succeed absent (by simp [here,absent,isWoken,isGone]) (fun q other => update_of_ne other ..)⟩
  | loopTest deadline =>
    dsimp only
    split
    · rename_i waits
      have member := acc.present waits (by rw [here]; nofun)
      refine ⟨queue,holds,acc.rephase p (.loopYield deadline) (by simp [here,isWoken]) (by simp [here,isGone]) ?_ ?_ nofun
        (fun _ _ => rfl) id⟩
      · exact fun _ => ⟨nofun,nofun,.inl waits⟩
      · exact fun absent => absurd member absent
    · rename_i awake
      have absent := acc.absent awake (by rw [here]; nofun)
      exact ⟨queue,holds,acc.succeed absent (by simp [here,absent,isWoken,isGone]) (fun _ _ => rfl)⟩
  | loopYield deadline =>
    dsimp only
    split
    · exact kept
    · rename_i awake
      have absent := acc.absent awake (by rw [here]; nofun)
      split
      case isTrue passed =>
        have nobody := nobody_waits_of_passed holds meets here awake passed
        exact ⟨queue,holds,acc.expire absent (by simp [here,absent,isWoken,isGone]) nobody⟩
      · exact ⟨queue,holds,acc.rephase p (.loopTest deadline) (by simp [here,isWoken]) (by simp [here,isGone])
          (fun member => absurd member absent) (by simp) nofun (fun q other => update_of_ne other ..) (by simp)⟩
  | late =>
    refine ⟨queue.erase p,?_,acc.unlink holds.distinct here⟩
    by_cases member : p ∈ queue
    · rw [if_pos (holds.linked_iff.mpr member)]
      exact holds.remove member
    · rw [if_neg (fun linked => member (holds.linked_iff.mp linked)),List.erase_of_not_mem member]
      exact holds
  | leaving =>
    have range := acc.range
    have room : s.count < 2^31 - 1 := by
      rw [MayResume,here] at meets
      exact meets
    rw [int32_of_range (by omega) (by omega)]
    exact ⟨queue,holds,acc.giveBack here room⟩

theorem Inv.timeout (inv : Inv initial s) (p : Fin n) : Inv initial (timeout p s) := by
  have kept := inv
  obtain ⟨queue,holds,acc⟩ := inv
  rw [Semaphore.timeout]
  split
  · rename_i d here
    split
    · rename_i due
      have member := acc.present due.1 (by rw [here]; nofun)
      exact ⟨queue,holds,acc.rephase p .late (by simp [here,member,isWoken]) (by simp [here,member,isGone])
        (fun _ => ⟨nofun,nofun,.inr rfl⟩) (fun absent => absurd member absent) (by simp) (fun q other => update_of_ne other ..)
        (fun _ => due.1)⟩
    · exact kept
  · exact kept

theorem inv_step (s : State n) (a : Request n) (inv : Inv initial s) (meets : Meets s a) :
    ∃ t, step s a = some t ∧ Inv initial t := by
  cases a with
  | down p =>
    by_cases outside : s.phase p = .outside
    · exact ⟨_,if_pos outside,inv.enter outside (.inl rfl) meets⟩
    · exact ⟨s,if_neg outside,inv⟩
  | downTimeout p ms =>
    by_cases outside : s.phase p = .outside
    · exact ⟨_,if_pos outside,inv.enter outside (.inr ⟨_,rfl⟩) meets⟩
    · exact ⟨s,if_neg outside,inv⟩
  | up => exact inv.up meets
  | resume p => exact ⟨_,rfl,inv.resume meets⟩
  | timeout p => exact ⟨_,rfl,inv.timeout p⟩
  | tick =>
    obtain ⟨queue,holds,acc⟩ := inv
    exact ⟨_,rfl,queue,holds,acc.queued,acc.awake,acc.late,acc.range,acc.sum,acc.permits,acc.asleep⟩

theorem init_inv (low : 0 ≤ initial) (high : initial < 2^31) : Inv initial (semaphoreInit initial : State n) := by
  have none : ∀ kind : Phase → Bool → Bool, kind .outside false = false →
      tally kind (semaphoreInit initial : State n) [] = 0 := by
    intro kind outside
    exact Finset.sum_eq_zero (fun q _ => by rw [semaphoreInit]; simp [outside])
  have spares : spare (semaphoreInit initial : State n) [] = initial := by
    rw [spare,gone,none isGone rfl]
    simp [semaphoreInit]
  refine ⟨[],WaitQueue.waitQueueInit_holds,nofun,fun _ _ inside => absurd rfl inside,nofun,⟨?_,high⟩,?_,?_,nofun⟩
  · exact le_trans (by decide) low
  · rw [spares,woken,none isWoken rfl]
    simp [semaphoreInit]
  · rw [spares]
    exact low

end

/-- In every run that meets the condition no more downs succeed than the count allows, and a negative count is that of the queue. -/
theorem semaphore_run_counts (n : Nat) (initial : Int) (low : 0 ≤ initial) (high : initial < 2^31)
    (requests : List (Request n)) (guarded : Guarded step Meets (semaphoreInit initial) requests) :
    ∃ s, run step (semaphoreInit initial) requests = some s ∧ Sound initial s := by
  obtain ⟨s,ran,inv⟩ := run_invariant inv_step requests _ (init_inv low high) guarded
  exact ⟨s,ran,inv.sound⟩

def timedWait : List (Request 3) :=
  [.down 0,.downTimeout 1 1,.down 2,.resume 1,.tick,.timeout 1,.up,.resume 1,.resume 1,.resume 2]

theorem semaphore_run_counts_of_timedWait : Guarded step Meets (semaphoreInit 1) timedWait ∧
    ∃ s, run step (semaphoreInit 1) timedWait = some s ∧ Sound 1 s := by
  have guarded : Guarded step Meets (semaphoreInit 1) timedWait := by decide +kernel
  exact ⟨guarded,semaphore_run_counts 3 1 (by decide) (by decide) timedWait guarded⟩

/-- A process with a deadline and one without block, an up wakes the first one, which resumes
    after its deadline and gives the permit back: nobody is on the way out of a call, one
    process waits, and the count is 0. -/
theorem semaphore_strands :
    (run step (semaphoreInit 0 : State 2)
        [.downTimeout 0 1,.down 1,.resume 0,.up,.tick,.resume 0,.resume 0,.resume 0]).map
      (fun s => (decide (Quiet s),s.waiters.head,s.waiters.tail,s.count)) = some (true,some 1,some 1,0) := by
  decide +kernel

end Kenux.Semaphore
