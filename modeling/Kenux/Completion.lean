import Kenux.Scheduler
import Kenux.WaitQueue
import Mathlib.Data.Fintype.Card

/-!
A completion (`sync.c`), a flag beside a wait queue. `completion_wait` tests the flag and queues its
node under the lock under which `completion_complete` sets the flag and wakes the queue. So no
wake-up is lost and one call wakes all (`completion_run_woken`), in every interleaving in which a process comes back from
`process_yield` only once its node, which lies on its stack, is unlinked.
-/
namespace Kenux.Completion
open Kenux.Runs Kenux.WaitQueue
open Function (update update_self update_of_ne)
open Scheduler (ProcState)

variable {n : Nat}

/-- The completion, the states of the processes, and which of them are in `completion_wait`. -/
structure State (n : Nat) where
  done : Bool
  waiters : Queue (Fin n)
  procState : Fin n → ProcState
  inside : Fin n → Bool

def start (procState : Fin n → ProcState) : State n := ⟨false,waitQueueInit,procState,fun _ => false⟩

def completionWait (p : Fin n) (s : State n) : State n :=
  if s.done then s
  else { s with
    waiters := wqAdd s.waiters p
    procState := update s.procState p .waiting
    inside := update s.inside p true }

/-- The loop of `completion_complete`, over so many nodes; `none` if it does not end. -/
def wakeLoop : Nat → Option (Fin n) → State n → Option (State n)
  | _, none, s => some s
  | 0, some _, _ => none
  | fuel+1, some node, s =>
    let next := s.waiters.next node
    wakeLoop fuel next (if s.procState node = .waiting then
      { s with waiters := wqRemove s.waiters node, procState := update s.procState node .ready } else s)

def completionComplete (s : State n) : Option (State n) :=
  if s.done then some s else wakeLoop n s.waiters.head { s with done := true }

/-- A process comes back from `process_yield`; other code changes the state of a process. -/
inductive Request (n : Nat) where
  | wait (p : Fin n)
  | complete
  | resume (p : Fin n)
  | schedule (p : Fin n) (x : ProcState)

def step (s : State n) : Request n → Option (State n)
  | .wait p => if s.inside p then some s else some (completionWait p s)
  | .complete => completionComplete s
  | .resume p => some { s with inside := update s.inside p false }
  | .schedule p x => some { s with procState := update s.procState p x }

/-- A node is unlinked before it is given up, and only the call itself makes its process wait. -/
def meets (s : State n) : Request n → Bool
  | .resume p => !wqLinked s.waiters p
  | .schedule p x => !s.inside p || x ≠ .waiting
  | _ => true

/-- The queue is a list of nodes of processes inside, among them all that wait for what is not done. -/
def Inv (s : State n) : Prop :=
  ∃ nodes, Holds s.waiters nodes ∧ (∀ p ∈ nodes, s.inside p = true) ∧
    ∀ p, s.inside p = true → s.procState p = .waiting → p ∈ nodes ∧ s.done = false

/-- The processes that wait are made ready and their nodes are taken out; the others stay. -/
structure Woken (s t : State n) (past rest : List (Fin n)) : Prop where
  done : t.done = s.done
  inside : t.inside = s.inside
  queue : Holds t.waiters (past ++ rest.filter (s.procState · ≠ .waiting))
  states : ∀ p, t.procState p = if p ∈ rest ∧ s.procState p = .waiting then .ready else s.procState p

theorem wakeLoop_woken {s : State n} {past rest : List (Fin n)} {fuel : Nat} (holds : Holds s.waiters (past ++ rest))
    (enough : rest.length ≤ fuel) : ∃ t, wakeLoop fuel rest.head? s = some t ∧ Woken s t past rest := by
  induction rest generalizing past fuel s with
  | nil => exact ⟨s,by cases fuel <;> rfl,rfl,rfl,holds,fun p => by simp⟩
  | cons a rest ih =>
    obtain ⟨fuel,rfl⟩ : ∃ f, fuel = f + 1 := ⟨fuel - 1,by rw [List.length_cons] at enough; omega⟩
    have short : rest.length ≤ fuel := Nat.le_of_succ_le_succ enough
    have fresh := (List.nodup_cons.mp (List.nodup_middle.mp holds.distinct)).1
    have other : ∀ p ∈ rest, p ≠ a := fun p member same => fresh (List.mem_append_right past (same ▸ member))
    rw [List.head?_cons,wakeLoop,Links.linked_next_at holds.linked]
    split
    case isTrue waits =>
      have removed := holds.remove (List.mem_append_right past List.mem_cons_self)
      rw [List.erase_append_right _ (fresh ∘ List.mem_append_left rest),List.erase_cons_head] at removed
      obtain ⟨t,ran,woken⟩ := ih (s := { s with waiters := wqRemove s.waiters a, procState := update s.procState a .ready }) removed short
      have same : rest.filter (update s.procState a .ready · ≠ .waiting) = rest.filter (s.procState · ≠ .waiting) :=
        List.filter_congr fun p member => by simp [other p member]
      refine ⟨t,ran,woken.done,woken.inside,?_,fun p => ?_⟩
      · rw [List.filter_cons_of_neg (by simp [waits]),← same]
        exact woken.queue
      · rw [woken.states p]
        by_cases here : p = a
        · simp [here,waits]
        · simp [here]
    case isFalse idle =>
      rw [List.append_cons] at holds
      obtain ⟨t,ran,woken⟩ := ih holds short
      refine ⟨t,ran,woken.done,woken.inside,?_,fun p => ?_⟩
      · rw [List.filter_cons_of_pos (by simp [idle]),List.append_cons]
        exact woken.queue
      · rw [woken.states p]
        by_cases here : p = a
        · simp [here,idle]
        · simp [here]

/-- The completion is done, and whoever waited for it is ready and out of the queue; the others are as before. -/
def Completes (s t : State n) : Prop :=
  t.done = true ∧ t.inside = s.inside ∧ ∀ p, if s.inside p = true ∧ s.procState p = .waiting then
    t.procState p = .ready ∧ wqLinked t.waiters p = false
  else t.procState p = s.procState p ∧ wqLinked t.waiters p = wqLinked s.waiters p

theorem completionComplete_completes {s : State n} (inv : Inv s) : ∃ t, completionComplete s = some t ∧ Inv t ∧ Completes s t := by
  obtain ⟨nodes,holds,inside,awaited⟩ := inv
  unfold completionComplete
  split_ifs with finished
  · refine ⟨s,rfl,⟨nodes,holds,inside,awaited⟩,finished,rfl,fun p => ?_⟩
    rw [if_neg fun ⟨here,waits⟩ => by simp [finished] at awaited; exact awaited p here waits]
    exact ⟨rfl,rfl⟩
  · have short : nodes.length ≤ n := by simpa using holds.distinct.length_le_card
    rw [Links.linked_head holds.linked]
    obtain ⟨t,ran,woken⟩ := @wakeLoop_woken n { s with done := true } [] nodes n holds short
    have queue : Holds t.waiters (nodes.filter (s.procState · ≠ .waiting)) := woken.queue
    have linked : ∀ p, wqLinked t.waiters p = true ↔ p ∈ nodes ∧ s.procState p ≠ .waiting := by
      intro p
      rw [queue.linked_iff,List.mem_filter,decide_eq_true_eq]
    refine ⟨t,ran,⟨_,queue,fun p member => ?_,fun p here waits => ?_⟩,woken.done,woken.inside,fun p => ?_⟩
    · rw [woken.inside]
      exact inside p (List.mem_of_mem_filter member)
    · rw [woken.inside] at here
      rw [woken.states] at waits
      split at waits
      · cases waits
      case isFalse away => exact absurd ⟨(awaited p here waits).1,waits⟩ away
    · split
      case isTrue here =>
        refine ⟨(woken.states p).trans (if_pos ⟨(awaited p here.1 here.2).1,here.2⟩),?_⟩
        rw [Bool.eq_false_iff,ne_eq,linked]
        exact fun kept => kept.2 here.2
      case isFalse away =>
        have apart : ¬ (p ∈ nodes ∧ s.procState p = .waiting) := fun both => away ⟨inside p both.1,both.2⟩
        refine ⟨(woken.states p).trans (if_neg apart),Bool.eq_iff_iff.mpr ?_⟩
        rw [linked,holds.linked_iff]
        exact ⟨And.left,fun member => ⟨member,fun waits => apart ⟨member,waits⟩⟩⟩

theorem inv_step (s : State n) (a : Request n) (inv : Inv s) (ok : meets s a) : ∃ t, step s a = some t ∧ Inv t := by
  obtain ⟨nodes,holds,inside,awaited⟩ := inv
  cases a with
  | wait p =>
    rw [step,completionWait]
    split_ifs with entered finished
    · exact ⟨s,rfl,nodes,holds,inside,awaited⟩
    · exact ⟨s,rfl,nodes,holds,inside,awaited⟩
    · refine ⟨_,rfl,nodes ++ [p],holds.add (fun member => entered (inside p member)),?_,?_⟩
      · intro q member
        by_cases same : q = p
        · simp [same]
        · simp_all
      · intro q here waits
        by_cases same : q = p
        · simp_all
        · simp_all
  | complete =>
    obtain ⟨t,ran,kept,-⟩ := completionComplete_completes ⟨nodes,holds,inside,awaited⟩
    exact ⟨t,ran,kept⟩
  | resume p =>
    have unlinked : p ∉ nodes := fun member => by simp [meets,holds.linked_iff.mpr member] at ok
    refine ⟨_,rfl,nodes,holds,?_,?_⟩
    · intro q member
      have other : q ≠ p := fun same => unlinked (same ▸ member)
      simp [other,inside q member]
    · intro q here waits
      by_cases same : q = p
      · simp [same] at here
      · exact awaited q (by simpa [same] using here) waits
  | schedule p x =>
    refine ⟨_,rfl,nodes,holds,inside,fun q here waits => awaited q here ?_⟩
    by_cases same : q = p
    · simp_all [meets]
    · simpa [same] using waits

/-- Over all interleavings a process that waits inside the call does so while the completion is not done and with its
    node in the queue, and a call of `completion_complete` is the end of it. -/
theorem completion_run_woken (procState : Fin n → ProcState) (requests : List (Request n))
    (guarded : Guarded step (fun s a => meets s a) (start procState) requests) :
    ∃ s, run step (start procState) requests = some s ∧
      (∀ p, s.inside p = true → s.procState p = .waiting → s.done = false ∧ wqLinked s.waiters p = true) ∧
      ∃ t, completionComplete s = some t ∧ Completes s t := by
  have begins : Inv (start procState) := ⟨[],waitQueueInit_holds,nofun,nofun⟩
  obtain ⟨s,ran,inv⟩ := run_invariant inv_step requests _ begins guarded
  obtain ⟨t,completed,-,completes⟩ := completionComplete_completes inv
  obtain ⟨nodes,holds,_,awaited⟩ := inv
  refine ⟨s,ran,fun p here waits => ?_,t,completed,completes⟩
  obtain ⟨member,early⟩ := awaited p here waits
  exact ⟨early,holds.linked_iff.mpr member⟩

theorem completion_run_woken_two : ∃ s t : State 2,
    run step (start fun _ => .running) [.wait 0,.wait 1,.schedule 0 .ready] = some s ∧ wqLinked s.waiters 1 = true ∧
      completionComplete s = some t ∧ t.done = true ∧ t.procState 1 = .ready ∧ wqLinked t.waiters 1 = false := by
  obtain ⟨s,ran,kept,t,completed,done,_,woken⟩ :=
    completion_run_woken (fun _ => .running) [.wait (0 : Fin 2),.wait 1,.schedule 0 .ready] (by decide +kernel)
  have waits : s.inside 1 = true ∧ s.procState 1 = .waiting := by
    cases ran
    exact ⟨rfl,rfl⟩
  have woken := woken 1
  rw [if_pos waits] at woken
  exact ⟨s,t,ran,(kept 1 waits.1 waits.2).2,completed,done,woken⟩

end Kenux.Completion
