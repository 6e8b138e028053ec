import Kenux.CfsTree
import Kenux.Runs
import Kenux.Words

/-!
The fair scheduler (`cfs.c`) on its global run queue. The enqueued tasks sit in a red-black
tree in the order of their virtual run times, and the task to run next is the leftmost one.
That choice is right in every run (`cfs_run_picks_least`) in which tasks are initialised while
none is enqueued, ticks keep the running task in its place among the enqueued ones, and no
insertion climbs to a red root; `cfs_pick_wrong` breaks each of the three.
-/
namespace Kenux.Cfs
open Kenux.Trees Kenux.TreeHeap Kenux.CfsTree Kenux.Words Kenux.Runs
open Kenux.Trees.ColorTree (toList)
open Function (update update_self update_of_ne)

def weights : List Nat :=
  [88761,71755,56483,46273,36291,29154,23254,18705,14949,11916,9548,7620,6100,4904,3906,3121,2501,1991,1586,1277,1024,820,
    655,526,423,335,272,215,172,137,110,87,70,56,45,36,29,23,18,15]

def cfsNiceMin : Int := -20
def cfsNiceMax : Int := 19
def cfsNice0Load : Nat := 1024
def cfsTargetLatency : Nat := 2000000
def cfsTickNsec : Nat := 1000000

def cfsNiceToWeight (nice : Int) : Nat :=
  let nice := if nice < cfsNiceMin then cfsNiceMin else nice
  let nice := if nice > cfsNiceMax then cfsNiceMax else nice
  weights.getD (nice - cfsNiceMin).toNat 0

/-- A task without its tree node, which is in the memory of the tree. -/
structure Task where
  vruntime : Nat
  sumExecRuntime : Nat
  nice : Int
  loadWeight : Nat
  onRq : Nat

/-- The run queue, the memory of the tasks, and the static variables. The node of a
    task is its first field, so one pointer stands for both. -/
structure Rq where
  tree : RbTree
  rbtreeInitialized : Bool
  curr : Ptr
  idle : Ptr
  minVruntime : Nat
  execClock : Nat
  nrRunning : Nat
  nrTasks : Nat
  tasks : Nat → Task
  jiffies : Nat

/-- `__node_key`; only nodes of tasks are compared. -/
def nodeKey (tasks : Nat → Task) : Ptr → Nat
  | .task n => (tasks n).vruntime
  | _ => 0

def Rq.task (rq : Rq) : Ptr → Option Task
  | .task n => some (rq.tasks n)
  | _ => none

def Rq.setTask (rq : Rq) (n : Nat) (task : Task) : Rq := { rq with tasks := update rq.tasks n task }

def zeroNode : Node Ptr := ⟨.null,.null,.null,.black⟩

def rbtreeInit (rq : Rq) : Rq :=
  let heap := if rq.rbtreeInitialized then rq.tree.heap else update rq.tree.heap .sentinel zeroNode
  { rq with
    tree := ⟨heap,.sentinel⟩
    rbtreeInitialized := true }

def cfsInit (rq : Rq) : Rq :=
  { rbtreeInit rq with
    minVruntime := 0
    execClock := 0
    nrRunning := 0
    nrTasks := 0
    curr := .null
    idle := .null }

def cfsTaskInit (n : Nat) (nice : Int) (rq : Rq) : Rq :=
  -- the `memset` clears the node as well
  let rq := { rq with tree := { rq.tree with heap := update rq.tree.heap (.task n) zeroNode } }
  let rq := rbtreeInit rq
  rq.setTask n ⟨rq.minVruntime,0,nice,cfsNiceToWeight nice,0⟩

/-- The task with a virtual run time not too far behind. -/
def clamped (rq : Rq) (task : Task) : Task :=
  if task.vruntime < sub64 rq.minVruntime (cfsTargetLatency * 4) then
    { task with vruntime := sub64 rq.minVruntime (cfsTargetLatency * 4) }
  else task

def cfsEnqueueTask (fuel n : Nat) (rq : Rq) : Option Rq :=
  if (rq.tasks n).onRq ≠ 0 then some rq
  else do
    let rq := rq.setTask n (clamped rq (rq.tasks n))
    let tree ← rbtreeInsert (nodeKey rq.tasks) fuel (.task n) rq.tree
    let rq := rq.setTask n { rq.tasks n with onRq := 1 }
    some { rq with
      tree := tree
      nrRunning := (rq.nrRunning + 1) % 2^32
      nrTasks := (rq.nrTasks + 1) % 2^32 }

def cfsDequeueTask (fuel n : Nat) (rq : Rq) : Option Rq :=
  if (rq.tasks n).onRq = 0 then some rq
  else do
    let tree ← rbtreeDelete fuel (.task n) rq.tree
    let rq := rq.setTask n { rq.tasks n with onRq := 0 }
    some { rq with
      tree := tree
      nrRunning := (rq.nrRunning + (2^32 - 1)) % 2^32 }

def cfsPickNextTask (fuel : Nat) (rq : Rq) : Option Ptr := do
  let node ← rbtreeMin fuel rq.tree
  some (if node = .null then rq.idle else node)

def deltaExec (task : Task) (deltaNs : Nat) : Nat :=
  if task.loadWeight ≠ cfsNice0Load then deltaNs * cfsNice0Load % 2^64 / task.loadWeight else deltaNs

/-- A weight of zero is a fault of the division. -/
def cfsAccountExec (n deltaNs : Nat) (rq : Rq) : Option Rq :=
  let task := rq.tasks n
  if task.loadWeight = 0 then none
  else
    let rq := rq.setTask n { task with
      vruntime := add64 task.vruntime (deltaExec task deltaNs)
      sumExecRuntime := add64 task.sumExecRuntime deltaNs }
    some { rq with execClock := add64 rq.execClock deltaNs }

/-- `if (p && p->vruntime > rq->min_vruntime) rq->min_vruntime = p->vruntime;` -/
def raiseMin (p : Ptr) (rq : Rq) : Option Rq :=
  if p = .null then some rq
  else do
    let task ← rq.task p
    some (if task.vruntime > rq.minVruntime then { rq with minVruntime := task.vruntime } else rq)

def cfsUpdateMinVruntime (fuel : Nat) (rq : Rq) : Option Rq := do
  let rq ← raiseMin (← rbtreeMin fuel rq.tree) rq
  raiseMin rq.curr rq

/-- The comparison of the next task with the running one decides nothing in the code. -/
def cfsSchedulerTick (fuel : Nat) (rq : Rq) : Option Rq :=
  let rq := { rq with jiffies := add64 rq.jiffies 1 }
  match rq.curr with
  | .null => some rq
  | .sentinel => none
  | .task n => do
    let rq ← cfsAccountExec n cfsTickNsec rq
    let _ ← cfsPickNextTask fuel rq
    cfsUpdateMinVruntime fuel rq

inductive Request where
  | init (n : Nat) (nice : Int)
  | enqueue (n : Nat)
  | dequeue (n : Nat)
  /-- The owner of the run queue stores the running task in it. -/
  | setCurr (p : Ptr)
  | account (n deltaNs : Nat)
  | updateMin
  | tick
  | pick
  deriving DecidableEq, Repr

/-- The run queue, the initialised tasks, and those enqueued and not dequeued since. -/
structure State where
  rq : Rq
  inited : List Nat
  queued : List Nat

def step (fuel : Nat) (s : State) : Request → Option State
  | .init n nice => some { s with rq := cfsTaskInit n nice s.rq, inited := n :: s.inited }
  | .enqueue n => do
    some { s with rq := ← cfsEnqueueTask fuel n s.rq, queued := if n ∈ s.queued then s.queued else n :: s.queued }
  | .dequeue n => do some { s with rq := ← cfsDequeueTask fuel n s.rq, queued := s.queued.erase n }
  | .setCurr p => some { s with rq := { s.rq with curr := p } }
  | .account n deltaNs => do some { s with rq := ← cfsAccountExec n deltaNs s.rq }
  | .updateMin => do some { s with rq := ← cfsUpdateMinVruntime fuel s.rq }
  | .tick => do some { s with rq := ← cfsSchedulerTick fuel s.rq }
  | .pick => do
    let _ ← cfsPickNextTask fuel s.rq
    some s

/-- The static variables of the kernel, over any contents of the memory. -/
def boot (memory : Ptr → Node Ptr) (tasks : Nat → Task) : Rq :=
  { tree := ⟨memory,.null⟩
    rbtreeInitialized := false
    curr := .null
    idle := .null
    minVruntime := 0
    execClock := 0
    nrRunning := 0
    nrTasks := 0
    tasks := tasks
    jiffies := 0 }

/-- The run queue after `cfs_init`, with the idle task that its owner stores in it. -/
def start (memory : Ptr → Node Ptr) (tasks : Nat → Task) (idle : Ptr) : State :=
  ⟨{ cfsInit (boot memory tasks) with idle := idle },[],[]⟩

/-- Each task is initialised once, before it is used. -/
def Legal (s : State) : Request → Prop
  | .init n _ => n ∉ s.inited
  | .enqueue n => n ∈ s.inited
  | .dequeue n => n ∈ s.inited
  | .setCurr p => p = .null ∨ p ∈ s.inited.map .task
  | .account n _ => n ∈ s.inited
  | .updateMin => True
  | .tick => True
  | .pick => True

instance (s : State) (a : Request) : Decidable (Legal s a) :=
  match a with
  | .init n _ => inferInstanceAs (Decidable (n ∉ s.inited))
  | .enqueue n | .dequeue n | .account n _ => inferInstanceAs (Decidable (n ∈ s.inited))
  | .setCurr _ => inferInstanceAs (Decidable (_ ∨ _))
  | .updateMin | .tick | .pick => inferInstanceAs (Decidable True)

/-- The insertion of a task does not climb to a red root. -/
def clearAbove (fuel n : Nat) (rq : Rq) : Bool :=
  (descend (nodeKey (rq.setTask n (clamped rq (rq.tasks n))).tasks) (.task n) rq.tree fuel .sentinel rq.tree.root).all
    (fun y => !redChain rq.tree fuel y)

/-- Charging the task with so much time keeps it in its place among the enqueued tasks. -/
def KeepsPlace (s : State) (deltaNs : Nat) : Ptr → Prop
  | .task c =>
    let before := (s.rq.tasks c).vruntime
    let after := add64 before (deltaExec (s.rq.tasks c) deltaNs)
    c ∈ s.queued → ∀ n ∈ s.queued, n ≠ c →
      ((s.rq.tasks n).vruntime ≤ before → (s.rq.tasks n).vruntime ≤ after) ∧
        (before ≤ (s.rq.tasks n).vruntime → after ≤ (s.rq.tasks n).vruntime)
  | _ => True

instance (s : State) (deltaNs : Nat) (p : Ptr) : Decidable (KeepsPlace s deltaNs p) :=
  match p with
  | .task _ => inferInstanceAs (Decidable (_ → ∀ n ∈ s.queued, _ → _ ∧ _))
  | .null | .sentinel => inferInstanceAs (Decidable True)

/-- Tasks are initialised while none is enqueued, insertions do not climb to a red
    root, and charges do not change the order of the enqueued tasks. -/
def Meets (fuel : Nat) (s : State) : Request → Prop
  | .init _ _ => s.queued = []
  | .enqueue n => n ∉ s.queued → clearAbove fuel n s.rq
  | .account n deltaNs => KeepsPlace s deltaNs (.task n)
  | .tick => KeepsPlace s cfsTickNsec s.rq.curr
  | _ => True

instance (fuel : Nat) (s : State) (a : Request) : Decidable (Meets fuel s a) :=
  match a with
  | .init _ _ => inferInstanceAs (Decidable (s.queued = []))
  | .enqueue _ => inferInstanceAs (Decidable (_ → _))
  | .account n deltaNs => inferInstanceAs (Decidable (KeepsPlace s deltaNs (.task n)))
  | .tick => inferInstanceAs (Decidable (KeepsPlace s cfsTickNsec s.rq.curr))
  | .dequeue _ | .setCurr _ | .updateMin | .pick => inferInstanceAs (Decidable True)

/-- The choice of the next task: an enqueued task with the least virtual run time, or
    the idle task if none is enqueued. -/
def Chooses (fuel : Nat) (s : State) : Prop :=
  ∃ p, cfsPickNextTask fuel s.rq = some p ∧ (s.queued = [] → p = s.rq.idle) ∧
    (s.queued ≠ [] → ∃ n ∈ s.queued, p = .task n ∧ ∀ m ∈ s.queued, (s.rq.tasks n).vruntime ≤ (s.rq.tasks m).vruntime)

instance (fuel : Nat) (s : State) : Decidable (Chooses fuel s) :=
  match picked : cfsPickNextTask fuel s.rq with
  | none => .isFalse (fun ⟨p,same,_⟩ => by rw [picked] at same; cases same)
  | some p =>
    decidable_of_iff ((s.queued = [] → p = s.rq.idle) ∧ (s.queued ≠ [] → ∃ n ∈ s.queued, p = .task n ∧
        ∀ m ∈ s.queued, (s.rq.tasks n).vruntime ≤ (s.rq.tasks m).vruntime))
      ⟨fun right => ⟨p,picked,right⟩,fun ⟨q,same,right⟩ => by rw [picked] at same; cases same; exact right⟩

/-- The tree holds the enqueued tasks in the order of their virtual run times. -/
def Ordered (tree : RbTree) (tasks : Nat → Task) (queued : List Nat) : Prop :=
  ∃ u, At tree [] u ∧ Sorted (nodeKey tasks) u ∧ u.toList.Perm (queued.map .task)

/-- After `n` steps the tree is ordered, and the tasks know whether they are in it. -/
structure Inv (n : Nat) (s : State) : Prop where
  ordered : Ordered s.rq.tree s.rq.tasks s.queued
  size : s.queued.length ≤ n
  weight : ∀ m ∈ s.inited, (s.rq.tasks m).loadWeight ≠ 0
  onRq : ∀ m ∈ s.inited, (s.rq.tasks m).onRq ≠ 0 ↔ m ∈ s.queued
  inside : ∀ m ∈ s.queued, m ∈ s.inited
  curr : s.rq.curr = .null ∨ s.rq.curr ∈ s.inited.map .task

section
variable {fuel n m c deltaNs : Nat} {tree : RbTree} {tasks tasks' : Nat → Task} {rq : Rq} {queued known : List Nat}
  {s t : State} {task : Task}

private theorem le_cfsNiceToWeight (nice : Int) : 15 ≤ cfsNiceToWeight nice := by
  have least : ∀ i < 40, 15 ≤ weights.getD i 0 := by decide
  apply least
  simp only [cfsNiceMin,cfsNiceMax]
  split_ifs <;> omega

private theorem clamped_weight (rq : Rq) (task : Task) : (clamped rq task).loadWeight = task.loadWeight := by
  unfold clamped
  split <;> rfl

theorem Inv.more (inv : Inv n s) : Inv (n+1) s := { inv with size := Nat.le_succ_of_le inv.size }

section
variable (ordered : Ordered tree tasks queued)
include ordered

theorem Ordered.change
    (keeps : ∀ a ∈ queued, ∀ b ∈ queued, (tasks a).vruntime ≤ (tasks b).vruntime → (tasks' a).vruntime ≤ (tasks' b).vruntime) :
    Ordered tree tasks' queued := by
  obtain ⟨u,held,sorted,perm⟩ := ordered
  refine ⟨u,held,List.Pairwise.imp_of_mem ?_ sorted,perm⟩
  intro p q inP inQ before
  obtain ⟨a,inA,rfl⟩ := List.mem_map.mp (perm.mem_iff.mp inP)
  obtain ⟨b,inB,rfl⟩ := List.mem_map.mp (perm.mem_iff.mp inQ)
  exact keeps a inA b inB before

theorem Ordered.congr (same : ∀ a ∈ queued, (tasks' a).vruntime = (tasks a).vruntime) :
    Ordered tree tasks' queued := by
  refine ordered.change (fun a inA b inB before => ?_)
  rw [same a inA,same b inB]
  exact before

theorem Ordered.nodup : queued.Nodup := by
  obtain ⟨u,held,-,perm⟩ := ordered
  exact List.Nodup.of_map _ (perm.nodup_iff.mp held.focus.distinct)

theorem Ordered.min (enough : queued.length ≤ fuel) :
    ∃ p, rbtreeMin fuel tree = some p ∧ (queued = [] → p = .null) ∧
      (queued ≠ [] → ∃ n ∈ queued, p = .task n ∧ ∀ m ∈ queued, (tasks n).vruntime ≤ (tasks m).vruntime) := by
  obtain ⟨u,held,sorted,perm⟩ := ordered
  have size : u.toList.length ≤ fuel := by
    rw [perm.length_eq,List.length_map]
    exact enough
  refine ⟨_,rbtreeMin_spec held size,?_,?_⟩
  · rintro rfl
    rw [perm.eq_nil]
    rfl
  · intro present
    cases order : u.toList with
    | nil =>
      rw [order] at perm
      exact absurd (List.map_eq_nil_iff.mp perm.nil_eq.symm) present
    | cons p rest =>
      rw [Sorted,order,List.pairwise_cons] at sorted
      rw [order] at perm
      obtain ⟨n,inside,rfl⟩ := List.mem_map.mp (perm.mem_iff.mp (List.mem_cons_self))
      refine ⟨n,inside,rfl,fun m member => ?_⟩
      rcases List.mem_cons.mp (perm.mem_iff.mpr (List.mem_map.mpr ⟨m,member,rfl⟩)) with same | later
      · rw [Ptr.task.inj same]
      · exact sorted.1 _ later

theorem Ordered.insert (absent : n ∉ queued) (enough : queued.length < fuel)
    (clear : ∀ y, descend (nodeKey tasks) (.task n) tree fuel .sentinel tree.root = some y → redChain tree fuel y = false) :
    ∃ tree', rbtreeInsert (nodeKey tasks) fuel (.task n) tree = some tree' ∧ Ordered tree' tasks (n :: queued) := by
  obtain ⟨u,held,sorted,perm⟩ := ordered
  obtain ⟨tree',v,run,linked,-⟩ := rbtreeInsert_spec ⟨held,sorted,perm⟩ absent enough (.inr clear)
  exact ⟨tree',run,v,linked.held,linked.sorted,linked.perm⟩

theorem Ordered.delete (member : n ∈ queued) (enough : queued.length ≤ fuel) :
    ∃ tree', rbtreeDelete fuel (.task n) tree = some tree' ∧ Ordered tree' tasks (queued.erase n) := by
  obtain ⟨u,held,sorted,perm⟩ := ordered
  obtain ⟨tree',v,run,linked,-⟩ := rbtreeDelete_spec ⟨held,sorted,perm⟩ member enough
  exact ⟨tree',run,v,linked.held,linked.sorted,linked.perm⟩

end

/-- The least virtual run time of the queue is raised, or stays. -/
structure Raised (rq : Rq) (known : List Nat) (least : Nat) : Prop where
  grows : rq.minVruntime ≤ least
  named : least = rq.minVruntime ∨ ∃ k ∈ known, least = (rq.tasks k).vruntime

theorem raiseMin_spec (rq : Rq) {p : Ptr} (inside : p = .null ∨ p ∈ known.map .task) :
    ∃ least, raiseMin p rq = some { rq with minVruntime := least } ∧ Raised rq known least := by
  rcases inside with rfl | member
  · exact ⟨rq.minVruntime,rfl,Nat.le_refl _,.inl rfl⟩
  · obtain ⟨k,inside,rfl⟩ := List.mem_map.mp member
    by_cases greater : (rq.tasks k).vruntime > rq.minVruntime
    · exact ⟨_,by simp [raiseMin,Rq.task,greater],Nat.le_of_lt greater,.inr ⟨k,inside,rfl⟩⟩
    · exact ⟨rq.minVruntime,by simp [raiseMin,Rq.task,greater],Nat.le_refl _,.inl rfl⟩

theorem cfsUpdateMinVruntime_spec (ordered : Ordered rq.tree rq.tasks queued) (enough : queued.length ≤ fuel)
    (inside : ∀ k ∈ queued, k ∈ known) (curr : rq.curr = .null ∨ rq.curr ∈ known.map .task) :
    ∃ least, cfsUpdateMinVruntime fuel rq = some { rq with minVruntime := least } ∧ Raised rq known least := by
  obtain ⟨p,run,empty,present⟩ := ordered.min enough
  have knownP : p = .null ∨ p ∈ known.map .task := by
    by_cases none : queued = []
    · exact .inl (empty none)
    · obtain ⟨k,member,same,-⟩ := present none
      exact .inr (List.mem_map.mpr ⟨k,inside k member,same.symm⟩)
  obtain ⟨least,raised,first⟩ := raiseMin_spec rq knownP
  obtain ⟨least',raised',second⟩ := raiseMin_spec { rq with minVruntime := least } curr
  refine ⟨least',by simp [cfsUpdateMinVruntime,run,raised,raised'],Nat.le_trans first.grows second.grows,?_⟩
  rcases second.named with rfl | later
  · exact first.named
  · exact .inr later

private theorem cfsSchedulerTick_running (isCurr : rq.curr = .task c) : cfsSchedulerTick fuel rq =
    (cfsAccountExec c cfsTickNsec { rq with jiffies := add64 rq.jiffies 1 }).bind (fun rq =>
      (cfsPickNextTask fuel rq).bind (fun _ => cfsUpdateMinVruntime fuel rq)) := by
  cases rq
  cases isCurr
  rfl

theorem account_ordered (ordered : Ordered s.rq.tree s.rq.tasks s.queued) (keeps : KeepsPlace s deltaNs (.task c))
    (accounted : (tasks' c).vruntime = add64 (s.rq.tasks c).vruntime (deltaExec (s.rq.tasks c) deltaNs))
    (others : ∀ k, k ≠ c → tasks' k = s.rq.tasks k) : Ordered s.rq.tree tasks' s.queued := by
  refine ordered.change (fun a inA b inB before => ?_)
  by_cases isA : a = c
  · by_cases isB : b = c
    · rw [isA,isB]
    · subst isA
      rw [accounted,others b isB]
      exact (keeps inA b inB isB).2 before
  · rw [others a isA]
    by_cases isB : b = c
    · subst isB
      rw [accounted]
      exact (keeps inB a inA isA).1 before
    · rw [others b isB]
      exact before

/-- What `cfs_account_exec` makes of the run queue. -/
@[irreducible] def charged (c deltaNs : Nat) (rq : Rq) : Rq :=
  { rq.setTask c { rq.tasks c with
      vruntime := add64 (rq.tasks c).vruntime (deltaExec (rq.tasks c) deltaNs)
      sumExecRuntime := add64 (rq.tasks c).sumExecRuntime deltaNs } with
    execClock := add64 rq.execClock deltaNs }

private theorem cfsAccountExec_eq (weight : (rq.tasks c).loadWeight ≠ 0) : cfsAccountExec c deltaNs rq = some (charged c deltaNs rq) := by
  simp only [cfsAccountExec,if_neg weight,charged,Rq.setTask]

@[simp] theorem charged_tree : (charged c deltaNs rq).tree = rq.tree := by simp only [charged,Rq.setTask]

@[simp] theorem charged_curr : (charged c deltaNs rq).curr = rq.curr := by simp only [charged,Rq.setTask]

@[simp] theorem charged_min : (charged c deltaNs rq).minVruntime = rq.minVruntime := by simp only [charged,Rq.setTask]

private theorem charged_tasks : (charged c deltaNs rq).tasks = update rq.tasks c { rq.tasks c with
    vruntime := add64 (rq.tasks c).vruntime (deltaExec (rq.tasks c) deltaNs)
    sumExecRuntime := add64 (rq.tasks c).sumExecRuntime deltaNs } := by simp only [charged,Rq.setTask]

private theorem charged_of_ne {k : Nat} (other : k ≠ c) : (charged c deltaNs rq).tasks k = rq.tasks k := by
  simp [charged,Rq.setTask,other]

section
variable (inv : Inv n s)
include inv

theorem chooses_of_inv (enough : n ≤ fuel) : Chooses fuel s := by
  obtain ⟨p,run,empty,least⟩ := inv.ordered.min (Nat.le_trans inv.size enough)
  by_cases none : s.queued = []
  · exact ⟨s.rq.idle,by simp [cfsPickNextTask,run,empty none],fun _ => rfl,fun some => absurd none some⟩
  · obtain ⟨m,inside,rfl,smallest⟩ := least none
    exact ⟨.task m,by simp [cfsPickNextTask,run],fun some => absurd some none,fun _ => ⟨m,inside,rfl,smallest⟩⟩

theorem init_inv {nice : Int} (fresh : m ∉ s.inited) (none : s.queued = []) :
    ∃ s', step fuel s (.init m nice) = some s' ∧ Inv (n+1) s' := by
  have black : ((cfsTaskInit m nice s.rq).tree.heap .sentinel).color = .black := by
    obtain ⟨u,held,-,-⟩ := inv.ordered
    simp only [cfsTaskInit,rbtreeInit,Rq.setTask]
    split
    · simpa using held.sentinel
    · simp [zeroNode]
  have others : ∀ k ∈ s.inited, (cfsTaskInit m nice s.rq).tasks k = s.rq.tasks k := by
    intro k old
    have apart := ne_of_mem_of_not_mem old fresh
    simp [cfsTaskInit,rbtreeInit,Rq.setTask,apart]
  refine ⟨_,rfl,⟨.nil,⟨⟨trivial,trivial,rfl,by simp [plug,toList]⟩,by simp [plug,toList],black⟩,?_,?_⟩,?_,?_,?_,?_,?_⟩
  · simp [Sorted,toList]
  · simp [none,toList]
  · simp [none]
  · refine List.forall_mem_cons.mpr ⟨?_,fun k old => by simpa [others k old] using inv.weight k old⟩
    simpa [cfsTaskInit,Rq.setTask] using Nat.ne_of_gt (Nat.lt_of_lt_of_le (by decide) (le_cfsNiceToWeight nice))
  · refine List.forall_mem_cons.mpr ⟨?_,fun k old => by simpa [others k old] using inv.onRq k old⟩
    simp [cfsTaskInit,Rq.setTask,none]
  · simp [none]
  · exact inv.curr.imp_right (fun member => List.mem_cons_of_mem _ member)

theorem enqueue_inv (ready : m ∈ s.inited) (enough : n < fuel)
    (clear : m ∉ s.queued → clearAbove fuel m s.rq) : ∃ s', step fuel s (.enqueue m) = some s' ∧ Inv (n+1) s' := by
  have onRq := inv.onRq m ready
  by_cases enqueued : m ∈ s.queued
  · exact ⟨s,by simp [step,cfsEnqueueTask,onRq.mpr enqueued,enqueued],inv.more⟩
  have off : (s.rq.tasks m).onRq = 0 := by
    by_contra on
    exact enqueued (onRq.mp on)
  obtain ⟨rq,raised⟩ : ∃ rq, rq = s.rq.setTask m (clamped s.rq (s.rq.tasks m)) := ⟨_,rfl⟩
  have others : ∀ k, k ≠ m → rq.tasks k = s.rq.tasks k := by
    intro k apart
    rw [raised]
    exact update_of_ne apart _ _
  have weight : (rq.tasks m).loadWeight = (s.rq.tasks m).loadWeight := by
    simp [raised,Rq.setTask,clamped_weight]
  have sameTree : rq.tree = s.rq.tree := by rw [raised]; rfl
  have ordered : Ordered s.rq.tree rq.tasks s.queued := by
    refine inv.ordered.congr (fun k member => ?_)
    rw [others k (ne_of_mem_of_not_mem member enqueued)]
  obtain ⟨tree,run,ordered'⟩ := ordered.insert enqueued (Nat.lt_of_le_of_lt inv.size enough) (fun y found => by
    have above := clear enqueued
    rw [clearAbove,← raised,found] at above
    simpa using above)
  have stepped : step fuel s (.enqueue m) = some ⟨{ rq.setTask m { rq.tasks m with onRq := 1 } with
      tree := tree
      nrRunning := (rq.nrRunning + 1) % 2^32
      nrTasks := (rq.nrTasks + 1) % 2^32 },s.inited,m :: s.queued⟩ := by
    simp only [step,cfsEnqueueTask,off,ne_eq,not_true_eq_false,if_false,← raised,sameTree,run,enqueued]
    rfl
  refine ⟨_,stepped,?_,?_,?_,?_,?_,?_⟩
  · refine ordered'.congr (fun k _ => ?_)
    by_cases same : k = m
    · simp [Rq.setTask,same]
    · simp [Rq.setTask,same]
  · simpa using inv.size
  · intro k member
    by_cases same : k = m
    · simpa [Rq.setTask,same,weight] using inv.weight m ready
    · simpa [Rq.setTask,same,others k same] using inv.weight k member
  · intro k member
    by_cases same : k = m
    · simp [Rq.setTask,same]
    · simpa [Rq.setTask,same,others k same] using inv.onRq k member
  · exact List.forall_mem_cons.mpr ⟨ready,inv.inside⟩
  · rw [raised]
    exact inv.curr

theorem dequeue_inv (ready : m ∈ s.inited) (enough : n < fuel) :
    ∃ s', step fuel s (.dequeue m) = some s' ∧ Inv (n+1) s' := by
  have onRq := inv.onRq m ready
  by_cases enqueued : m ∈ s.queued
  · obtain ⟨tree,run,ordered⟩ := inv.ordered.delete enqueued (Nat.le_of_lt (Nat.lt_of_le_of_lt inv.size enough))
    have distinct := inv.ordered.nodup
    have stepped : step fuel s (.dequeue m) = some ⟨{ s.rq.setTask m { s.rq.tasks m with onRq := 0 } with
        tree := tree
        nrRunning := (s.rq.nrRunning + (2^32 - 1)) % 2^32 },s.inited,s.queued.erase m⟩ := by
      simp only [step,cfsDequeueTask,onRq.mpr enqueued,if_false,run]
      rfl
    refine ⟨_,stepped,?_,?_,?_,?_,?_,inv.curr⟩
    · refine ordered.congr (fun k member => ?_)
      have apart := ne_of_mem_of_not_mem member distinct.not_mem_erase
      simp [Rq.setTask,apart]
    · exact Nat.le_trans List.length_erase_le (Nat.le_succ_of_le inv.size)
    · dsimp only [Rq.setTask]
      exact update_cases (fun _ => inv.weight m ready) (fun k _ => inv.weight k)
    · dsimp only [Rq.setTask]
      simp only [distinct.mem_erase_iff]
      exact update_cases (by simp) (fun k other member => by simpa [other] using inv.onRq k member)
    · intro k member
      exact inv.inside k (List.mem_of_mem_erase member)
  · have off : (s.rq.tasks m).onRq = 0 := by
      by_contra on
      exact enqueued (onRq.mp on)
    exact ⟨s,by simp [step,cfsDequeueTask,off,List.erase_of_not_mem enqueued],inv.more⟩

theorem Inv.charged (ready : c ∈ s.inited) (keeps : KeepsPlace s deltaNs (.task c)) :
    Inv n { s with rq := charged c deltaNs s.rq } := by
  refine ⟨?_,inv.size,?_,?_,inv.inside,by simpa using inv.curr⟩
  · rw [charged_tree]
    refine account_ordered inv.ordered keeps ?_ (fun k other => charged_of_ne other)
    simp [charged_tasks]
  · intro k member
    by_cases isC : k = c
    · simpa [isC,charged_tasks] using inv.weight c ready
    · simpa [charged_of_ne isC] using inv.weight k member
  · intro k member
    by_cases isC : k = c
    · simpa [isC,charged_tasks] using inv.onRq c ready
    · simpa [charged_of_ne isC] using inv.onRq k member

theorem Inv.updateMin (enough : n ≤ fuel) : ∃ least, cfsUpdateMinVruntime fuel s.rq = some { s.rq with minVruntime := least } ∧
    Raised s.rq s.inited least :=
  cfsUpdateMinVruntime_spec inv.ordered (Nat.le_trans inv.size enough) inv.inside inv.curr

/-- The queue before `cfs_scheduler_tick` updates the least virtual run time. -/
def ticked (c : Nat) (rq : Rq) : Rq := Cfs.charged c cfsTickNsec { rq with jiffies := add64 rq.jiffies 1 }

theorem tick_running (enough : n < fuel) (isCurr : s.rq.curr = .task c) (ready : c ∈ s.inited)
    (keeps : KeepsPlace s cfsTickNsec (.task c)) : Inv n { s with rq := ticked c s.rq } ∧
      ∃ least, step fuel s .tick = some { s with rq := { ticked c s.rq with minVruntime := least } } ∧
        Raised (ticked c s.rq) s.inited least := by
  have later : Inv n { s with rq := { s.rq with jiffies := add64 s.rq.jiffies 1 } } := { inv with }
  have after : Inv n { s with rq := ticked c s.rq } := later.charged ready keeps
  obtain ⟨p,picked,-⟩ := chooses_of_inv after (Nat.le_of_lt enough)
  obtain ⟨least,updated,raised⟩ := after.updateMin (Nat.le_of_lt enough)
  have account : cfsAccountExec c cfsTickNsec { s.rq with jiffies := add64 s.rq.jiffies 1 } = some (ticked c s.rq) :=
    cfsAccountExec_eq (inv.weight c ready)
  refine ⟨after,least,?_,raised⟩
  simp only [step,cfsSchedulerTick_running isCurr,account,Option.bind_some,picked,updated,Option.bind_eq_bind]

theorem tick_inv (enough : n < fuel) (keeps : KeepsPlace s cfsTickNsec s.rq.curr) :
    ∃ s', step fuel s .tick = some s' ∧ Inv (n+1) s' := by
  rcases inv.curr with idle | running
  · exact ⟨{ s with rq := { s.rq with jiffies := add64 s.rq.jiffies 1 } },by simp [step,cfsSchedulerTick,idle],{ inv.more with }⟩
  · obtain ⟨c,ready,isCurr⟩ := List.mem_map.mp running
    obtain ⟨after,least,stepped,-⟩ := tick_running inv enough isCurr.symm ready (isCurr ▸ keeps)
    exact ⟨_,stepped,{ after.more with }⟩

end

theorem step_inv (n : Nat) (s : State) (a : Request) (enough : n < fuel) (inv : Inv n s) (ok : Legal s a ∧ Meets fuel s a) :
    ∃ s', step fuel s a = some s' ∧ Inv (n+1) s' := by
  obtain ⟨legal,meets⟩ := ok
  cases a with
  | init m nice => exact init_inv inv legal meets
  | enqueue m => exact enqueue_inv inv legal enough meets
  | dequeue m => exact dequeue_inv inv legal enough
  | setCurr p => exact ⟨_,rfl,{ inv.more with curr := legal }⟩
  | account m deltaNs =>
    exact ⟨_,by simp only [step,cfsAccountExec_eq (inv.weight m legal)]; rfl,(inv.charged legal meets).more⟩
  | updateMin =>
    obtain ⟨least,updated,-⟩ := inv.updateMin (Nat.le_of_lt enough)
    refine ⟨{ s with rq := { s.rq with minVruntime := least } },?_,{ inv.more with }⟩
    simp only [step,updated]
    rfl
  | tick => exact tick_inv inv enough meets
  | pick =>
    obtain ⟨p,picked,-⟩ := chooses_of_inv inv (Nat.le_of_lt enough)
    exact ⟨s,by simp [step,picked],inv.more⟩

theorem start_inv (memory : Ptr → Node Ptr) (tasks : Nat → Task) (idle : Ptr) : Inv 0 (start memory tasks idle) := by
  refine ⟨⟨.nil,⟨⟨trivial,trivial,rfl,by simp [plug,toList]⟩,by simp [plug,toList],?_⟩,?_,?_⟩,?_,?_,?_,?_,?_⟩
  · simp [start,cfsInit,rbtreeInit,boot,zeroNode]
  all_goals simp [start,cfsInit,rbtreeInit,boot,Sorted,toList]

/-- In every run that meets the condition a pick is an enqueued task of least virtual run time, or the idle task if there is none. -/
theorem cfs_run_picks_least (memory : Ptr → Node Ptr) (tasks : Nat → Task) (idle : Ptr) (requests : List Request) (fuel : Nat)
    (enough : requests.length ≤ fuel)
    (guarded : Guarded (step fuel) (fun s a => Legal s a ∧ Meets fuel s a) (start memory tasks idle) requests) :
    ∃ s, run (step fuel) (start memory tasks idle) requests = some s ∧ Chooses fuel s := by
  obtain ⟨s,run,inv⟩ := run_counted step_inv requests 0 _ (by omega) (start_inv memory tasks idle) guarded
  exact ⟨s,run,chooses_of_inv inv (by omega)⟩

/-- A task is placed when the queue's time has passed the latency it may lag by, and tasks are charged while the
    slowest task's time is in range, with times whose product with a weight is. -/
def InTime (s : State) : Request → Prop
  | .enqueue n => (s.rq.tasks n).onRq = 0 → cfsTargetLatency * 4 ≤ s.rq.minVruntime
  | .account _ deltaNs => cfsNice0Load * (s.rq.execClock + deltaNs) < 15 * 2^64 ∧ deltaNs * cfsNice0Load < 2^64
  | .tick => cfsNice0Load * (s.rq.execClock + cfsTickNsec) < 15 * 2^64
  | _ => True

instance (s : State) (a : Request) : Decidable (InTime s a) :=
  match a with
  | .enqueue _ => inferInstanceAs (Decidable (_ → _))
  | .account _ _ => inferInstanceAs (Decidable (_ ∧ _))
  | .tick => inferInstanceAs (Decidable (_ < _))
  | .init _ _ | .dequeue _ | .setCurr _ | .updateMin | .pick => .isTrue trivial

/-- The request charges the task with so much time. -/
def Charges (s : State) (a : Request) (c deltaNs : Nat) : Prop :=
  a = .account c deltaNs ∨ (a = .tick ∧ s.rq.curr = .task c ∧ deltaNs = cfsTickNsec)

/-- What a step does to virtual time, in numbers that do not wrap. -/
structure Timely (s t : State) (a : Request) : Prop where
  least : s.rq.minVruntime ≤ t.rq.minVruntime
  placed : ∀ n, a = .enqueue n → (t.rq.tasks n).vruntime ≤ max (s.rq.tasks n).vruntime s.rq.minVruntime
  charged : ∀ c deltaNs, Charges s a c deltaNs →
    (t.rq.tasks c).vruntime = (s.rq.tasks c).vruntime + deltaNs * cfsNice0Load / (s.rq.tasks c).loadWeight

/-- No time on the virtual clock is more than the lightest task would have got. -/
structure Clock (s : State) : Prop where
  weights : ∀ n ∈ s.inited, 15 ≤ (s.rq.tasks n).loadWeight
  behind : ∀ n ∈ s.inited, 15 * (s.rq.tasks n).vruntime ≤ cfsNice0Load * s.rq.execClock
  least : 15 * s.rq.minVruntime ≤ cfsNice0Load * s.rq.execClock
  time : cfsNice0Load * s.rq.execClock < 15 * 2^64

private theorem deltaExec_eq (task : Task) (small : deltaNs * cfsNice0Load < 2^64) :
    deltaExec task deltaNs = deltaNs * cfsNice0Load / task.loadWeight := by
  unfold deltaExec
  split
  · rw [Nat.mod_eq_of_lt small]
  · rename_i same
    rw [not_not.mp same,Nat.mul_div_cancel _ (by decide)]

section
variable (clock : Clock s)
include clock

theorem Clock.put (tasks : t.rq.tasks = update s.rq.tasks m task)
    (inited : ∀ k ∈ t.inited, k = m ∨ k ∈ s.inited) (now : s.rq.execClock ≤ t.rq.execClock)
    (time : cfsNice0Load * t.rq.execClock < 15 * 2^64) (least : t.rq.minVruntime = s.rq.minVruntime)
    (weight : 15 ≤ task.loadWeight) (value : 15 * task.vruntime ≤ cfsNice0Load * t.rq.execClock) : Clock t := by
  have later : cfsNice0Load * s.rq.execClock ≤ cfsNice0Load * t.rq.execClock := Nat.mul_le_mul_left _ now
  refine ⟨?_,?_,least ▸ Nat.le_trans clock.least later,time⟩
  · rw [tasks]
    exact update_cases (fun _ => weight) (fun k other member => clock.weights k ((inited k member).resolve_left other))
  · rw [tasks]
    refine update_cases (fun _ => value) (fun k other member => ?_)
    exact Nat.le_trans (clock.behind k ((inited k member).resolve_left other)) later

theorem Clock.placed (room : cfsTargetLatency * 4 ≤ s.rq.minVruntime) (task : Task) :
    (clamped s.rq task).vruntime ≤ max task.vruntime s.rq.minVruntime := by
  have least := clock.least
  have time := clock.time
  unfold clamped
  rw [sub64_of_le room (by simp only [cfsNice0Load] at least time; omega)]
  split
  · exact Nat.le_trans (Nat.sub_le ..) (Nat.le_max_right ..)
  · exact Nat.le_max_left ..

theorem Clock.enqueue (ready : m ∈ s.inited)
    (tasks : t.rq.tasks = update s.rq.tasks m { task with onRq := 1 }) (inited : t.inited = s.inited)
    (now : t.rq.execClock = s.rq.execClock) (least : t.rq.minVruntime = s.rq.minVruntime)
    (weight : task.loadWeight = (s.rq.tasks m).loadWeight)
    (placed : task.vruntime ≤ max (s.rq.tasks m).vruntime s.rq.minVruntime) : Clock t ∧ Timely s t (.enqueue m) := by
  have behind := clock.behind m ready
  have early := clock.least
  refine ⟨clock.put tasks (fun k member => .inr (inited ▸ member)) (Nat.le_of_eq now.symm) (now ▸ clock.time) least
    (weight ▸ clock.weights m ready) (by rw [now]; dsimp only; omega),Nat.le_of_eq least.symm,?_,nofun⟩
  rintro k ⟨⟩
  rw [tasks,update_self]
  exact placed

theorem Clock.charge (inTime : cfsNice0Load * (s.rq.execClock + deltaNs) < 15 * 2^64) (small : deltaNs * cfsNice0Load < 2^64)
    (ready : c ∈ s.inited) : Clock { s with rq := charged c deltaNs s.rq } ∧ ((charged c deltaNs s.rq).tasks c).vruntime =
      (s.rq.tasks c).vruntime + deltaNs * cfsNice0Load / (s.rq.tasks c).loadWeight := by
  have light : 15 * (deltaNs * cfsNice0Load / (s.rq.tasks c).loadWeight) ≤ deltaNs * cfsNice0Load :=
    Nat.le_trans (Nat.mul_le_mul_right _ (clock.weights c ready)) (Nat.mul_div_le ..)
  have here := clock.behind c ready
  have time := inTime
  simp only [cfsNice0Load,Nat.mul_add] at light here time
  have now : (charged c deltaNs s.rq).execClock = s.rq.execClock + deltaNs := by
    simp only [charged]
    exact add64_of_lt (by omega)
  have value : add64 (s.rq.tasks c).vruntime (deltaExec (s.rq.tasks c) deltaNs) =
      (s.rq.tasks c).vruntime + deltaNs * cfsNice0Load / (s.rq.tasks c).loadWeight := by
    rw [deltaExec_eq _ small]
    exact add64_of_lt (by simp only [cfsNice0Load]; omega)
  refine ⟨clock.put (m := c) charged_tasks (fun k member => .inr member) ?_ (now ▸ inTime) charged_min (clock.weights c ready) ?_,
    by simpa [charged_tasks] using value⟩
  · exact now ▸ Nat.le_add_right ..
  · rw [value,now]
    simp only [cfsNice0Load,Nat.mul_add]
    omega

theorem Clock.raise {least : Nat} (raised : Raised s.rq s.inited least) :
    Clock { s with rq := { s.rq with minVruntime := least } } := by
  refine ⟨clock.weights,clock.behind,?_,clock.time⟩
  rcases raised.named with rfl | ⟨k,member,rfl⟩
  · exact clock.least
  · exact clock.behind k member

end

theorem step_clock (n : Nat) (s t : State) (a : Request) (enough : n < fuel) (inv : Inv n s) (clock : Clock s)
    (ok : (Legal s a ∧ Meets fuel s a) ∧ InTime s a) (stepped : step fuel s a = some t) : Clock t ∧ Timely s t a := by
  obtain ⟨⟨legal,meets⟩,inTime⟩ := ok
  cases a with
  | init m nice =>
    cases stepped
    refine ⟨clock.put rfl (fun k => List.mem_cons.mp) (Nat.le_refl _) clock.time rfl (le_cfsNiceToWeight nice) ?_,
      Nat.le_refl _,nofun,nofun⟩
    exact clock.least
  | enqueue m =>
    obtain ⟨rq,run,same⟩ := Option.bind_eq_some_iff.mp stepped
    cases same
    unfold cfsEnqueueTask at run
    split at run
    · cases run
      exact ⟨{ clock with },Nat.le_refl _,by rintro n ⟨⟩; exact Nat.le_max_left ..,nofun⟩
    · rename_i off
      obtain ⟨tree,_,done⟩ := Option.bind_eq_some_iff.mp run
      cases done
      exact clock.enqueue legal (by simp [Rq.setTask]) rfl rfl rfl (clamped_weight ..)
        (clock.placed (inTime (not_not.mp off)) _)
  | dequeue m =>
    obtain ⟨rq,run,same⟩ := Option.bind_eq_some_iff.mp stepped
    cases same
    unfold cfsDequeueTask at run
    split at run
    · cases run
      exact ⟨{ clock with },Nat.le_refl _,nofun,nofun⟩
    · obtain ⟨tree,_,done⟩ := Option.bind_eq_some_iff.mp run
      cases done
      exact ⟨clock.put rfl (fun k member => .inr member) (Nat.le_refl _) clock.time rfl (clock.weights m legal)
        (clock.behind m legal),Nat.le_refl _,nofun,nofun⟩
  | setCurr p =>
    cases stepped
    exact ⟨{ clock with },Nat.le_refl _,nofun,nofun⟩
  | account m deltaNs =>
    simp only [step,cfsAccountExec_eq (inv.weight m legal)] at stepped
    cases stepped
    obtain ⟨kept,value⟩ := clock.charge inTime.1 inTime.2 legal
    refine ⟨kept,by simp,nofun,?_⟩
    rintro c d (same | ⟨no,-⟩)
    · cases same
      exact value
    · cases no
  | updateMin =>
    obtain ⟨least,updated,raised⟩ := inv.updateMin (Nat.le_of_lt enough)
    simp only [step,updated] at stepped
    cases stepped
    exact ⟨clock.raise raised,raised.grows,nofun,nofun⟩
  | tick =>
    rcases inv.curr with idle | running
    · simp only [step,cfsSchedulerTick,idle] at stepped
      cases stepped
      exact ⟨{ clock with },Nat.le_refl _,nofun,by
        rintro c deltaNs (no | ⟨-,isCurr,-⟩)
        · cases no
        · cases idle.symm.trans isCurr⟩
    · obtain ⟨c,ready,isCurr⟩ := List.mem_map.mp running
      obtain ⟨-,least,ran,raised⟩ := tick_running inv enough isCurr.symm ready (isCurr ▸ meets)
      cases stepped.symm.trans ran
      have later : Clock { s with rq := { s.rq with jiffies := add64 s.rq.jiffies 1 } } := { clock with }
      have small : cfsTickNsec * cfsNice0Load < 2^64 := by decide
      obtain ⟨kept,value⟩ := later.charge inTime small ready
      refine ⟨kept.raise raised,by simpa [ticked] using raised.grows,nofun,?_⟩
      rintro d deltaNs (no | ⟨-,same,rfl⟩)
      · cases no
      · cases same.symm.trans isCurr.symm
        exact value
  | pick =>
    obtain ⟨_,_,same⟩ := Option.bind_eq_some_iff.mp stepped
    cases same
    exact ⟨clock,Nat.le_refl _,nofun,nofun⟩

/-- In such a run, while tasks are placed late enough and the clock is in range, no step
    makes the least virtual run time smaller, places a task after it, or charges a task
    with a time that wraps. -/
theorem cfs_run_in_time (memory : Ptr → Node Ptr) (tasks : Nat → Task) (idle : Ptr) (before : List Request) (a : Request)
    (fuel : Nat) (enough : before.length < fuel) (guarded : Guarded (step fuel)
      (fun s a => (Legal s a ∧ Meets fuel s a) ∧ InTime s a) (start memory tasks idle) (before ++ [a])) :
    ∃ s t, run (step fuel) (start memory tasks idle) before = some s ∧ step fuel s a = some t ∧ Timely s t a := by
  obtain ⟨early,late⟩ := guarded.split before [a]
  have keeps : ∀ n s a, n < fuel → Inv n s ∧ Clock s → (Legal s a ∧ Meets fuel s a) ∧ InTime s a →
      ∃ t, step fuel s a = some t ∧ Inv (n+1) t ∧ Clock t := by
    rintro n s a more ⟨inv,clock⟩ ok
    obtain ⟨t,stepped,next⟩ := step_inv n s a more inv ok.1
    exact ⟨t,stepped,next,(step_clock n s t a more inv clock ok stepped).1⟩
  have clock : Clock (start memory tasks idle) := ⟨nofun,nofun,by simp [start,cfsInit],by simp [start,cfsInit]⟩
  obtain ⟨s,ran,inv,clock⟩ := run_counted keeps before 0 _ (by omega) ⟨start_inv memory tasks idle,clock⟩ early
  have ok := (late s ran).1
  obtain ⟨t,stepped,-⟩ := step_inv _ s a (by omega) inv ok.1
  exact ⟨s,t,ran,stepped,(step_clock _ s t a (by omega) inv clock ok stepped).2⟩

end

def blank : State := start (fun _ => zeroNode) (fun _ => ⟨0,0,0,0,0⟩) (.task 0)

theorem cfs_run_picks_least_of_tick : ∃ s, run (step 11) blank [.init 1 0, .init 2 5, .init 3 (-5), .setCurr (.task 3),
    .enqueue 1, .tick, .enqueue 2, .enqueue 3, .dequeue 2, .tick, .pick] = some s ∧ Chooses 11 s :=
  cfs_run_picks_least _ _ _ _ 11 (by decide) (by decide +kernel)

theorem cfs_run_in_time_of_tick : ∃ s t, run (step 4) blank [.init 1 19, .setCurr (.task 1), .tick] = some s ∧
    step 4 s (.enqueue 1) = some t ∧ Timely s t (.enqueue 1) :=
  cfs_run_in_time _ _ _ [.init 1 19, .setCurr (.task 1), .tick] _ 4 (by decide) (by decide +kernel)

/-- The first task is placed at the end of virtual time. -/
theorem cfs_place_wraps : Guarded (step 2) Legal blank [.init 1 0, .enqueue 1] ∧
    ∃ s t, run (step 2) blank [.init 1 0] = some s ∧ step 2 s (.enqueue 1) = some t ∧ ¬ Timely s t (.enqueue 1) := by
  have late : ((run (step 2) blank [.init 1 0]).bind fun s => (step 2 s (.enqueue 1)).map fun t =>
      decide (max (s.rq.tasks 1).vruntime s.rq.minVruntime < (t.rq.tasks 1).vruntime)) = some true := by decide +kernel
  obtain ⟨s,ran,rest⟩ := Option.bind_eq_some_iff.mp late
  obtain ⟨t,stepped,later⟩ := Option.map_eq_some_iff.mp rest
  refine ⟨by decide +kernel,s,t,ran,stepped,fun timely => ?_⟩
  exact absurd (timely.placed 1 rfl) (Nat.not_le.mpr (of_decide_eq_true later))

def initTwice : List Request := [.init 1 0, .enqueue 1, .init 2 0]

def tickQueued : List Request := [.init 1 0, .init 2 0, .enqueue 1, .enqueue 2, .setCurr (.task 1), .tick]

def redRoot : List Request := [.init 1 0, .init 2 0, .init 3 0, .enqueue 1, .enqueue 2, .dequeue 1, .enqueue 3]

/-- The initialisation of a task empties the tree, a tick does not move the task whose
    key it changes, and the insertion below a red root reads through `NULL`. -/
theorem cfs_pick_wrong :
    (Guarded (step 10) Legal blank initTwice ∧ ∃ s, run (step 10) blank initTwice = some s ∧ ¬ Chooses 10 s) ∧
    (Guarded (step 10) Legal blank tickQueued ∧ ∃ s, run (step 10) blank tickQueued = some s ∧ ¬ Chooses 10 s) ∧
    (Guarded (step 10) Legal blank redRoot ∧ ¬ ∃ s, run (step 10) blank redRoot = some s ∧ Chooses 10 s) := by
  have wrong : ∀ requests, (run (step 10) blank requests).map (fun s => decide (Chooses 10 s)) = some false →
      ∃ s, run (step 10) blank requests = some s ∧ ¬ Chooses 10 s :=
    fun _ observed => run_shows _ _ observed (fun _ => of_decide_eq_false)
  refine ⟨⟨by decide +kernel,wrong _ (by decide +kernel)⟩,⟨by decide +kernel,wrong _ (by decide +kernel)⟩,by decide +kernel,?_⟩
  rintro ⟨s,ran,-⟩
  have faults : (run (step 10) blank redRoot).isSome = false := by decide +kernel
  rw [ran] at faults
  cases faults

end Kenux.Cfs
