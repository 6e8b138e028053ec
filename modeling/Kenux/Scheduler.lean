import Kenux.Runs

/-!
The process table (`process.c`) and the state changes of the wait and signal code
(`wait.c`, `signal.c`). `process_yield` makes the process that calls it ready whenever
it switches to another one, whatever its state (`yield_revives`). `scheduler_run_proper`: in
every run where a process that yields to another one is ready or running, `process_yield`
revives no process, only the current process is running, and the process chosen is the first
ready one in cyclic order. So no ready process starves (`process_yield_serves`).
-/
namespace Kenux.Scheduler
open Kenux.Runs

def processMax : Nat := 256

inductive ProcState where
  | ready
  | running
  | sleeping
  | waiting
  | zombie
  | stopped
  | dead
  | unused
  deriving DecidableEq, Repr

structure Table where
  state : Nat → ProcState
  count : Nat
  current : Nat

variable (t : Table)

def Table.setState (pid : Nat) (s : ProcState) : Table := { t with state := Function.update t.state pid s }

def processInit : Table := ⟨fun _ => .unused,0,0⟩

def processCreate : Nat × Table :=
  if t.count ≥ processMax then (0,t) else (t.count,{ t.setState t.count .ready with count := t.count + 1 })

def processExit : Table := if t.current < processMax then t.setState t.current .dead else t

/-- The loop of `process_yield`: the process `i` places after the current one. -/
def searchReady : Option Nat :=
  (List.range' 1 (processMax - 1)).find? (fun i => t.state ((t.current + i) % processMax) = .ready)

def nextReady : Nat :=
  match searchReady t with
  | some i => (t.current + i) % processMax
  | none => t.current

/-- `process_yield`, up to the point where the process it switches to goes on. -/
def processYield : Table :=
  if t.count ≤ 1 then t
  else
    let next := nextReady t
    if next ≠ t.current then
      let t := { (t.setState t.current .ready).setState next .running with current := next }
      t.setState t.current .running
    else t

def processWakeup (pid : Nat) (t : Table) : Table :=
  if pid < processMax ∧ t.state pid = .waiting then t.setState pid .ready else t

def sigMax : Int := 64
def sigKill : Int := 9
def sigChld : Int := 17
def sigCont : Int := 18
def sigStop : Int := 19
def sigTstp : Int := 20
def sigTtin : Int := 21
def sigTtou : Int := 22
def sigUrg : Int := 23
def sigWinch : Int := 28
def sigIo : Int := 29
def sigRtMin : Int := 32

/-- `__signal_default`, which is only called for the current process. -/
def signalDefault (sig : Int) (t : Table) : Table :=
  if sig ∈ [sigChld,sigUrg,sigWinch,sigIo] then t
  else if sig ∈ [sigStop,sigTstp,sigTtin,sigTtou] then t.setState t.current .stopped
  else if sig = sigCont then
    if t.state t.current = .stopped then t.setState t.current .ready else t
  else t.setState t.current .dead

/-- What `signal_send` does to the table: `data` says if the target has signal data, and
    `memory` if there is room for the entry of a queued signal. -/
def signalSend (target : Nat) (sig : Int) (data memory : Bool) (t : Table) : Table :=
  if sig < 1 ∨ sig > sigMax then t
  else if target ≥ processMax then t
  else if t.state target = .dead then t
  else if sig = sigKill then t.setState target .dead
  else if data = false then t
  else if sig ≥ sigRtMin ∧ memory = false then t
  else if t.state target = .sleeping ∨ t.state target = .waiting then t.setState target .ready
  else t

/-- The states in which the wait and signal code puts the running process. -/
inductive Mark where
  | waiting
  | sleeping
  | stopped
  | dead
  deriving DecidableEq, Repr

def Mark.state : Mark → ProcState
  | waiting => .waiting
  | sleeping => .sleeping
  | stopped => .stopped
  | dead => .dead

inductive Request where
  | create
  | yield
  | wakeup (pid : Nat)
  | exit
  | mark (m : Mark)
  | signalDefault (sig : Int)
  | signalSend (target : Nat) (sig : Int) (data memory : Bool)
  deriving DecidableEq, Repr

def Runnable (s : ProcState) : Prop := s = .ready ∨ s = .running

instance (s : ProcState) : Decidable (Runnable s) := inferInstanceAs (Decidable (_ ∨ _))

/-- The table; the calls of `process_yield` so far, with the table before and after each; and
    the processes that put themselves into a state that is not runnable and that no other
    call than `process_yield` has made runnable since. -/
structure State where
  table : Table
  yields : List (Table × Table)
  asleep : List Nat

def State.change (s : State) (t : Table) : State :=
  { s with
    table := t
    asleep := (s.table.current :: s.asleep).filter (fun p => ¬ Runnable (t.state p)) }

def step (s : State) : Request → Option State
  | .create => some (s.change (processCreate s.table).2)
  | .yield =>
    some { s with
      table := processYield s.table
      yields := (s.table,processYield s.table) :: s.yields }
  | .wakeup pid => some (s.change (processWakeup pid s.table))
  | .exit => some (s.change (processExit s.table))
  | .mark m => some (s.change (s.table.setState s.table.current m.state))
  | .signalDefault sig => some (s.change (signalDefault sig s.table))
  | .signalSend target sig data memory => some (s.change (signalSend target sig data memory s.table))

def start : State := ⟨processInit,[],[]⟩

/-- A process that yields to another one is ready or running. -/
def Meets (s : State) : Request → Prop
  | .yield => s.table.count ≤ 1 ∨ nextReady s.table = s.table.current ∨ Runnable (s.table.state s.table.current)
  | _ => True

instance (s : State) (a : Request) : Decidable (Meets s a) :=
  match a with
  | .yield => inferInstanceAs (Decidable (_ ∨ _ ∨ Runnable _))
  | .create | .wakeup _ | .exit | .mark _ | .signalDefault _ | .signalSend _ _ _ _ => inferInstanceAs (Decidable True)

/-- The process is the first ready one in cyclic order after the current one. -/
def IsNext (pid : Nat) : Prop :=
  ∃ i, 0 < i ∧ i < processMax ∧ pid = (t.current + i) % processMax ∧ t.state pid = .ready ∧
    ∀ j, 0 < j → j < i → t.state ((t.current + j) % processMax) ≠ .ready

/-- A call of `process_yield` revives no process, and goes on with the first ready one; it
    goes on with the same process only if there is one process or no other one is ready. -/
structure Proper (before after : Table) : Prop where
  revives : ∀ p, ¬ Runnable (before.state p) → ¬ Runnable (after.state p)
  chosen : IsNext before after.current ∨ after.current = before.current ∧
    (before.count ≤ 1 ∨ ∀ p < processMax, p ≠ before.current → before.state p ≠ .ready)

/-- Only the current process is running, nobody asleep is runnable, and every yield was a proper one. -/
structure Sound (s : State) : Prop where
  running : ∀ p, s.table.state p = .running → p = s.table.current
  asleep : ∀ p ∈ s.asleep, ¬ Runnable (s.table.state p)
  yields : ∀ y ∈ s.yields, Proper y.1 y.2

section
variable {t : Table} {s : State}

@[simp] theorem setState_state (p pid : Nat) (x : ProcState) :
    (t.setState pid x).state p = if p = pid then x else t.state p :=
  Function.update_apply ..

@[simp] theorem setState_current (pid : Nat) (x : ProcState) : (t.setState pid x).current = t.current := rfl

theorem isNext_of_found {i : Nat} (found : searchReady t = some i) : IsNext t ((t.current + i) % processMax) := by
  rw [searchReady,List.find?_range'_eq_some] at found
  obtain ⟨ready,inside,before⟩ := found
  obtain ⟨low,high⟩ := List.mem_range'_1.mp inside
  refine ⟨i,low,by unfold processMax at high ⊢; omega,rfl,of_decide_eq_true ready,fun j positive less => ?_⟩
  simpa using before j positive less

private theorem isNext_ready {pid : Nat} (next : IsNext t pid) : t.state pid = .ready := by
  obtain ⟨_,_,_,_,ready,_⟩ := next
  exact ready

private theorem processYield_stay (stay : t.count ≤ 1 ∨ nextReady t = t.current) : processYield t = t := by
  rw [processYield]
  split
  · rfl
  · rename_i several
    exact if_neg (not_not.mpr (stay.resolve_left several))

theorem processYield_switch (several : ¬ t.count ≤ 1) (other : nextReady t ≠ t.current) :
    (processYield t).current = nextReady t ∧ ∀ p, (processYield t).state p =
      if p = nextReady t then .running else if p = t.current then .ready else t.state p := by
  rw [processYield,if_neg several]
  simp only [if_pos other,setState_current,setState_state,true_and]
  intro p
  split <;> rfl

/-- The call leaves the current process, and makes no process running. -/
structure Quiet (t u : Table) : Prop where
  current : u.current = t.current
  running : ∀ p, u.state p = .running → t.state p = .running

theorem Quiet.refl (t : Table) : Quiet t t := ⟨rfl,fun _ same => same⟩

theorem Quiet.setState (t : Table) (pid : Nat) {x : ProcState} (idle : x ≠ .running) : Quiet t (t.setState pid x) := by
  refine ⟨rfl,fun p running => ?_⟩
  rw [setState_state] at running
  split at running
  · exact absurd running idle
  · exact running

private theorem processCreate_quiet (t : Table) : Quiet t (processCreate t).2 := by
  rw [processCreate]
  split
  · exact .refl t
  · have made : Quiet t (t.setState t.count .ready) := .setState t t.count nofun
    exact ⟨rfl,made.running⟩

private theorem processWakeup_quiet (pid : Nat) (t : Table) : Quiet t (processWakeup pid t) := by
  rw [processWakeup]
  split
  · exact .setState t pid nofun
  · exact .refl t

private theorem processExit_quiet (t : Table) : Quiet t (processExit t) := by
  rw [processExit]
  split
  · exact .setState t _ nofun
  · exact .refl t

private theorem mark_quiet (m : Mark) (t : Table) : Quiet t (t.setState t.current m.state) :=
  .setState t _ (by cases m <;> nofun)

private theorem signalDefault_quiet (sig : Int) (t : Table) : Quiet t (signalDefault sig t) := by
  rw [signalDefault]
  split_ifs
  · exact .refl t
  · exact .setState t _ nofun
  · exact .setState t _ nofun
  · exact .refl t
  · exact .setState t _ nofun

private theorem signalSend_quiet (target : Nat) (sig : Int) (data memory : Bool) (t : Table) :
    Quiet t (signalSend target sig data memory t) := by
  rw [signalSend]
  split_ifs
  all_goals first | exact .refl t | exact .setState t _ nofun

structure Inv (s : State) : Prop extends Sound s where
  inside : s.table.current < processMax

theorem Inv.change (inv : Inv s) (quiet : Quiet s.table t) : Inv (s.change t) where
  running p runs := (inv.running p (quiet.running p runs)).trans quiet.current.symm
  asleep _ member := of_decide_eq_true (List.mem_filter.mp member).2
  yields := inv.yields
  inside := lt_of_eq_of_lt quiet.current inv.inside

theorem Inv.yield_running (inv : Inv s) (p : Nat) (running : (processYield s.table).state p = .running) :
    p = (processYield s.table).current := by
  by_cases stay : s.table.count ≤ 1 ∨ nextReady s.table = s.table.current
  · rw [processYield_stay stay] at running ⊢
    exact inv.running p running
  · obtain ⟨several,other⟩ := not_or.mp stay
    obtain ⟨current,states⟩ := processYield_switch several other
    rw [current]
    by_contra differs
    rw [states p,if_neg differs] at running
    split at running
    · cases running
    · rename_i old
      exact old (inv.running p running)

section
variable (inside : t.current < processMax)
include inside

theorem none_ready (missed : searchReady t = none) (p : Nat) (bound : p < processMax)
    (other : p ≠ t.current) : t.state p ≠ .ready := by
  unfold processMax at inside bound
  rw [searchReady,List.find?_eq_none] at missed
  have place : (t.current + (p + 256 - t.current) % 256) % processMax = p := by unfold processMax; omega
  have passed := missed ((p + 256 - t.current) % 256) (List.mem_range'_1.mpr (by unfold processMax; omega))
  rw [place] at passed
  simpa using passed

private theorem nextReady_spec :
    IsNext t (nextReady t) ∨ nextReady t = t.current ∧ ∀ p < processMax, p ≠ t.current → t.state p ≠ .ready := by
  rw [nextReady]
  cases found : searchReady t with
  | none => exact .inr ⟨rfl,none_ready inside found⟩
  | some i => exact .inl (isNext_of_found found)

private theorem nextReady_lt : nextReady t < processMax := by
  rcases nextReady_spec inside with ⟨_,_,_,place,_⟩ | ⟨same,_⟩
  · rw [place]
    exact Nat.mod_lt _ (by decide)
  · rw [same]
    exact inside

theorem processYield_proper
    (meets : t.count ≤ 1 ∨ nextReady t = t.current ∨ Runnable (t.state t.current)) : Proper t (processYield t) := by
  by_cases stay : t.count ≤ 1 ∨ nextReady t = t.current
  · rw [processYield_stay stay]
    refine ⟨fun _ same => same,?_⟩
    rcases nextReady_spec inside with next | ⟨_,none⟩
    · rcases stay with alone | same
      · exact .inr ⟨rfl,.inl alone⟩
      · rw [same] at next
        exact .inl next
    · exact .inr ⟨rfl,.inr none⟩
  · obtain ⟨several,other⟩ := not_or.mp stay
    obtain ⟨current,states⟩ := processYield_switch several other
    have next := (nextReady_spec inside).resolve_right (fun same => other same.1)
    have runs : Runnable (t.state t.current) := (meets.resolve_left several).resolve_left other
    constructor
    · intro p idle
      have chosen : p ≠ nextReady t := fun same => idle (.inl (same ▸ isNext_ready next))
      have caller : p ≠ t.current := fun same => idle (same ▸ runs)
      rw [states p,if_neg chosen,if_neg caller]
      exact idle
    · rw [current]
      exact .inl next

private theorem processYield_lt : (processYield t).current < processMax := by
  by_cases stay : t.count ≤ 1 ∨ nextReady t = t.current
  · rw [processYield_stay stay]
    exact inside
  · rw [(processYield_switch (not_or.mp stay).1 (not_or.mp stay).2).1]
    exact nextReady_lt inside

end

theorem Inv.yield (inv : Inv s) (meets : Meets s .yield) : ∃ u, step s .yield = some u ∧ Inv u := by
  have proper := processYield_proper inv.inside meets
  refine ⟨_,rfl,⟨⟨inv.yield_running,?_,?_⟩,processYield_lt inv.inside⟩⟩
  · intro p member
    exact proper.revives p (inv.asleep p member)
  · exact List.forall_mem_cons.mpr ⟨proper,inv.yields⟩

theorem inv_step (s : State) (a : Request) (inv : Inv s) (meets : Meets s a) : ∃ u, step s a = some u ∧ Inv u := by
  cases a with
  | create => exact ⟨_,rfl,inv.change (processCreate_quiet s.table)⟩
  | yield => exact inv.yield meets
  | wakeup pid => exact ⟨_,rfl,inv.change (processWakeup_quiet pid s.table)⟩
  | exit => exact ⟨_,rfl,inv.change (processExit_quiet s.table)⟩
  | mark m => exact ⟨_,rfl,inv.change (mark_quiet m s.table)⟩
  | signalDefault sig => exact ⟨_,rfl,inv.change (signalDefault_quiet sig s.table)⟩
  | signalSend target sig data memory => exact ⟨_,rfl,inv.change (signalSend_quiet target sig data memory s.table)⟩

theorem start_inv : Inv start where
  running _ running := nomatch running
  asleep _ member := nomatch member
  yields _ member := nomatch member
  inside := by decide

end

/-- In every run that meets the condition only the current process is running, those asleep stay so, and every yield is proper. -/
theorem scheduler_run_proper (requests : List Request) (guarded : Guarded step Meets start requests) :
    ∃ s, run step start requests = some s ∧ Sound s := by
  obtain ⟨s,ran,inv⟩ := run_invariant inv_step requests start start_inv guarded
  exact ⟨s,ran,inv.toSound⟩

def turns : List Request := [.create,.create,.yield,.yield,.wakeup 1,.signalSend 1 9 true true,.mark .stopped,.yield]

theorem scheduler_run_proper_of_turns : Guarded step Meets start turns ∧
    ∃ s, run step start turns = some s ∧ Sound s := by
  have guarded : Guarded step Meets start turns := by decide +kernel
  exact ⟨guarded,scheduler_run_proper turns guarded⟩

theorem yield_revives : ∃ s, run step start [.create,.create,.mark .waiting,.yield] = some s ∧
    0 ∈ s.asleep ∧ s.table.state 0 = .ready ∧ ¬ Sound s := by
  refine run_shows (fun s => (s.asleep,s.table.state 0)) ([0],.ready) (by decide +kernel) (fun s seen => ?_)
  obtain ⟨asleep,ready⟩ := Prod.mk.inj seen
  have member : 0 ∈ s.asleep := by rw [asleep]; exact List.mem_singleton_self 0
  exact ⟨member,ready,fun sound => sound.asleep 0 member (.inl ready)⟩

/-! ### No process starves -/

/-- How many places the process is after the current one. -/
def Table.distance (p : Nat) : Nat := (p + processMax - t.current) % processMax

/-- The process is ready, and not the current one. -/
structure Waits (p : Nat) (t : Table) : Prop where
  bound : p < processMax
  inside : t.current < processMax
  several : ¬ t.count ≤ 1
  ready : t.state p = .ready
  other : p ≠ t.current

section
variable {t : Table} {s : State} {p : Nat}

theorem Waits.setState (waits : Waits p t) {pid : Nat} {x : ProcState} (spared : p = pid → x = .ready) :
    Waits p (t.setState pid x) := by
  refine ⟨waits.bound,waits.inside,waits.several,?_,waits.other⟩
  rw [setState_state]
  split
  case isTrue same => exact spared same
  case isFalse => exact waits.ready

theorem Waits.yield (waits : Waits p t) : (processYield t).current = p ∨
    Waits p (processYield t) ∧ (processYield t).distance p < t.distance p := by
  obtain ⟨bound,inside,several,ready,different⟩ := waits
  rcases nextReady_spec inside with ⟨i,positive,less,place,_,before⟩ | ⟨_,none⟩
  · have sooner := before (t.distance p)
    unfold Table.distance processMax at *
    have other : nextReady t ≠ t.current := by omega
    obtain ⟨current,states⟩ := processYield_switch several other
    have count : (processYield t).count = t.count := by simp [processYield,several,other,Table.setState]
    rw [show (t.current + (p + 256 - t.current) % 256) % 256 = p by omega] at sooner
    by_cases chosen : nextReady t = p
    · exact .inl (current.trans chosen)
    · have passed := mt (sooner (by omega)) (not_not.mpr ready)
      refine .inr ⟨⟨bound,processYield_lt inside,by rw [count]; exact several,?_,?_⟩,?_⟩
      · rw [states,if_neg (Ne.symm chosen),if_neg different,ready]
      · rw [current]
        exact Ne.symm chosen
      · rw [current]
        omega
  · exact absurd ready (none p bound different)

theorem Waits.keep (waits : Waits p s.table) {a : Request} (calm : a ≠ .yield)
    (alive : ∀ data memory, a ≠ .signalSend p sigKill data memory) :
    ∃ u, step s a = some u ∧ Waits p u.table ∧ u.table.current = s.table.current := by
  have readied : ∀ pid, Waits p (s.table.setState pid .ready) := fun _ => waits.setState (fun _ => rfl)
  have mine : ∀ x, Waits p (s.table.setState s.table.current x) := fun x => waits.setState (absurd · waits.other)
  cases a with
  | yield => exact absurd rfl calm
  | mark m => exact ⟨_,rfl,mine _,rfl⟩
  | create =>
    refine ⟨_,rfl,?_,(processCreate_quiet s.table).current⟩
    simp only [State.change,processCreate]
    split
    · exact waits
    · exact { readied s.table.count with several := fun few => waits.several (Nat.le_of_succ_le few) }
  | wakeup pid =>
    refine ⟨_,rfl,?_,(processWakeup_quiet pid s.table).current⟩
    simp only [State.change,processWakeup]
    split_ifs <;> first | exact waits | exact readied pid
  | exit =>
    refine ⟨_,rfl,?_,(processExit_quiet s.table).current⟩
    simp only [State.change,processExit]
    split_ifs <;> first | exact waits | exact mine _
  | signalDefault sig =>
    refine ⟨_,rfl,?_,(signalDefault_quiet sig s.table).current⟩
    simp only [State.change,Scheduler.signalDefault]
    split_ifs <;> first | exact waits | exact mine _
  | signalSend target sig data memory =>
    refine ⟨_,rfl,?_,(signalSend_quiet target sig data memory s.table).current⟩
    simp only [State.change,Scheduler.signalSend]
    split_ifs with _ _ _ kill <;> first | exact waits | exact readied target | skip
    exact waits.setState (fun same => absurd (by rw [same,kill]) (alive data memory))

/-- From any state on, a ready process is chosen when `process_yield` has been called as often as the process is places
    after the current one, whatever is called in between, unless `SIGKILL` is sent to it. -/
theorem process_yield_serves (waits : Waits p s.table) (requests : List Request)
    (alive : ∀ data memory, .signalSend p sigKill data memory ∉ requests)
    (enough : s.table.distance p ≤ requests.count .yield) :
    ∃ first rest v, requests = first ++ rest ∧ run step s first = some v ∧ v.table.current = p := by
  induction requests generalizing s with
  | nil =>
    obtain ⟨bound,inside,_,_,other⟩ := waits
    simp only [Table.distance,processMax,List.count_nil] at *
    omega
  | cons a rest ih =>
    have later : ∀ data memory, .signalSend p sigKill data memory ∉ rest := fun d m member => alive d m (.tail a member)
    by_cases yields : a = .yield
    · subst yields
      rw [List.count_cons_self] at enough
      rcases waits.yield with chosen | ⟨still,nearer⟩
      · exact ⟨[.yield],rest,_,rfl,rfl,chosen⟩
      · obtain ⟨first,rest,v,rfl,ran,chosen⟩ :=
          ih (s := { s with table := processYield s.table, yields := _ }) still later (by dsimp only; omega)
        exact ⟨.yield :: first,rest,v,rfl,ran,chosen⟩
    · obtain ⟨u,stepped,still,same⟩ := waits.keep yields (fun d m here => alive d m (here ▸ List.mem_cons_self))
      rw [List.count_cons_of_ne yields] at enough
      obtain ⟨first,rest,v,rfl,ran,chosen⟩ := ih still later (by rw [Table.distance,same]; exact enough)
      exact ⟨a :: first,rest,v,rfl,by rw [run_cons,stepped]; exact ran,chosen⟩

theorem process_yield_serves_second : ∃ first rest v, [.yield,.exit,.yield] = first ++ rest ∧
    run step ⟨⟨fun _ => .ready,3,0⟩,[],[]⟩ first = some v ∧ v.table.current = 2 :=
  process_yield_serves ⟨by decide,by decide,by decide,rfl,by decide⟩ [.yield,.exit,.yield] (by simp) (by decide)

end

end Kenux.Scheduler
