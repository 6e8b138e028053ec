import Kenux.Runs
import Mathlib.Algebra.BigOperators.Group.List.Basic

/-!
System V semaphores (`sem_op` of `ipc.c`): a call applies its operations one after the
other, and may return -1 or yield with some of them applied. In every run in which each
turn of a call goes through as a whole or stops at its first operation, calls are atomic
and no value becomes negative (`sem_run_atomic`).
-/
namespace Kenux.SysvSem
open Kenux.Runs Function

/-- `struct sembuf`, with the `IPC_NOWAIT` bit of its flags. -/
structure Sembuf where
  semNum : Nat
  semOp : BitVec 16
  nowait : Bool

/-- The values of a set of semaphores, read with a sign. -/
abbrev Values := Nat → BitVec 16

/-- Where the lock is released: at a return of -1 or 0, or to yield before the operations that are left. -/
inductive Outcome where
  | failed
  | done
  | yields (rest : List Sembuf)

variable (nsems : Nat) {values : Values}

def val (values : Values) (o : Sembuf) : Int := (values o.semNum).toInt + o.semOp.toInt

def Values.store (values : Values) (o : Sembuf) : Values := update values o.semNum (BitVec.ofInt 16 (val values o))

/-- The loop of `sem_op` up to where the lock is released. -/
def semLoop : List Sembuf → Values → Outcome × Values
  | [], values => (.done,values)
  | o :: rest, values =>
    if o.semNum ≥ nsems then (.failed,values)
    else if val values o < 0 then
      if o.nowait then (.failed,values) else (.yields (o :: rest),values)
    else semLoop rest (values.store o)

/-- One turn of the call with these operations. -/
structure Turn where
  ops : List Sembuf
  outcome : Outcome
  before : Values
  after : Values

structure State where
  values : Values
  /-- The calls that have yielded, with all their operations and those that are left. -/
  pending : Nat → Option (List Sembuf × List Sembuf)
  log : List Turn

/-- A process goes on with the call that it is in, or begins one with the given operations. -/
def step (s : State) (a : Nat × List Sembuf) : Option State :=
  let (ops,rest) := (s.pending a.1).getD (a.2,a.2)
  let (outcome,values) := semLoop nsems rest s.values
  let left := match outcome with
    | .yields rest => some (ops,rest)
    | _ => none
  some ⟨values,update s.pending a.1 left,⟨ops,outcome,s.values,values⟩ :: s.log⟩

def start (values : Values) : State := ⟨values,fun _ => none,[]⟩

/-- All the operations go through, with no sum above 32767. -/
def passes : List Sembuf → Values → Bool
  | [], _ => true
  | o :: rest, values => o.semNum < nsems && 0 ≤ val values o && val values o < 2^15 && passes rest (values.store o)

/-- The first operation does not go through. -/
def stops : List Sembuf → Values → Bool
  | [], _ => false
  | o :: _, values => o.semNum ≥ nsems || val values o < 0

/-- The operations that are left all go through, or the first of them does not. -/
def Meets (s : State) (a : Nat × List Sembuf) : Prop :=
  let rest := ((s.pending a.1).getD (a.2,a.2)).2
  passes nsems rest s.values ∨ stops nsems rest s.values

instance (s : State) (a : Nat × List Sembuf) : Decidable (Meets nsems s a) := inferInstanceAs (Decidable (_ ∨ _))

def added (ops : List Sembuf) (i : Nat) : Int := ((ops.filter (·.semNum = i)).map (·.semOp.toInt)).sum

/-- A turn that returns 0 applies all the operations of its call, and any other none. -/
structure Turn.Atomic (turn : Turn) : Prop where
  done : turn.outcome = .done → ∀ i, (turn.after i).toInt = (turn.before i).toInt + added turn.ops i
  others : turn.outcome ≠ .done → turn.after = turn.before
  signs : ∀ i, 0 ≤ (turn.before i).toInt → 0 ≤ (turn.after i).toInt

private theorem toInt_store {o : Sembuf} (least : 0 ≤ val values o) (most : val values o < 2^15) (i : Nat) :
    (values.store o i).toInt = if i = o.semNum then val values o else (values i).toInt := by
  rw [Values.store,update_apply]
  split
  · rw [BitVec.toInt_ofInt]
    exact Int.bmod_eq_of_le (by omega) (by omega)
  · rfl

theorem semLoop_passes : ∀ (ops : List Sembuf) (values : Values), passes nsems ops values →
    ∃ after, semLoop nsems ops values = (.done,after) ∧ Turn.Atomic ⟨ops,.done,values,after⟩
  | [], values, _ => ⟨values,rfl,by simp [added],nofun,fun _ => id⟩
  | o :: rest, values, whole => by
    simp only [passes,Bool.and_eq_true,decide_eq_true_eq] at whole
    obtain ⟨⟨⟨inside,least⟩,most⟩,later⟩ := whole
    obtain ⟨after,looped,sums,-,signs⟩ := semLoop_passes rest (values.store o) later
    have stored := toInt_store least most
    refine ⟨after,?_,fun _ i => ?_,nofun,fun i positive => signs i ?_⟩
    · rw [semLoop,if_neg (by omega),if_neg (by omega),looped]
    · rw [sums rfl,stored]
      by_cases here : i = o.semNum
      · simp [added,here,val,Int.add_assoc]
      · simp [added,here,Ne.symm here]
    · rw [stored]
      split <;> assumption

theorem semLoop_whole {ops : List Sembuf} (whole : passes nsems ops values ∨ stops nsems ops values) :
    ∃ outcome after, semLoop nsems ops values = (outcome,after) ∧ Turn.Atomic ⟨ops,outcome,values,after⟩ ∧
      ∀ rest, outcome = .yields rest → rest = ops := by
  rcases whole with all | first
  · obtain ⟨after,looped,atomic⟩ := semLoop_passes nsems ops values all
    exact ⟨_,_,looped,atomic,nofun⟩
  cases ops with
  | nil => cases first
  | cons o rest =>
    simp only [stops,Bool.or_eq_true,decide_eq_true_eq] at first
    rw [semLoop]
    split
    · exact ⟨_,_,rfl,⟨nofun,fun _ => rfl,fun _ => id⟩,nofun⟩
    next inside =>
      rw [if_pos (first.resolve_left inside)]
      split
      · exact ⟨_,_,rfl,⟨nofun,fun _ => rfl,fun _ => id⟩,nofun⟩
      · exact ⟨_,_,rfl,⟨nofun,fun _ => rfl,fun _ => id⟩,fun _ same => (Outcome.yields.inj same).symm⟩

/-- Nothing of a call that has yielded was applied. -/
structure Inv (s : State) : Prop where
  pending : ∀ p ops rest, s.pending p = some (ops,rest) → rest = ops
  log : ∀ turn ∈ s.log, turn.Atomic

theorem inv_step (s : State) (a : Nat × List Sembuf) (inv : Inv s) (meets : Meets nsems s a) :
    ∃ t, step nsems s a = some t ∧ Inv t := by
  obtain ⟨ops,here⟩ : ∃ ops, (s.pending a.1).getD (a.2,a.2) = (ops,ops) := by
    cases there : s.pending a.1 with
    | none => exact ⟨_,rfl⟩
    | some call => exact ⟨_,Prod.ext rfl (inv.pending _ _ _ there)⟩
  simp only [Meets,here] at meets
  obtain ⟨outcome,after,looped,atomic,left⟩ := semLoop_whole nsems meets
  simp only [step,here,looped]
  refine ⟨_,rfl,fun q => ?_,List.forall_mem_cons.mpr ⟨atomic,inv.log⟩⟩
  dsimp only
  cases q using update_cases with
  | here =>
    cases outcome with
    | yields rest =>
      rintro _ _ ⟨⟩
      exact left rest rfl
    | _ => exact nofun
  | others q _ => exact inv.pending q

/-- In every run that meets the condition each call does all of its operations, or none. -/
theorem sem_run_atomic (values : Values) (turns : List (Nat × List Sembuf))
    (guarded : Guarded (step nsems) (Meets nsems) (start values) turns) :
    ∃ s, run (step nsems) (start values) turns = some s ∧ ∀ turn ∈ s.log, turn.Atomic := by
  obtain ⟨s,ran,inv⟩ := run_invariant (inv_step nsems) turns (start values) ⟨nofun,nofun⟩ guarded
  exact ⟨s,ran,inv.log⟩

def waitTwo : List (Nat × List Sembuf) := [(0,[⟨0,-1,false⟩,⟨1,-1,false⟩]),(1,[⟨0,1,false⟩,⟨1,1,false⟩]),(0,[])]

theorem sem_run_atomic_two : ∃ s, run (step 2) (start fun _ => 0) waitTwo = some s ∧ ∀ turn ∈ s.log, turn.Atomic :=
  sem_run_atomic 2 _ waitTwo (by decide +kernel)

/-- A call that fails has raised a value, and 32767 and 1 make a negative one. -/
theorem sem_op_partial : (semLoop 1 [⟨0,1,false⟩,⟨1,1,false⟩] fun _ => 0).1 = .failed ∧
    ((semLoop 1 [⟨0,1,false⟩,⟨1,1,false⟩] fun _ => 0).2 0).toInt = 1 ∧
    ((semLoop 1 [⟨0,0x7fff,false⟩,⟨0,1,false⟩] fun _ => 0).2 0).toInt = -32768 :=
  ⟨rfl,by decide,by decide⟩

end Kenux.SysvSem
