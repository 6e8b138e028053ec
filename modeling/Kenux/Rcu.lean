import Kenux.Runs
import Mathlib.Data.List.Nodup

/-!
Read-copy-update (`rcu.c`, `rcu.h`). `rcu_check_gp` begins a grace period only if the first
of the two stages of callbacks holds one, and only the end of a grace period puts one there:
no run of the interface begins one or invokes a callback (`rcu_run_idle`). So callbacks are
safe, and late: the three promises of the interface hold along a run if and only if no
callback waits through three checks without readers in it (`rcu_run_sound`), and
`call_rcu_waits` is a callback that has waited through four.
-/
namespace Kenux.Rcu
open Kenux.Runs
open Function (update)

section
variable {Head Func Arg : Type}

structure Cblist (Head : Type) where
  head : Option Head
  tail : Option Head
  count : BitVec 64
deriving DecidableEq

def Cblist.empty : Cblist Head := ⟨none,none,0⟩

/-- `rcu_state_t` with its two stages and one CPU, and the fields of the callback heads. -/
structure Global (Head Func Arg : Type) where
  gpSeq : BitVec 64
  gpStartSeq : BitVec 64
  gpActive : Bool
  cbs : Fin 2 → Cblist Head
  passedGp : BitVec 64
  nesting : BitVec 64
  next : Head → Option Head
  func : Head → Option Func
  arg : Head → Option Arg

/-- `rcu_init`; the heads hold nothing yet. -/
def rcuInit : Global Head Func Arg where
  gpSeq := 1
  gpStartSeq := 0
  gpActive := false
  cbs := fun _ => .empty
  passedGp := 0
  nesting := 0
  next := fun _ => none
  func := fun _ => none
  arg := fun _ => none

/-- The loop of `__rcu_invoke_cbs`: the heads whose callback it calls; `none` is a loop that does not end. -/
def invokeLoop (g : Global Head Func Arg) : Nat → Option Head → Option (List Head)
  | _, none => some []
  | 0, some _ => none
  | fuel+1, some head =>
    (invokeLoop g fuel (g.next head)).map (fun rest => if (g.func head).isSome then head :: rest else rest)

def rcuInvokeCbs (fuel : Nat) (stage : Fin 2) (g : Global Head Func Arg) :
    Option (List Head × Global Head Func Arg) :=
  (invokeLoop g fuel (g.cbs stage).head).map
    (fun called => (called,{ g with cbs := update g.cbs stage .empty }))

def rcuAllReadersExited (g : Global Head Func Arg) : Bool := decide (¬ 0 < g.nesting.toNat)

def endGp (fuel : Nat) (g : Global Head Func Arg) : Option (List Head × Global Head Func Arg) :=
  (rcuInvokeCbs fuel 0 { g with gpSeq := g.gpSeq + 1, gpActive := false, passedGp := g.passedGp + 1 }).map
    (fun result => (result.1,{ result.2 with
      cbs := update (update result.2.cbs 0 (result.2.cbs 1)) 1 .empty }))

/-- The first half of `rcu_check_gp`: a grace period begins if the first stage holds a callback. -/
def beginGp (g : Global Head Func Arg) : Global Head Func Arg :=
  if g.gpActive = false ∧ 0 < (g.cbs 0).count.toNat then { g with gpActive := true, gpStartSeq := g.gpSeq } else g

def rcuCheckGp (fuel : Nat) (g : Global Head Func Arg) : Option (List Head × Global Head Func Arg) :=
  let g := beginGp g
  if g.gpActive ∧ rcuAllReadersExited g then endGp fuel g else some ([],g)

def rcuAddCb [DecidableEq Head] (stage : Fin 2) (head : Head) (g : Global Head Func Arg) : Global Head Func Arg :=
  let list := g.cbs stage
  let next := update g.next head none
  match list.tail with
  | some tail => { g with next := update next tail (some head),
                          cbs := update g.cbs stage ⟨list.head,some head,list.count + 1⟩ }
  | none => { g with next, cbs := update g.cbs stage ⟨some head,some head,list.count + 1⟩ }

/-- `call_rcu` up to its check. -/
def queueCb [DecidableEq Head] (head : Head) (func : Func) (arg : Arg) (g : Global Head Func Arg) :
    Global Head Func Arg :=
  rcuAddCb 1 head { g with func := update g.func head (some func), arg := update g.arg head (some arg),
                           next := update g.next head none }

/-- A callback passed to `call_rcu`: the readers inside at that call, and how many checks in a row,
    up to the last one, were made with no reader inside since. -/
structure Callback where
  id : Nat
  readers : List Nat
  quiet : Nat
deriving DecidableEq

/-- The call of a callback, and the readers inside at that moment. -/
structure Invocation where
  id : Nat
  inside : List Nat
deriving DecidableEq

inductive Request (Head Func Arg : Type) where
  | rcuReadLock
  | rcuReadUnlock (reader : Nat)
  | callRcu (head : Option Head) (func : Option Func) (arg : Arg)
  | rcuCheckGp

/-- What the callers have done: the readers inside, numbered as they enter, and the callbacks passed so far. -/
structure Calls where
  entered : Nat
  inside : List Nat
  callbacks : List Callback

def Callback.checked (inside : List Nat) (c : Callback) : Callback :=
  { c with quiet := if inside = [] then c.quiet + 1 else 0 }

def Calls.check (c : Calls) : Calls := { c with callbacks := c.callbacks.map (Callback.checked c.inside) }

def Calls.pass (c : Calls) : Calls := { c with callbacks := ⟨c.callbacks.length,c.inside,0⟩ :: c.callbacks }

def Calls.next (c : Calls) : Request Head Func Arg → Calls
  | .rcuReadLock => { c with entered := c.entered + 1, inside := c.entered :: c.inside }
  | .rcuReadUnlock reader => { c with inside := c.inside.erase reader }
  | .callRcu (some _) (some _) _ => c.pass.check
  | .callRcu _ _ _ => c
  | .rcuCheckGp => c.check

/-- What the callers have done after the requests. -/
def callsOf (requests : List (Request Head Func Arg)) : Calls := requests.foldl Calls.next ⟨0,[],[]⟩

/-- At no time has a callback gone through three checks in a row without a reader inside; the check of its own
    `call_rcu` counts. -/
def Prompt (requests : List (Request Head Func Arg)) : Prop :=
  ∀ before, before <+: requests → ∀ c ∈ (callsOf before).callbacks, c.quiet < 3

/-- The kernel's state; what the callers have done; the head each callback came with last, and the calls made. -/
structure State (Head Func Arg : Type) where
  g : Global Head Func Arg
  calls : Calls
  owner : Head → Nat
  invoked : List Invocation

def start : State Head Func Arg := ⟨rcuInit,⟨0,[],[]⟩,fun _ => 0,[]⟩

/-- A check. A walk longer than the callbacks ever passed is caught in a circle. -/
def State.check (s : State Head Func Arg) : Option (State Head Func Arg) :=
  (rcuCheckGp s.calls.callbacks.length s.g).map (fun result => { s with
    g := result.2
    calls := s.calls.check
    invoked := s.invoked ++ result.1.map (fun head => ⟨s.owner head,s.calls.inside⟩) })

def State.queue [DecidableEq Head] (s : State Head Func Arg) (head : Head) (func : Func) (arg : Arg) : State Head Func Arg :=
  { s with
    g := queueCb head func arg s.g
    calls := s.calls.pass
    owner := update s.owner head s.calls.callbacks.length }

def step [DecidableEq Head] (s : State Head Func Arg) : Request Head Func Arg → Option (State Head Func Arg)
  | .rcuReadLock => some { s with g := { s.g with nesting := s.g.nesting + 1 }, calls := s.calls.next (.rcuReadLock : Request Head Func Arg) }
  | .rcuReadUnlock reader =>
    some { s with g := { s.g with nesting := s.g.nesting - 1 }, calls := s.calls.next (.rcuReadUnlock reader : Request Head Func Arg) }
  | .callRcu (some head) (some func) arg => (s.queue head func arg).check
  | .callRcu _ _ _ => some s
  | .rcuCheckGp => s.check

/-- The three promises: a callback is called at most once, not while a reader is inside that entered before
    its `call_rcu`, and after three checks in a row without readers. -/
structure Sound (s : State Head Func Arg) : Prop where
  once : (s.invoked.map Invocation.id).Nodup
  safe : ∀ i ∈ s.invoked, ∀ c ∈ s.calls.callbacks, c.id = i.id → ∀ reader ∈ i.inside, reader ∉ c.readers
  called : ∀ c ∈ s.calls.callbacks, 3 ≤ c.quiet → ∃ i ∈ s.invoked, i.id = c.id

/-- The first stage is empty and no grace period is under way. -/
structure Idle (g : Global Head Func Arg) : Prop where
  stage : g.cbs 0 = .empty
  inactive : g.gpActive = false

private theorem rcuCheckGp_idle {g : Global Head Func Arg} (idle : Idle g) (fuel : Nat) : rcuCheckGp fuel g = some ([],g) := by
  have stays : beginGp g = g := if_neg (by simp [idle.stage,Cblist.empty])
  simp [rcuCheckGp,stays,idle.inactive]

variable {s : State Head Func Arg}

/-- A state in which nothing was ever called and nothing is about to be. -/
structure Quiescent (s : State Head Func Arg) : Prop where
  idle : Idle s.g
  invoked : s.invoked = []

theorem Quiescent.check (quiescent : Quiescent s) :
    s.check = some { s with calls := s.calls.check } := by
  simp [State.check,rcuCheckGp_idle quiescent.idle]

private theorem start_quiescent : Quiescent (start : State Head Func Arg) := ⟨⟨rfl,rfl⟩,rfl⟩

/-- As nothing is called, the promises hold as long as no callback has waited through three checks. -/
theorem Quiescent.sound_iff (quiescent : Quiescent s) : Sound s ↔ ∀ c ∈ s.calls.callbacks, c.quiet < 3 := by
  constructor
  · intro sound c there
    by_contra waited
    obtain ⟨i,called,-⟩ := sound.called c there (by omega)
    simp [quiescent.invoked] at called
  · intro recent
    refine ⟨by simp [quiescent.invoked],by simp [quiescent.invoked],?_⟩
    intro c there waited
    have := recent c there
    omega

variable [DecidableEq Head]

private theorem queueCb_idle {g : Global Head Func Arg} (idle : Idle g) (head : Head) (func : Func) (arg : Arg) :
    Idle (queueCb head func arg g) := by
  simp only [queueCb,rcuAddCb]
  split
  · exact ⟨by simp [idle.stage],idle.inactive⟩
  · exact ⟨by simp [idle.stage],idle.inactive⟩

theorem Quiescent.queue (quiescent : Quiescent s) (head : Head) (func : Func) (arg : Arg) :
    Quiescent (s.queue head func arg) :=
  ⟨queueCb_idle quiescent.idle head func arg,quiescent.invoked⟩

theorem Quiescent.step (quiescent : Quiescent s) (a : Request Head Func Arg) :
    ∃ t, step s a = some t ∧ Quiescent t ∧ t.calls = s.calls.next a := by
  have after : ∀ {u : State Head Func Arg}, Quiescent u → ∃ t, u.check = some t ∧ Quiescent t ∧ t.calls = u.calls.check :=
    fun still => ⟨_,still.check,⟨still.idle,still.invoked⟩,rfl⟩
  cases a with
  | rcuReadLock | rcuReadUnlock reader =>
    exact ⟨_,rfl,⟨⟨quiescent.idle.stage,quiescent.idle.inactive⟩,quiescent.invoked⟩,rfl⟩
  | callRcu head func arg =>
    match head,func with
    | some head,some func => exact after (quiescent.queue head func arg)
    | some head,none | none,_ => exact ⟨s,rfl,quiescent,rfl⟩
  | rcuCheckGp => exact after quiescent

theorem run_quiescent (requests : List (Request Head Func Arg)) (s : State Head Func Arg) (quiescent : Quiescent s) :
    ∃ t, run step s requests = some t ∧ Quiescent t ∧ t.calls = requests.foldl Calls.next s.calls := by
  induction requests generalizing s with
  | nil => exact ⟨s,rfl,quiescent,rfl⟩
  | cons a rest ih =>
    obtain ⟨u,stepped,still,made⟩ := quiescent.step a
    obtain ⟨t,ran,final⟩ := ih u still
    rw [made] at final
    exact ⟨t,by rw [run_cons,stepped]; exact ran,final⟩

/-- No run of the interface calls a callback. -/
theorem rcu_run_idle (requests : List (Request Head Func Arg)) :
    ∃ s, run step start requests = some s ∧ Quiescent s := by
  obtain ⟨s,ran,quiescent,-⟩ := run_quiescent requests start start_quiescent
  exact ⟨s,ran,quiescent⟩

/-- The loop of `rcu_barrier`, in so many rounds; `none` if it has not ended. -/
def rcuBarrier (fuel : Nat) : Nat → Global Head Func Arg → Option (Global Head Func Arg)
  | 0, _ => none
  | rounds+1, g =>
    if 0 < (g.cbs 0).count.toNat ∨ 0 < (g.cbs 1).count.toNat then do rcuBarrier fuel rounds (← rcuCheckGp fuel g).2 else some g

/-- After every run `rcu_barrier` never returns, unless the second stage is empty. -/
theorem rcu_barrier_waits (requests : List (Request Head Func Arg)) : ∃ s, run step start requests = some s ∧
    ((s.g.cbs 1).count.toNat = 0 ∨ ∀ fuel rounds, rcuBarrier fuel rounds s.g = none) := by
  obtain ⟨s,ran,quiescent,-⟩ := run_quiescent requests start start_quiescent
  refine ⟨s,ran,(Nat.eq_zero_or_pos _).imp_right fun queued fuel rounds => ?_⟩
  induction rounds with
  | zero => rfl
  | succ rounds ih =>
    rw [rcuBarrier,if_pos (.inr queued),rcuCheckGp_idle quiescent.idle]
    exact ih

/-- The promises hold in every state along a run if and only if no callback waits through three checks without
    readers; this is said of the requests alone. -/
theorem rcu_run_sound (requests : List (Request Head Func Arg)) :
    (∀ before, before <+: requests → ∃ s, run step start before = some s ∧ Sound s) ↔ Prompt requests := by
  refine forall₂_congr (fun before _ => ?_)
  obtain ⟨s,ran,quiescent,made⟩ := run_quiescent before start start_quiescent
  have same : s.calls = callsOf before := made
  rw [← same,← quiescent.sound_iff]
  constructor
  · rintro ⟨t,ran',sound⟩
    obtain rfl : s = t := Option.some.inj (ran.symm.trans ran')
    exact sound
  · exact fun sound => ⟨s,ran,sound⟩

end

/-- A callback passed with no reader anywhere is not called by the check of its `call_rcu`, nor by the
    three that follow, and no grace period is under way. -/
theorem call_rcu_waits :
    (run step (start : State Nat Nat Nat)
      [.callRcu (some 0) (some 7) 9,.rcuCheckGp,.rcuCheckGp,.rcuCheckGp]).map
      (fun s => (s.calls.callbacks,s.invoked,s.calls.inside,s.g.gpActive,(s.g.cbs 1).count))
      = some ([⟨0,[],4⟩],[],[],false,1) := by decide +kernel

end Kenux.Rcu
