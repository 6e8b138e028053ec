import Kenux.Runs
import Kenux.TimerWheel
import Mathlib.Data.List.Perm.Subperm
import Mathlib.Data.Nat.Bitwise
import Mathlib.Tactic.IntervalCases

/-!
Runs of the timer wheel. Timers of the levels 2 and 3 never run, a timer of level 1 that
expires at a multiple of 256 runs 256 ticks late, and deleting the only timer of a list reads
a `NULL` pointer (`timer_wheel_late`). `timer_run_exact`: in every run whose delays are below
65536 ticks and do not end at a multiple of 256 from level 1, and where only timers between
the first and the last one of their list are deleted or modified, every timer runs once, at
its tick, and the lists hold exactly the active timers.
-/
namespace Kenux.TimerRuns
open Kenux.TimerWheel Kenux.Runs
open Kenux.Links (Queues Chain)
open Function (update update_self update_of_ne)

/-- The wheel, the callbacks that ran, and what should happen: the timers that wait, each with
    its tick, and the callbacks due so far. -/
structure State where
  wheel : Wheel
  calls : List (Nat × BitVec 64)
  pending : List (Nat × BitVec 64)
  due : List (Nat × BitVec 64)

inductive Request where
  | addOneshot (t : Nat) (ms : BitVec 64) (callback : Bool)
  | mod (t : Nat) (ms : BitVec 64)
  | del (t : Nat)
  | tick
  deriving DecidableEq, Repr

def rearm (t : Nat) (expires : BitVec 64) (pending : List (Nat × BitVec 64)) : List (Nat × BitVec 64) :=
  (t,expires) :: pending.filter (fun p => p.1 ≠ t)

def step (fuel : Nat) (s : State) : Request → Option State
  | .addOneshot t ms callback => do
    let (ret,w) ← timerAddOneshot t ms callback s.wheel
    some { s with
      wheel := w
      pending := if ret = 0 then rearm t (s.wheel.jiffies + timerMsToJiffies ms) s.pending else s.pending }
  | .mod t ms => do
    let (ret,w) ← timerMod t ms s.wheel
    some { s with
      wheel := w
      pending := if ret = 0 then rearm t (s.wheel.jiffies + timerMsToJiffies ms) s.pending else s.pending }
  | .del t => do
    let (ret,w) ← timerDel t s.wheel
    some { s with
      wheel := w
      pending := if ret = 0 then s.pending.filter (fun p => p.1 ≠ t) else s.pending }
  | .tick => do
    let (w,calls) ← timerTick fuel s.wheel
    some
      { wheel := w
        calls := s.calls ++ calls
        pending := s.pending.filter (fun p => p.2 ≠ s.wheel.jiffies + 1)
        due := s.due ++ s.pending.filter (fun p => p.2 = s.wheel.jiffies + 1) }

/-- `timer_wheel_init`. -/
def start (timers : Nat → Entry) : State := ⟨⟨timers,fun _ => none,0,BitVec.allOnes 64⟩,[],[],[]⟩

/-- A timer is added only when it is not active. -/
def Legal (s : State) : Request → Prop
  | .addOneshot t _ _ => (s.wheel.timers t).state ≠ .active
  | _ => True

instance (s : State) (a : Request) : Decidable (Legal s a) :=
  match a with
  | .addOneshot .. => inferInstanceAs (Decidable (_ ≠ _))
  | .mod _ _ | .del _ | .tick => inferInstanceAs (Decidable True)

/-- The delay belongs to level 0, or to level 1 and does not end at a multiple of 256. -/
def ShortDelay (s : State) (ms : BitVec 64) : Prop :=
  (timerMsToJiffies ms).toNat < 2^16 ∧
    (2^8 ≤ (timerMsToJiffies ms).toNat → (s.wheel.jiffies + timerMsToJiffies ms) &&& wheelMask ≠ 0)

/-- The timer is neither the first nor the last one of its list. -/
def Inner (s : State) (t : Nat) : Prop := s.wheel.next t ≠ none ∧ (s.wheel.prev t).bind s.wheel.next = some t

instance (s : State) (ms : BitVec 64) : Decidable (ShortDelay s ms) := inferInstanceAs (Decidable (_ ∧ _))
instance (s : State) (t : Nat) : Decidable (Inner s t) := inferInstanceAs (Decidable (_ ∧ _))

/-- Delays are short, and no timer is taken out that is the first or the last of its list. -/
def Meets (s : State) : Request → Prop
  | .addOneshot _ ms callback => callback = false ∨ ShortDelay s ms
  | .mod t ms => (s.wheel.timers t).state ≠ .active ∨ (Inner s t ∧ ShortDelay s ms)
  | .del t => (s.wheel.timers t).state ≠ .active ∨ Inner s t
  | .tick => True

instance (s : State) (a : Request) : Decidable (Meets s a) :=
  match a with
  | .addOneshot .. => inferInstanceAs (Decidable (_ ∨ ShortDelay ..))
  | .mod .. => inferInstanceAs (Decidable (_ ∨ (Inner .. ∧ ShortDelay ..)))
  | .del _ => inferInstanceAs (Decidable (_ ∨ Inner ..))
  | .tick => inferInstanceAs (Decidable True)

/-- The callbacks that ran are those due, each at its tick, and the lists hold exactly the
    active timers: each of them in one list, at the index of its tick. -/
structure Sound (s : State) : Prop where
  exact : s.calls.Perm s.due
  lists : ∃ filed : Nat × Nat → List Nat, (∀ k, Chain s.wheel.next (s.wheel.lists k) (filed k) ∧ (filed k).Nodup) ∧
    (∀ j k t, t ∈ filed j → t ∈ filed k → j = k) ∧
    (∀ k, ∀ t ∈ filed k, k = (k.1,((s.wheel.timers t).expires >>> (wheelBits * k.1) &&& wheelMask).toNat)) ∧
    ∀ t, (s.wheel.timers t).state = .active ↔ ∃ k, t ∈ filed k

/-! ### Ticks and slots -/

section
variable {T due d : Nat}

private theorem and_mask (x : BitVec 64) : (x &&& wheelMask).toNat = x.toNat % 256 := by
  exact Nat.and_two_pow_sub_one_eq_mod x.toNat 8

private theorem index_eq (due level : Nat) (low : level ≤ 1) :
    (BitVec.ofNat 64 due >>> (wheelBits * level) &&& wheelMask).toNat = due / 256^level % 256 := by
  rw [and_mask,BitVec.toNat_ushiftRight,BitVec.toNat_ofNat]
  interval_cases level
  · simp only [wheelBits]
    omega
  · simp only [wheelBits]
    omega

private theorem delta_eq (low : T ≤ due) (high : due < T + 2^64) : (BitVec.ofNat 64 due - BitVec.ofNat 64 T).toNat = due - T := by
  rw [BitVec.toNat_sub,BitVec.toNat_ofNat,BitVec.toNat_ofNat]
  omega

private theorem calcIndex_near (low : T ≤ due) (high : due < T + 256) :
    calcIndex (BitVec.ofNat 64 due) (BitVec.ofNat 64 T) = (0,due % 256) := by
  have index := index_eq due 0 (by decide)
  rw [calcIndex,delta_eq low (by omega)]
  rw [if_pos (by simp only [wheelBits]; omega),index]
  simp

theorem calcIndex_far (low : T + 256 ≤ due) (high : due < T + 65536) :
    calcIndex (BitVec.ofNat 64 due) (BitVec.ofNat 64 T) = (1,due / 256 % 256) := by
  have index := index_eq due 1 (by decide)
  rw [calcIndex,delta_eq (by omega) (by omega)]
  rw [if_neg (by simp only [wheelBits]; omega),if_pos (by simp only [wheelBits]; omega),index]
  simp

theorem timerMsToJiffies_pos (ms : BitVec 64) : 0 < (timerMsToJiffies ms).toNat := by
  rw [timerMsToJiffies]
  split
  · decide
  case isFalse some =>
    have same : (ms + tickMs - 1) / tickMs = ms := by
      have whole : ms + tickMs - 1 = ms := BitVec.add_sub_cancel ms 1
      rw [whole]
      exact BitVec.udiv_one
    rw [same]
    exact Nat.pos_of_ne_zero (fun zero => some (BitVec.eq_of_toNat_eq zero))

end

/-- A timer waits in level 0 for a tick less than a round away, or in level 1 for a tick in
    one of the next 256 rounds that does not begin the round. -/
structure Waits (w : Wheel) (T : Nat) (due : Nat → Nat) (k : Nat × Nat) (t : Nat) : Prop where
  expires : (w.timers t).expires = BitVec.ofNat 64 (due t)
  place : (k = (0,due t % 256) ∧ T < due t ∧ due t < T + 256) ∨
    (k = (1,due t / 256 % 256) ∧ due t % 256 ≠ 0 ∧ T / 256 < due t / 256 ∧ due t / 256 ≤ T / 256 + 256)

/-- The wheel at tick `T`, with the tick of each timer. -/
structure Core (w : Wheel) (T : Nat) (due : Nat → Nat) (filed : Nat × Nat → List Nat) : Prop where
  clock : w.jiffies = BitVec.ofNat 64 T
  lists : Filed w filed
  waits : ∀ k, ∀ t ∈ filed k, Waits w T due k t
  active : ∀ t, (w.timers t).state = .active ↔ ∃ k, t ∈ filed k
  ready : ∀ k, ∀ t ∈ filed k, (w.timers t).callback = true ∧ (w.timers t).oneshot = true

structure Inv (n : Nat) (s : State) (T : Nat) (due : Nat → Nat) (filed : Nat × Nat → List Nat) : Prop where
  core : Core s.wheel T due filed
  pending : ∀ p, p ∈ s.pending ↔ (∃ k, p.1 ∈ filed k) ∧ p.2 = (s.wheel.timers p.1).expires
  once : (s.pending.map Prod.fst).Nodup
  few : s.pending.length ≤ n
  exact : s.calls.Perm s.due

section
variable {w w' v : Wheel} {T n fuel t : Nat} {due : Nat → Nat} {filed filed' : Nat × Nat → List Nat}
  {k : Nat × Nat} {s : State} {ms e : BitVec 64} {pending : List (Nat × BitVec 64)} {left right : List Nat}

theorem Inv.sound (inv : Inv n s T due filed) : Sound s where
  exact := inv.exact
  lists := by
    refine ⟨filed,fun k => ⟨Links.linked_chain (inv.core.lists.linked k),inv.core.lists.distinct k⟩,inv.core.lists.separate,?_,inv.core.active⟩
    intro k t member
    obtain ⟨expires,place⟩ := inv.core.waits k t member
    rw [expires]
    rcases place with ⟨rfl,_⟩ | ⟨rfl,_⟩
    · rw [index_eq _ 0 (by decide)]
      simp
    · rw [index_eq _ 1 (by decide)]
      simp

/-- The delays that a timer may have. -/
def Short (T d : Nat) : Prop := 0 < d ∧ d < 2^16 ∧ (2^8 ≤ d → (T + d) % 256 ≠ 0)

theorem short_of_meets (clock : s.wheel.jiffies = BitVec.ofNat 64 T) (short : ShortDelay s ms) :
    Short T (timerMsToJiffies ms).toNat := by
  refine ⟨timerMsToJiffies_pos ms,short.1,fun far zero => short.2 far (BitVec.eq_of_toNat_eq ?_)⟩
  rw [and_mask,clock,BitVec.toNat_add,BitVec.toNat_ofNat]
  have nil : (0 : BitVec 64).toNat = 0 := rfl
  omega

theorem Core.arm {d : Nat} (core : Core w T due filed) (fresh : ∀ j, t ∉ filed j) (short : Short T d)
    (expires : (w.timers t).expires = BitVec.ofNat 64 (T+d)) : ∃ w' k, timerEnqueue t w = some w' ∧ Enqueued w w' filed k t ∧
      ∀ j, ∀ a ∈ update filed k (filed k ++ [t]) j, Waits w' T (update due t (T+d)) j a := by
  obtain ⟨positive,small,whole⟩ := short
  obtain ⟨k,slot,place⟩ : ∃ k, calcIndex (w.timers t).expires w.jiffies = k ∧
      ((k = (0,(T+d) % 256) ∧ T < T + d ∧ T + d < T + 256) ∨
        (k = (1,(T+d) / 256 % 256) ∧ (T+d) % 256 ≠ 0 ∧ T / 256 < (T+d) / 256 ∧ (T+d) / 256 ≤ T / 256 + 256)) := by
    rw [expires,core.clock]
    by_cases near : d < 256
    · exact ⟨_,calcIndex_near (by omega) (by omega),Or.inl ⟨rfl,by omega,by omega⟩⟩
    · exact ⟨_,calcIndex_far (by omega) (by omega),Or.inr ⟨rfl,whole (by omega),by omega,by omega⟩⟩
  obtain ⟨w',ran,enqueued⟩ := timerEnqueue_spec core.lists fresh slot
  refine ⟨w',k,ran,enqueued,fun j a member => ?_⟩
  rcases (mem_snoc a j).mp member with old | ⟨rfl,rfl⟩
  · have other := ne_of_mem_of_not_mem old (fresh j)
    obtain ⟨same,waits⟩ := core.waits j a old
    refine ⟨?_,?_⟩
    · rw [(enqueued.fields a).expires,update_of_ne other]
      exact same
    · rw [update_of_ne other]
      exact waits
  · refine ⟨?_,?_⟩
    · rw [(enqueued.fields a).expires,update_self]
      exact expires
    · rw [update_self]
      exact place

/-! ### Adding, changing and deleting -/

theorem nodup_rearm (once : (pending.map Prod.fst).Nodup) : ((rearm t e pending).map Prod.fst).Nodup := by
  rw [rearm,List.map_cons,List.nodup_cons]
  constructor
  · intro member
    obtain ⟨p,inside,same⟩ := List.mem_map.mp member
    have other := (List.mem_filter.mp inside).2
    simp [same] at other
  · exact once.sublist (List.filter_sublist.map _)

private theorem mem_rearm (p : Nat × BitVec 64) : p ∈ rearm t e pending ↔ p = (t,e) ∨ (p ∈ pending ∧ p.1 ≠ t) := by
  rw [rearm,List.mem_cons]
  simp

private theorem length_rearm : (rearm t e pending).length ≤ pending.length + 1 := by
  exact Nat.succ_le_succ (List.length_filter_le ..)

private theorem change_spec (w : Wheel) (t : Nat) (f : Entry → Entry) :
    ∃ v, v = w.change t f ∧ (∀ a, a ≠ t → v.timers a = w.timers a) ∧ v.timers t = f (w.timers t) :=
  ⟨_,rfl,fun a other => by rw [change_timers,if_neg other],by rw [change_timers,if_pos rfl]⟩

theorem Core.inner (core : Core s.wheel T due filed) (active : (s.wheel.timers t).state = .active) (inner : Inner s t) :
    ∃ k left right, filed k = left ++ t :: right ∧ left ≠ [] ∧ right ≠ [] := by
  obtain ⟨k,member⟩ := (core.active t).mp active
  obtain ⟨left,right,cells⟩ := List.append_of_mem member
  have linked := core.lists.linked k
  rw [cells] at linked
  refine ⟨k,left,right,cells,?_,?_⟩
  · rintro rfl
    -- the first timer names the last one, which names no other
    have last := Links.linked_prev_at linked
    have inner := inner.2
    rw [last] at inner
    obtain ⟨z,ends⟩ : ∃ z, ([] ++ t :: right).getLast? = some z := ⟨_,List.getLast?_eq_some_getLast (by simp)⟩
    obtain ⟨rest,whole⟩ := List.getLast?_eq_some_iff.mp ends
    rw [ends] at inner
    rw [whole] at linked
    have none := Links.linked_next_at linked
    simp only [List.getLast?_nil,Option.none_or,Option.bind_some] at inner
    rw [none] at inner
    cases inner
  · rintro rfl
    exact inner.1 (Links.linked_next_at linked)

section
variable (core : Core w T due filed)
include core

theorem Core.change {f : Entry → Entry} (fresh : ∀ j, t ∉ filed j)
    (idle : (f (w.timers t)).state ≠ .active) : Core (w.change t f) T due filed := by
  have others : ∀ a, a ≠ t → (w.change t f).timers a = w.timers a := fun a other => by rw [change_timers,if_neg other]
  have apart : ∀ j, ∀ a ∈ filed j, a ≠ t := fun j a member => ne_of_mem_of_not_mem member (fresh j)
  refine ⟨core.clock,Filed.change core.lists fresh f,?_,?_,?_⟩
  · intro j a member
    obtain ⟨same,place⟩ := core.waits j a member
    exact ⟨by rw [others a (apart j a member)]; exact same,place⟩
  · intro a
    by_cases here : a = t
    · subst here
      rw [change_timers]
      simp [idle,fresh]
    · rw [others a here]
      exact core.active a
  · intro j a member
    rw [others a (apart j a member)]
    exact core.ready j a member

theorem Core.clock_add (d : BitVec 64) : w.jiffies + d = BitVec.ofNat 64 (T + d.toNat) := by
  rw [core.clock,BitVec.ofNat_add,BitVec.ofNat_toNat,BitVec.setWidth_eq]

theorem Core.armed {due' : Nat → Nat} (enqueued : Enqueued w w' filed k t)
    (waits : ∀ j, ∀ a ∈ update filed k (filed k ++ [t]) j, Waits w' T due' j a) (callback : (w.timers t).callback = true)
    (lists : v.lists = w'.lists) (clock : v.jiffies = w'.jiffies)
    (timers : ∀ a, v.timers a = { w'.timers a with oneshot := if a = t then true else (w'.timers a).oneshot }) :
    Core v T due' (update filed k (filed k ++ [t])) := by
  refine ⟨?_,?_,?_,?_,?_⟩
  · rw [clock,enqueued.jiffies]
    exact core.clock
  · refine Queues.congr enqueued.lists lists (fun j a _ => ?_) (fun j a _ => ?_)
    · rw [Wheel.next,timers]
      rfl
    · rw [Wheel.prev,timers]
      rfl
  · intro j a member
    obtain ⟨same,place⟩ := waits j a member
    exact ⟨by rw [timers]; exact same,place⟩
  · intro a
    rw [timers]
    rw [enqueued.state]
    rw [exists_snoc]
    by_cases here : a = t
    · simp [here]
    · simp [here,core.active a]
  · intro j a member
    rw [timers]
    rw [(enqueued.fields a).callback,(enqueued.fields a).oneshot]
    by_cases here : a = t
    · subst here
      exact ⟨callback,if_pos rfl⟩
    · rw [if_neg here]
      rcases (mem_snoc a j).mp member with old | ⟨_,new⟩
      · exact core.ready j a old
      · exact absurd new here

theorem mem_without (cells : filed k = left ++ t :: right) (a : Nat) (j : Nat × Nat) :
    a ∈ update filed k (left ++ right) j ↔ a ∈ filed j ∧ a ≠ t := by
  rw [core.lists.parted.mem_without cells j a]
  exact and_comm

theorem Core.without (cells : filed k = left ++ t :: right)
    (dequeued : Dequeued w w' filed k left right t) : Core w' T due (update filed k (left ++ right)) := by
  refine ⟨?_,dequeued.lists,?_,?_,?_⟩
  · rw [dequeued.jiffies]
    exact core.clock
  · intro j a member
    obtain ⟨same,place⟩ := core.waits j a ((mem_without core cells a j).mp member).1
    exact ⟨by rw [(dequeued.fields a).expires]; exact same,place⟩
  · intro a
    rw [dequeued.state]
    simp only [mem_without core cells]
    by_cases here : a = t
    · subst here
      simp
    · simp [here,core.active a]
  · intro j a member
    rw [(dequeued.fields a).callback,(dequeued.fields a).oneshot]
    exact core.ready j a ((mem_without core cells a j).mp member).1

end

section
variable (inv : Inv n s T due filed)
include inv

theorem Inv.mem_pending : (∃ k, t ∈ filed k) ↔ t ∈ s.pending.map Prod.fst := by
  constructor
  · intro member
    exact List.mem_map.mpr ⟨(t,(s.wheel.timers t).expires),(inv.pending _).mpr ⟨member,rfl⟩,rfl⟩
  · intro member
    obtain ⟨p,waiting,rfl⟩ := List.mem_map.mp member
    exact ((inv.pending p).mp waiting).1

theorem Inv.rearmed (members : ∀ a, (∃ j, a ∈ filed' j) ↔ a = t ∨ ∃ j, a ∈ filed j) (same : ∀ a, a ≠ t → (v.timers a).expires = (s.wheel.timers a).expires)
    (new : (v.timers t).expires = e) (p : Nat × BitVec 64) :
    p ∈ rearm t e s.pending ↔ (∃ k, p.1 ∈ filed' k) ∧ p.2 = (v.timers p.1).expires := by
  obtain ⟨a,x⟩ := p
  rw [mem_rearm,members,inv.pending]
  by_cases here : a = t
  · subst here
    rw [new]
    simp
  · rw [same a here]
    simp [here]

theorem Inv.add {callback : Bool} (legal : Legal s (.addOneshot t ms callback))
    (meets : Meets s (.addOneshot t ms callback)) :
    ∃ s', step fuel s (.addOneshot t ms callback) = some s' ∧ ∃ T due filed, Inv (n+1) s' T due filed := by
  rw [step,timerAddOneshot,timerAdd]
  cases callback with
  | false => exact ⟨_,rfl,T,due,filed,{ inv with few := Nat.le_succ_of_le inv.few }⟩
  | true =>
    have fresh : ∀ j, t ∉ filed j := fun j member => legal ((inv.core.active t).mpr ⟨j,member⟩)
    have short := short_of_meets inv.core.clock (meets.resolve_left nofun)
    obtain ⟨v,made,others,self⟩ :=
      change_spec s.wheel t (fun _ => ⟨none,none,s.wheel.jiffies + timerMsToJiffies ms,true,.inactive,false⟩)
    have core : Core v T due filed := made ▸ inv.core.change fresh nofun
    have expires : (v.timers t).expires = BitVec.ofNat 64 (T + (timerMsToJiffies ms).toNat) := by
      rw [self]
      exact inv.core.clock_add _
    obtain ⟨v',k,ran,enqueued,waits⟩ := core.arm fresh short expires
    rw [← made,ran]
    have timers : ∀ a, (v'.change t (fun e => { e with oneshot := true })).timers a =
        { v'.timers a with oneshot := if a = t then true else (v'.timers a).oneshot } := by
      intro a
      rw [change_timers]
      split
      case isTrue here => rw [here]
      · rfl
    refine ⟨_,rfl,T,_,_,core.armed enqueued waits (by rw [self]) rfl rfl timers,inv.rearmed exists_snoc ?_ ?_,nodup_rearm inv.once,?_,inv.exact⟩
    · intro a other
      rw [if_pos rfl,timers]
      rw [(enqueued.fields a).expires,others a other]
    · rw [if_pos rfl,timers]
      rw [(enqueued.fields t).expires,self]
    · exact Nat.le_trans length_rearm (Nat.succ_le_succ inv.few)

theorem Inv.mod (meets : Meets s (.mod t ms)) :
    ∃ s', step fuel s (.mod t ms) = some s' ∧ ∃ T due filed, Inv (n+1) s' T due filed := by
  rw [step,timerMod]
  by_cases active : (s.wheel.timers t).state = .active
  · obtain ⟨inner,shortMs⟩ := meets.resolve_left (fun not => not active)
    have short := short_of_meets inv.core.clock shortMs
    obtain ⟨k,left,right,cells,behind,before⟩ := inv.core.inner active inner
    obtain ⟨u,dequeue,dequeued⟩ := timerDequeue_spec inv.core.lists cells behind before
    have core := inv.core.without cells dequeued
    have gone := mem_without inv.core cells
    obtain ⟨v,made,others,self⟩ := change_spec u t (fun e => { e with expires := u.jiffies + timerMsToJiffies ms })
    have fresh : ∀ j, t ∉ update filed k (left ++ right) j := fun j member => ((gone t j).mp member).2 rfl
    have idle : (u.timers t).state ≠ .active := by
      rw [Ne,core.active t]
      exact fun ⟨j,member⟩ => fresh j member
    have core' : Core v T due (update filed k (left ++ right)) := made ▸ core.change fresh idle
    have expires : (v.timers t).expires = BitVec.ofNat 64 (T + (timerMsToJiffies ms).toNat) := by
      rw [self]
      exact core.clock_add _
    obtain ⟨v',l,ran,enqueued,waits⟩ := core'.arm fresh short expires
    obtain ⟨ready,oneshot⟩ := inv.core.ready k t (by rw [cells]; simp)
    have timers : ∀ a, v'.timers a = { v'.timers a with oneshot := if a = t then true else (v'.timers a).oneshot } := by
      intro a
      split
      case isTrue here =>
        subst here
        have once : (v'.timers a).oneshot = true := by
          rw [(enqueued.fields a).oneshot,self]
          exact (dequeued.fields a).oneshot.trans oneshot
        rw [← once]
      · rfl
    have callback : (v.timers t).callback = true := by
      rw [self]
      exact (dequeued.fields t).callback.trans ready
    rw [if_neg (fun not => not active),dequeue]
    dsimp only [Option.bind_eq_bind,Option.bind_some]
    rw [← made,ran]
    refine ⟨_,rfl,T,_,_,core'.armed enqueued waits callback rfl rfl timers,inv.rearmed ?_ ?_ ?_,nodup_rearm inv.once,?_,inv.exact⟩
    · intro a
      rw [exists_snoc]
      by_cases here : a = t
      · simp [here]
      · simp [here,gone]
    · intro a other
      rw [(enqueued.fields a).expires,others a other,(dequeued.fields a).expires]
    · rw [(enqueued.fields t).expires,self]
      rw [dequeued.jiffies]
    · exact Nat.le_trans length_rearm (Nat.succ_le_succ inv.few)
  · rw [if_pos active]
    exact ⟨_,rfl,T,due,filed,{ inv with few := Nat.le_succ_of_le inv.few }⟩

theorem Inv.del (meets : Meets s (.del t)) :
    ∃ s', step fuel s (.del t) = some s' ∧ ∃ T due filed, Inv (n+1) s' T due filed := by
  rw [step,timerDel]
  by_cases active : (s.wheel.timers t).state = .active
  · obtain ⟨k,left,right,cells,behind,before⟩ := inv.core.inner active (meets.resolve_left (fun not => not active))
    obtain ⟨u,dequeue,dequeued⟩ := timerDequeue_spec inv.core.lists cells behind before
    rw [if_neg (fun not => not active),dequeue]
    refine ⟨_,rfl,T,due,_,inv.core.without cells dequeued,?_,?_,?_,inv.exact⟩
    · rintro ⟨a,x⟩
      rw [if_pos rfl,List.mem_filter,inv.pending,(dequeued.fields a).expires]
      simp only [mem_without inv.core cells]
      by_cases here : a = t
      · subst here
        simp
      · simp [here]
    · exact inv.once.sublist (List.filter_sublist.map _)
    · exact Nat.le_trans (List.length_filter_le ..) (Nat.le_succ_of_le inv.few)
  · rw [if_pos active]
    exact ⟨_,rfl,T,due,filed,{ inv with few := Nat.le_succ_of_le inv.few }⟩

end

/-! ### Ticks -/

theorem expireLoop_spec : ∀ (cells : List Nat) (fuel : Nat) (head : Option Nat) (w : Wheel) (calls : List (Nat × BitVec 64)),
    cells.length ≤ fuel → Chain w.next head cells → cells.Nodup →
    (∀ t ∈ cells, (w.timers t).callback = true ∧ (w.timers t).oneshot = true) →
    ∃ w', expireLoop fuel head w calls = some (w',calls ++ cells.map (fun t => (t,w.jiffies))) ∧ w'.lists = w.lists ∧
      w'.jiffies = w.jiffies ∧
      ∀ a, w'.timers a = if a ∈ cells then { w.timers a with next := none, prev := none, state := .expired } else w.timers a
  | [], fuel, head, w, calls, _, chain, _, _ => by
    have empty : head = none := chain
    subst empty
    refine ⟨w,?_,rfl,rfl,fun a => by simp⟩
    rw [expireLoop]
    simp
  | t :: rest, fuel, head, w, calls, enough, chain, distinct, ready => by
    obtain ⟨rfl,tail⟩ := chain
    obtain ⟨absent,apart⟩ := List.nodup_cons.mp distinct
    obtain ⟨fuel,rfl⟩ : ∃ f, fuel = f + 1 := ⟨fuel - 1,by simp at enough; omega⟩
    obtain ⟨v,made,others,self⟩ := change_spec w t (fun e => { e with next := none, prev := none, state := .expired })
    have restNe : ∀ a ∈ rest, a ≠ t := fun a member => ne_of_mem_of_not_mem member absent
    obtain ⟨callback,oneshot⟩ := ready t List.mem_cons_self
    have clock : v.jiffies = w.jiffies := by rw [made]; rfl
    have chain : Chain v.next (w.next t) rest := by
      refine Links.chain_congr tail (fun a member => ?_)
      rw [Wheel.next,others a (restNe a member)]
      rfl
    obtain ⟨w',ran,lists,clock',timers⟩ := expireLoop_spec rest fuel (w.next t) v (calls ++ [(t,v.jiffies)])
      (by simp at enough; exact enough) chain apart
      (fun a member => by rw [others a (restNe a member)]; exact ready a (List.mem_cons_of_mem _ member))
    refine ⟨w',?_,?_,clock'.trans clock,fun a => ?_⟩
    · rw [expireLoop]
      rw [← made,self]
      rw [if_pos callback,if_pos oneshot]
      refine ran.trans ?_
      rw [clock,List.append_assoc]
      rfl
    · rw [lists,made]
      rfl
    · rw [timers]
      by_cases here : a = t
      · subst here
        rw [if_neg absent,self,if_pos List.mem_cons_self]
      · rw [others a here]
        simp [here]

private theorem relinked_clear (t a : Nat) :
    Relinked (w.timers a) ((w.change t (fun e => { e with next := none, prev := none })).timers a) := by
  rw [change_timers]
  split
  case isTrue here =>
    subst here
    exact ⟨rfl,rfl,rfl⟩
  · exact ⟨rfl,rfl,rfl⟩

theorem cascadeLoop_spec (slot : Nat → Nat × Nat) : ∀ (cells : List Nat) (fuel : Nat) (head : Option Nat) (w : Wheel)
    (filed : Nat × Nat → List Nat), cells.length ≤ fuel → Chain w.next head cells → cells.Nodup → Filed w filed →
    (∀ t ∈ cells, ∀ j, t ∉ filed j) → (∀ t ∈ cells, calcIndex (w.timers t).expires w.jiffies = slot t) →
    ∃ w' filed', cascadeLoop fuel head w = some w' ∧ Filed w' filed' ∧
      (∀ a j, a ∈ filed' j ↔ a ∈ filed j ∨ (a ∈ cells ∧ j = slot a)) ∧ (∀ a, Relinked (w.timers a) (w'.timers a)) ∧
      (∀ a, (w'.timers a).state = if a ∈ cells then .active else (w.timers a).state) ∧ w'.jiffies = w.jiffies
  | [], fuel, head, w, filed, _, chain, _, ok, _, _ => by
    have empty : head = none := chain
    subst empty
    exact ⟨w,filed,by rw [cascadeLoop],ok,by simp,fun _ => ⟨rfl,rfl,rfl⟩,by simp,rfl⟩
  | t :: rest, fuel, head, w, filed, enough, chain, distinct, ok, fresh, slots => by
    obtain ⟨rfl,tail⟩ := chain
    obtain ⟨absent,apart⟩ := List.nodup_cons.mp distinct
    obtain ⟨fuel,rfl⟩ : ∃ f, fuel = f + 1 := ⟨fuel - 1,by simp at enough; omega⟩
    obtain ⟨v,made,others,self⟩ := change_spec w t (fun e => { e with next := none, prev := none })
    have clock : v.jiffies = w.jiffies := by rw [made]; rfl
    have freshT := fresh t List.mem_cons_self
    have restNe : ∀ a ∈ rest, a ≠ t := fun a member => ne_of_mem_of_not_mem member absent
    have cleared : Filed v filed := by
      rw [made]
      exact Filed.change ok freshT _
    have here : calcIndex (v.timers t).expires v.jiffies = slot t := by
      rw [self,clock]
      exact slots t List.mem_cons_self
    obtain ⟨u,enqueue,enqueued⟩ := timerEnqueue_spec cleared freshT here
    have unmoved : ∀ a ∈ rest, u.timers a = w.timers a := by
      intro a member
      rw [enqueued.others a (restNe a member) (fresh a (List.mem_cons_of_mem _ member) _),others a (restNe a member)]
    have chain : Chain u.next (w.next t) rest := by
      refine Links.chain_congr tail (fun a member => ?_)
      rw [Wheel.next,unmoved a member]
      rfl
    obtain ⟨w',filed',ran,ok',members,fields,states,clock'⟩ := cascadeLoop_spec slot rest fuel (w.next t) u
      (update filed (slot t) (filed (slot t) ++ [t])) (by simp at enough; exact enough) chain apart enqueued.lists
      (by
        intro a member j inside
        rcases (mem_snoc a j).mp inside with old | ⟨_,new⟩
        · exact fresh a (List.mem_cons_of_mem _ member) j old
        · exact restNe a member new)
      (fun a member => by
        rw [unmoved a member,enqueued.jiffies,clock]
        exact slots a (List.mem_cons_of_mem _ member))
    refine ⟨w',filed',?_,ok',?_,?_,?_,clock'.trans (enqueued.jiffies.trans clock)⟩
    · rw [cascadeLoop,← made,enqueue]
      exact ran
    · intro a j
      rw [members,mem_snoc,List.mem_cons]
      constructor
      · rintro ((old | ⟨place,new⟩) | ⟨later,place⟩)
        · exact Or.inl old
        · exact Or.inr ⟨Or.inl new,by rw [place,new]⟩
        · exact Or.inr ⟨Or.inr later,place⟩
      · rintro (old | ⟨new | later,place⟩)
        · exact Or.inl (Or.inl old)
        · exact Or.inl (Or.inr ⟨by rw [place,new],new⟩)
        · exact Or.inr ⟨later,place⟩
    · intro a
      have base : Relinked (w.timers a) (v.timers a) := by
        rw [made]
        exact relinked_clear t a
      exact (base.trans (enqueued.fields a)).trans (fields a)
    · intro a
      rw [states,enqueued.state]
      by_cases isT : a = t
      · subst isT
        simp
      · rw [others a isT]
        simp [isT]

section
variable (waits : Waits w T due k t)
include waits

theorem Waits.bounds : T < due t ∧ due t < T + 2^17 := by
  rcases waits.place with ⟨_,low,high⟩ | ⟨_,_,low,high⟩ <;> omega

theorem Waits.due_iff : k = (0,(T+1) % 256) ↔ due t = T + 1 := by
  rcases waits.place with ⟨rfl,low,high⟩ | ⟨rfl,whole,low,high⟩
  · simp only [Prod.mk.injEq,true_and]
    omega
  · simp only [Prod.mk.injEq]
    omega

theorem Waits.expires_iff : (w.timers t).expires = BitVec.ofNat 64 (T+1) ↔ due t = T + 1 := by
  have bounds := waits.bounds
  rw [waits.expires,← BitVec.toNat_inj,BitVec.toNat_ofNat,BitVec.toNat_ofNat]
  omega

theorem Waits.stays (later : due t ≠ T + 1) (kept : (T+1) % 256 = 0 → k ≠ (1,(T+1) / 256 % 256)) :
    (k = (0,due t % 256) ∧ T + 1 < due t ∧ due t < T + 1 + 256) ∨
      (k = (1,due t / 256 % 256) ∧ due t % 256 ≠ 0 ∧ (T+1) / 256 < due t / 256 ∧ due t / 256 ≤ (T+1) / 256 + 256) := by
  rcases waits.place with ⟨slot,low,high⟩ | ⟨slot,whole,low,high⟩
  · exact Or.inl ⟨slot,by omega,by omega⟩
  · refine Or.inr ⟨slot,whole,?_,by omega⟩
    by_cases round : (T+1) % 256 = 0
    · have other := kept round
      rw [slot] at other
      simp only [ne_eq,Prod.mk.injEq,true_and] at other
      omega
    · omega

end

theorem Waits.cascaded (waits : Waits w T due (1,(T+1) / 256 % 256) t) (round : (T+1) % 256 = 0) : T + 1 < due t ∧ due t < T + 1 + 256 := by
  rcases waits.place with ⟨slot,_⟩ | ⟨slot,whole,low,high⟩
  · simp at slot
  · simp only [Prod.mk.injEq] at slot
    omega

theorem Inv.length_le (inv : Inv n s T due filed) (k : Nat × Nat) : (filed k).length ≤ n := by
  have inside : filed k ⊆ s.pending.map Prod.fst := fun a member => inv.mem_pending.mp ⟨k,member⟩
  have shorter := ((inv.core.lists.distinct k).subperm inside).length_le
  rw [List.length_map] at shorter
  exact Nat.le_trans shorter inv.few

theorem Core.expired (core : Core w T due filed) (enough : (filed (0,(T+1) % 256)).length ≤ fuel) :
    ∃ w', expireLoop fuel (w.lists (0,(T+1) % 256)) (Wheel.setList { w with jiffies := w.jiffies + 1 } (0,(T+1) % 256) none) [] =
        some (w',(filed (0,(T+1) % 256)).map (fun t => (t,BitVec.ofNat 64 (T+1)))) ∧
      w'.jiffies = BitVec.ofNat 64 (T+1) ∧ Filed w' (update filed (0,(T+1) % 256) []) ∧
      w'.lists = update w.lists (0,(T+1) % 256) none ∧ (∀ a, Relinked (w.timers a) (w'.timers a)) ∧
      ∀ a, (w'.timers a).state = if a ∈ filed (0,(T+1) % 256) then .expired else (w.timers a).state := by
  have clock : w.jiffies + 1 = BitVec.ofNat 64 (T+1) := core.clock_add 1
  obtain ⟨w',ran,lists,clock',timers⟩ := expireLoop_spec (filed (0,(T+1) % 256)) fuel (w.lists (0,(T+1) % 256))
    (Wheel.setList { w with jiffies := w.jiffies + 1 } (0,(T+1) % 256) none) [] enough
    (Links.linked_chain (core.lists.linked _)) (core.lists.distinct _) (core.ready _)
  have outside : ∀ j, ∀ a ∈ update filed (0,(T+1) % 256) [] j, a ∉ filed (0,(T+1) % 256) :=
    fun j a member => ((core.lists.parted.mem_emptied _ j a).mp member).2
  refine ⟨w',?_,clock'.trans clock,?_,lists,?_,?_⟩
  · rw [← clock]
    exact ran
  · refine Queues.congr (Queues.detach core.lists (0,(T+1) % 256)) lists (fun j a member => ?_) (fun j a member => ?_)
    · rw [Wheel.next,timers,if_neg (outside j a member)]
      rfl
    · rw [Wheel.prev,timers,if_neg (outside j a member)]
      rfl
  · intro a
    rw [timers]
    split <;> exact ⟨rfl,rfl,rfl⟩
  · intro a
    rw [timers]
    split <;> rfl

/-- Where the timers are after a tick. -/
def ticked (T : Nat) (due : Nat → Nat) (filed : Nat × Nat → List Nat) (a : Nat) (j : Nat × Nat) : Prop :=
  if (T+1) % 256 = 0 ∧ a ∈ filed (1,(T+1) / 256 % 256) then j = (0,due a % 256)
  else a ∈ filed j ∧ a ∉ filed (0,(T+1) % 256)

section
variable (core : Core w T due filed)
include core

/-- At the end of a round the list of the next one is filed again, by the lowest bits. -/
theorem Core.cascaded (enough : ∀ k, (filed k).length ≤ fuel) (round : (T+1) % 256 = 0)
    (clockV : v.jiffies = BitVec.ofNat 64 (T+1)) (listsV : Filed v (update filed (0,(T+1) % 256) []))
    (fieldsV : ∀ a, Relinked (w.timers a) (v.timers a)) :
    ∃ u filed', cascade fuel 0 v = some u ∧ u.jiffies = v.jiffies ∧ Filed u filed' ∧ (∀ a, Relinked (v.timers a) (u.timers a)) ∧
      (∀ a, (u.timers a).state = if a ∈ filed (1,(T+1) / 256 % 256) then .active else (v.timers a).state) ∧
      ∀ a j, a ∈ filed' j ↔ ticked T due filed a j := by
  have slotIs : (v.jiffies >>> (wheelBits * (0+1)) &&& wheelMask).toNat = (T+1) / 256 % 256 := by
    rw [clockV,index_eq (T+1) (0+1) (by decide),Nat.pow_one]
  rw [cascade]
  rw [slotIs]
  have apart : ((0+1,(T+1) / 256 % 256) : Nat × Nat) ≠ (0,(T+1) % 256) := by simp
  have same : update filed (0,(T+1) % 256) [] (0+1,(T+1) / 256 % 256) = filed (1,(T+1) / 256 % 256) :=
    update_of_ne apart ..
  -- the lists of the tick and of the round are empty now
  have emptied : ∀ j a, a ∈ update (update filed (0,(T+1) % 256) []) (0+1,(T+1) / 256 % 256) [] j ↔
      (a ∈ filed j ∧ a ∉ filed (0,(T+1) % 256)) ∧ a ∉ filed (1,(T+1) / 256 % 256) := by
    intro j a
    rw [listsV.parted.mem_emptied,core.lists.parted.mem_emptied,same]
  have waits : ∀ t ∈ filed (1,(T+1) / 256 % 256), T + 1 < due t ∧ due t < T + 1 + 256 :=
    fun t member => (core.waits _ t member).cascaded round
  have chain := Links.linked_chain (listsV.linked (0+1,(T+1) / 256 % 256))
  obtain ⟨u,filed',cascaded,ok,members,fields,states,clockU⟩ := cascadeLoop_spec (fun t => (0,due t % 256)) (filed (1,(T+1) / 256 % 256)) fuel
    (v.lists (0+1,(T+1) / 256 % 256)) (v.setList (0+1,(T+1) / 256 % 256) none)
    (update (update filed (0,(T+1) % 256) []) (0+1,(T+1) / 256 % 256) []) (enough _) chain (core.lists.distinct _)
    (Queues.detach listsV _)
    (fun a inside j member => ((emptied j a).mp member).2 inside)
    (by
      intro a inside
      have expires : ((v.setList (0+1,(T+1) / 256 % 256) none).timers a).expires = BitVec.ofNat 64 (due a) :=
        (fieldsV a).expires.trans (core.waits _ a inside).expires
      have now : (v.setList (0+1,(T+1) / 256 % 256) none).jiffies = BitVec.ofNat 64 (T+1) := clockV
      rw [expires,now]
      exact calcIndex_near (Nat.le_of_lt (waits a inside).1) (waits a inside).2)
  refine ⟨u,filed',cascaded,clockU,ok,fields,states,fun a j => ?_⟩
  rw [members,emptied,ticked]
  by_cases inside : a ∈ filed (1,(T+1) / 256 % 256)
  · simp [inside,round]
  · simp [inside]

theorem expireLevel0_spec (enough : ∀ k, (filed k).length ≤ fuel) :
    ∃ w' filed', expireLevel0 fuel { w with jiffies := w.jiffies + 1 } =
        some (w',(filed (0,(T+1) % 256)).map (fun t => (t,BitVec.ofNat 64 (T+1)))) ∧
      w'.jiffies = BitVec.ofNat 64 (T+1) ∧ Filed w' filed' ∧ (∀ a, Relinked (w.timers a) (w'.timers a)) ∧
      (∀ a, (w'.timers a).state = if a ∈ filed (0,(T+1) % 256) then .expired else (w.timers a).state) ∧
      ∀ a j, a ∈ filed' j ↔ ticked T due filed a j := by
  have clock : w.jiffies + 1 = BitVec.ofNat 64 (T+1) := core.clock_add 1
  have idx : ((w.jiffies + 1) &&& wheelMask).toNat = (T+1) % 256 := by
    rw [and_mask,clock,BitVec.toNat_ofNat]
    omega
  obtain ⟨v,ran,clockV,listsV,headsV,fieldsV,statesV⟩ := core.expired (enough _)
  rw [expireLevel0]
  rw [idx,ran]
  dsimp only [Option.bind_eq_bind,Option.bind_some]
  by_cases round : (T+1) % 256 = 0
  · obtain ⟨u,filed',cascaded,clockU,ok,fields,states,members⟩ := core.cascaded enough round clockV listsV fieldsV
    rw [if_pos round,cascaded]
    refine ⟨u,filed',rfl,clockU.trans clockV,ok,fun a => (fieldsV a).trans (fields a),?_,members⟩
    intro a
    rw [states]
    split
    case isTrue inside =>
      have notNow : a ∉ filed (0,(T+1) % 256) := by
        intro now
        have key := core.lists.separate _ _ a inside now
        simp at key
      rw [if_neg notNow]
      exact ((core.active a).mpr ⟨_,inside⟩).symm
    · exact statesV a
  · rw [if_neg round]
    refine ⟨v,_,rfl,clockV,listsV,fieldsV,statesV,fun a j => ?_⟩
    rw [ticked,if_neg (fun both => round both.1)]
    exact core.lists.parted.mem_emptied _ j a

theorem exists_ticked (a : Nat) :
    (∃ j, ticked T due filed a j) ↔ (∃ j, a ∈ filed j) ∧ a ∉ filed (0,(T+1) % 256) := by
  simp only [ticked]
  by_cases moved : (T+1) % 256 = 0 ∧ a ∈ filed (1,(T+1) / 256 % 256)
  · simp only [if_pos moved]
    refine ⟨fun _ => ⟨⟨_,moved.2⟩,fun now => ?_⟩,fun _ => ⟨_,rfl⟩⟩
    have key := core.lists.separate _ _ a moved.2 now
    simp at key
  · simp only [if_neg moved]
    exact ⟨fun ⟨j,inside,later⟩ => ⟨⟨j,inside⟩,later⟩,fun ⟨⟨j,inside⟩,later⟩ => ⟨j,inside,later⟩⟩

theorem Core.now_iff {a : Nat} (waiting : ∃ j, a ∈ filed j) :
    a ∈ filed (0,(T+1) % 256) ↔ (w.timers a).expires = BitVec.ofNat 64 (T+1) := by
  obtain ⟨j,inside⟩ := waiting
  have waits := core.waits j a inside
  rw [waits.expires_iff,← waits.due_iff]
  constructor
  · exact fun now => core.lists.separate j _ a inside now
  · rintro rfl
    exact inside

theorem Core.tick (clock : w'.jiffies = BitVec.ofNat 64 (T+1)) (lists : Filed w' filed')
    (fields : ∀ a, Relinked (w.timers a) (w'.timers a))
    (states : ∀ a, (w'.timers a).state = if a ∈ filed (0,(T+1) % 256) then .expired else (w.timers a).state)
    (members : ∀ a j, a ∈ filed' j ↔ ticked T due filed a j) : Core w' (T+1) due filed' := by
  refine ⟨clock,lists,?_,?_,?_⟩
  · intro j a inside
    rw [members,ticked] at inside
    split at inside
    case isTrue moved =>
      have waits := core.waits _ a moved.2
      have bounds := waits.cascaded moved.1
      exact ⟨(fields a).expires.trans waits.expires,Or.inl ⟨inside,bounds.1,bounds.2⟩⟩
    case isFalse kept =>
      have waits := core.waits j a inside.1
      refine ⟨(fields a).expires.trans waits.expires,waits.stays (fun now => ?_) (fun round slot => ?_)⟩
      · have here := waits.due_iff.mpr now
        exact inside.2 (here ▸ inside.1)
      · exact kept ⟨round,slot ▸ inside.1⟩
  · intro a
    simp only [members]
    rw [exists_ticked core,states]
    by_cases now : a ∈ filed (0,(T+1) % 256)
    · simp [now]
    · simp [now,core.active a]
  · intro j a inside
    have some := (exists_ticked core a).mp ⟨j,(members a j).mp inside⟩
    obtain ⟨⟨i,old⟩,_⟩ := some
    rw [(fields a).callback,(fields a).oneshot]
    exact core.ready i a old

end

theorem Inv.tick (inv : Inv n s T due filed) (enough : n ≤ fuel) :
    ∃ s', step fuel s .tick = some s' ∧ ∃ T due filed, Inv (n+1) s' T due filed := by
  have clock : s.wheel.jiffies + 1 = BitVec.ofNat 64 (T+1) := inv.core.clock_add 1
  obtain ⟨v,filed',ran,clockV,lists,fields,states,members⟩ :=
    expireLevel0_spec inv.core (fun k => Nat.le_trans (inv.length_le k) enough)
  rw [step,timerTick,ran]
  have waits : ∀ p ∈ s.pending, p.2 = BitVec.ofNat 64 (T+1) ↔ p.1 ∈ filed (0,(T+1) % 256) := by
    intro p member
    obtain ⟨waiting,expires⟩ := (inv.pending p).mp member
    rw [inv.core.now_iff waiting,expires]
  refine ⟨_,rfl,T+1,due,filed',?_,?_,?_,?_,?_⟩
  · exact inv.core.tick clockV (Queues.congr lists rfl (fun _ _ _ => rfl) (fun _ _ _ => rfl)) fields states members
  · intro p
    rw [List.mem_filter,(fields p.1).expires,clock]
    simp only [members]
    rw [exists_ticked inv.core]
    simp only [decide_eq_true_eq]
    constructor
    · rintro ⟨member,later⟩
      obtain ⟨waiting,expires⟩ := (inv.pending p).mp member
      exact ⟨⟨waiting,fun now => later ((waits p member).mpr now)⟩,expires⟩
    · rintro ⟨⟨waiting,later⟩,expires⟩
      have member := (inv.pending p).mpr ⟨waiting,expires⟩
      exact ⟨member,fun now => later ((waits p member).mp now)⟩
  · exact inv.once.sublist (List.filter_sublist.map _)
  · exact Nat.le_trans (List.length_filter_le ..) (Nat.le_succ_of_le inv.few)
  · refine inv.exact.append ?_
    rw [clock]
    refine (List.perm_ext_iff_of_nodup ?_ ?_).mpr ?_
    · exact (inv.core.lists.distinct _).map (fun a b same => (Prod.mk.inj same).1)
    · exact (List.Nodup.of_map _ inv.once).filter _
    · intro p
      rw [List.mem_map,List.mem_filter]
      simp only [decide_eq_true_eq]
      constructor
      · rintro ⟨a,now,rfl⟩
        have member := (inv.pending (a,BitVec.ofNat 64 (T+1))).mpr ⟨⟨_,now⟩,((inv.core.now_iff ⟨_,now⟩).mp now).symm⟩
        exact ⟨member,rfl⟩
      · rintro ⟨member,now⟩
        exact ⟨p.1,(waits p member).mp now,by rw [← now]⟩

end

theorem inv_step {limit : Nat} (n : Nat) (s : State) (a : Request) (less : n < limit) (inv : ∃ T due filed, Inv n s T due filed)
    (ok : Legal s a ∧ Meets s a) : ∃ s', step limit s a = some s' ∧ ∃ T due filed, Inv (n+1) s' T due filed := by
  obtain ⟨T,due,filed,inv⟩ := inv
  cases a with
  | addOneshot t ms callback => exact inv.add ok.1 ok.2
  | mod t ms => exact inv.mod ok.2
  | del t => exact inv.del ok.2
  | tick => exact inv.tick (Nat.le_of_lt less)

theorem start_inv {timers : Nat → Entry} (idle : ∀ t, (timers t).state ≠ .active) :
    Inv 0 (start timers) 0 (fun _ => 0) (fun _ => []) where
  core := ⟨rfl,⟨fun _ => rfl,fun _ => List.nodup_nil,nofun⟩,nofun,fun t => by simp [start,idle t],nofun⟩
  pending := by simp [start]
  once := List.nodup_nil
  few := Nat.le_refl 0
  exact := .refl _

/-- Every run that meets the condition, of at most as many steps as the loops may take rounds:
    each timer runs exactly once, at its tick, and the lists hold the active timers. -/
theorem timer_run_exact (timers : Nat → Entry) (idle : ∀ t, (timers t).state ≠ .active) (requests : List Request) (fuel : Nat)
    (enough : requests.length ≤ fuel) (guarded : Guarded (step fuel) (fun s a => Legal s a ∧ Meets s a) (start timers) requests) :
    ∃ s, run (step fuel) (start timers) requests = some s ∧ Sound s := by
  obtain ⟨s,ran,T,due,filed,inv⟩ :=
    run_counted inv_step requests 0 _ (by simpa using enough) ⟨_,_,_,start_inv idle⟩ guarded
  exact ⟨s,ran,inv.sound⟩

def idleTimers : Nat → Entry := fun _ => ⟨none,none,0,false,.inactive,false⟩

def shortRun : List Request :=
  [.addOneshot 1 3 true, .addOneshot 2 3 true, .addOneshot 3 3 true, .addOneshot 4 3 true, .addOneshot 5 300 true, .del 2, .mod 3 1, .tick,
    .tick, .tick]

theorem timer_run_exact_of_shortRun :
    Guarded (step 10) (fun s a => Legal s a ∧ Meets s a) (start idleTimers) shortRun ∧
      ∃ s, run (step 10) (start idleTimers) shortRun = some s ∧ Sound s :=
  have guarded : Guarded (step 10) (fun s a => Legal s a ∧ Meets s a) (start idleTimers) shortRun := by decide +kernel
  ⟨guarded,timer_run_exact idleTimers (fun _ => nofun) shortRun 10 (by decide) guarded⟩

private theorem legal_ticks (fuel : Nat) : ∀ (n : Nat) (s : State), Guarded (step fuel) Legal s (List.replicate n .tick)
  | 0, _ => trivial
  | n+1, _ => ⟨trivial,fun t _ => legal_ticks fuel n t⟩

/-- A timer of 256 ticks has not run at its tick; the only timer of a list cannot be deleted;
    and the first of two stays at the head of its list. -/
theorem timer_wheel_late :
    (Guarded (step 300) Legal (start idleTimers) (.addOneshot 1 256 true :: List.replicate 256 .tick) ∧
      ∃ s, run (step 300) (start idleTimers) (.addOneshot 1 256 true :: List.replicate 256 .tick) = some s ∧
        s.due = [(1,256)] ∧ s.calls = [] ∧ ¬ Sound s) ∧
    (Guarded (step 300) Legal (start idleTimers) [.addOneshot 1 5 true, .del 1] ∧
      run (step 300) (start idleTimers) [.addOneshot 1 5 true, .del 1] = none) ∧
    (Guarded (step 300) Legal (start idleTimers) [.addOneshot 1 5 true, .addOneshot 2 5 true, .del 1] ∧
      ∃ s, run (step 300) (start idleTimers) [.addOneshot 1 5 true, .addOneshot 2 5 true, .del 1] = some s ∧ ¬ Sound s) := by
  refine ⟨⟨⟨by decide,fun t _ => legal_ticks 300 256 t⟩,?_⟩,⟨by decide +kernel,?_⟩,by decide +kernel,?_⟩
  · refine run_shows (fun s => (s.due,s.calls)) ([(1,256)],[]) (by decide +kernel) (fun s seen => ?_)
    obtain ⟨due,calls⟩ := Prod.mk.inj seen
    refine ⟨due,calls,fun sound => ?_⟩
    have exact_ := sound.exact
    rw [due,calls] at exact_
    exact absurd exact_.length_eq nofun
  · exact Option.isNone_iff_eq_none.mp (by decide +kernel)
  · refine run_shows (fun s => (s.wheel.lists (0,5),(s.wheel.timers 1).state)) (some 1,.inactive) (by decide +kernel)
      (fun s seen sound => ?_)
    obtain ⟨head,state⟩ := Prod.mk.inj seen
    obtain ⟨filed,chains,_,_,active⟩ := sound.lists
    have chain := (chains (0,5)).1
    rw [head] at chain
    have inside : 1 ∈ filed (0,5) := by
      cases cells : filed (0,5) with
      | nil =>
        rw [cells] at chain
        cases chain
      | cons a rest =>
        rw [cells] at chain
        cases chain.1
        exact List.mem_cons_self
    have running := (active 1).mpr ⟨_,inside⟩
    rw [state] at running
    cases running

end Kenux.TimerRuns
