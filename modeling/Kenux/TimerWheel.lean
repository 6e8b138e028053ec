import Kenux.Links
import Mathlib.Data.List.Basic

/-!
The timer wheel (`timer.c`): four levels of 256 lists of timers, where the first timer
of a list names the last one as its previous one. `__timer_enqueue` puts a timer behind
the last one of the list of its slot (`timerEnqueue_spec`). `__timer_dequeue` takes the
lists for circular: it follows the `NULL` next pointer of the last timer, and leaves the
first one at the head; it takes out a timer between two others (`timerDequeue_spec`).
-/
namespace Kenux.TimerWheel
open Kenux.Links (Queues)

def wheelBits : Nat := 8
def wheelMask : BitVec 64 := 255
def wheelLevels : Nat := 4
def tickMs : BitVec 64 := 1

inductive TimerState where
  | inactive
  | active
  | expired
  deriving DecidableEq, Repr

/-- A timer; pointers are timers or `NULL`, and `callback` says if there is one. -/
structure Entry where
  next : Option Nat
  prev : Option Nat
  expires : BitVec 64
  callback : Bool
  state : TimerState
  oneshot : Bool
  deriving DecidableEq, Repr

/-- The timers in memory, and the wheel: the head of each list by level and index. -/
structure Wheel where
  timers : Nat → Entry
  lists : Nat × Nat → Option Nat
  jiffies : BitVec 64
  nextExpire : BitVec 64

namespace Wheel

def next (w : Wheel) (t : Nat) : Option Nat := (w.timers t).next

def prev (w : Wheel) (t : Nat) : Option Nat := (w.timers t).prev

def change (w : Wheel) (t : Nat) (f : Entry → Entry) : Wheel := { w with timers := Function.update w.timers t (f (w.timers t)) }

def setList (w : Wheel) (slot : Nat × Nat) (p : Option Nat) : Wheel := { w with lists := Function.update w.lists slot p }

end Wheel

def timerMsToJiffies (ms : BitVec 64) : BitVec 64 := if ms = 0 then 1 else (ms + tickMs - 1) / tickMs

def calcIndex (expires now : BitVec 64) : Nat × Nat :=
  let delta := (expires - now).toNat
  let level := if delta < 1 <<< (wheelBits * 1) then 0
    else if delta < 1 <<< (wheelBits * 2) then 1
    else if delta < 1 <<< (wheelBits * 3) then 2
    else 3
  (level,(expires >>> (wheelBits * level) &&& wheelMask).toNat)

def timerEnqueue (t : Nat) (w : Wheel) : Option Wheel := do
  let slot := calcIndex (w.timers t).expires w.jiffies
  let list := w.lists slot
  let w := w.change t (fun e => { e with next := none })
  let w := w.change t (fun e => { e with prev := list.bind w.prev })
  let w ← match list with
    | some first => do
      let last ← w.prev first
      let w := w.change last (fun e => { e with next := some t })
      some (w.change first (fun e => { e with prev := some t }))
    | none => some ((w.setList slot (some t)).change t (fun e => { e with prev := some t }))
  let w := w.change t (fun e => { e with state := .active })
  some (if (w.timers t).expires < w.nextExpire then { w with nextExpire := (w.timers t).expires } else w)

def timerDequeue (t : Nat) (w : Wheel) : Option Wheel := do
  let w ← if w.next t = some t then some (w.setList (calcIndex (w.timers t).expires w.jiffies) none)
    else do
      let before ← w.prev t
      let w := w.change before (fun e => { e with next := w.next t })
      let behind ← w.next t
      some (w.change behind (fun e => { e with prev := w.prev t }))
  some (w.change t (fun e => { e with next := none, prev := none, state := .inactive }))

def cascadeLoop : Nat → Option Nat → Wheel → Option Wheel
  | _, none, w => some w
  | 0, some _, _ => none
  | fuel+1, some t, w => do
    let next := w.next t
    let w ← timerEnqueue t (w.change t (fun e => { e with next := none, prev := none }))
    cascadeLoop fuel next w

def cascade (fuel level : Nat) (w : Wheel) : Option Wheel :=
  if level ≥ wheelLevels - 1 then some w
  else
    let slot := (level+1,(w.jiffies >>> (wheelBits * (level+1)) &&& wheelMask).toNat)
    cascadeLoop fuel (w.lists slot) (w.setList slot none)

/-- The loop of `__expire_level0`, with the callbacks that ran: each timer and the time. -/
def expireLoop : Nat → Option Nat → Wheel → List (Nat × BitVec 64) → Option (Wheel × List (Nat × BitVec 64))
  | _, none, w, calls => some (w,calls)
  | 0, some _, _, _ => none
  | fuel+1, some t, w, calls => do
    let next := w.next t
    let w := w.change t (fun e => { e with next := none, prev := none, state := .expired })
    let calls := if (w.timers t).callback then calls ++ [(t,w.jiffies)] else calls
    let w ← if (w.timers t).oneshot then some w
      else timerEnqueue t (w.change t (fun e => { e with expires := e.expires + timerMsToJiffies 1 }))
    expireLoop fuel next w calls

def expireLevel0 (fuel : Nat) (w : Wheel) : Option (Wheel × List (Nat × BitVec 64)) := do
  let idx := (w.jiffies &&& wheelMask).toNat
  let (w,calls) ← expireLoop fuel (w.lists (0,idx)) (w.setList (0,idx) none) []
  let w ← if idx = 0 then cascade fuel 0 w else some w
  some (w,calls)

def timerTick (fuel : Nat) (w : Wheel) : Option (Wheel × List (Nat × BitVec 64)) := do
  let (w,calls) ← expireLevel0 fuel { w with jiffies := w.jiffies + 1 }
  let found := (List.range wheelLevels).any (fun l => (w.lists (l,(w.jiffies >>> (wheelBits * l) &&& wheelMask).toNat)).isSome)
  some ({ w with nextExpire := if found then w.jiffies else BitVec.allOnes 64 },calls)

def timerAdd (t : Nat) (ms : BitVec 64) (callback : Bool) (w : Wheel) : Option (Int × Wheel) :=
  if callback then do
    let w ← timerEnqueue t (w.change t (fun _ => ⟨none,none,w.jiffies + timerMsToJiffies ms,true,.inactive,false⟩))
    some (0,w)
  else some (-1,w)

def timerAddOneshot (t : Nat) (ms : BitVec 64) (callback : Bool) (w : Wheel) : Option (Int × Wheel) := do
  let (ret,w) ← timerAdd t ms callback w
  some (ret,if ret = 0 then w.change t (fun e => { e with oneshot := true }) else w)

def timerMod (t : Nat) (ms : BitVec 64) (w : Wheel) : Option (Int × Wheel) :=
  if (w.timers t).state ≠ .active then some (-1,w)
  else do
    let w ← timerDequeue t w
    let w ← timerEnqueue t (w.change t (fun e => { e with expires := w.jiffies + timerMsToJiffies ms }))
    some (0,w)

def timerDel (t : Nat) (w : Wheel) : Option (Int × Wheel) :=
  if (w.timers t).state ≠ .active then some (-1,w)
  else do some (0,← timerDequeue t w)

section
variable {w : Wheel} {filed : Nat × Nat → List Nat} {k : Nat × Nat} {t : Nat} {f : Entry → Entry}

theorem change_timers (a : Nat) : (w.change t f).timers a = if a = t then f (w.timers t) else w.timers a := by
  exact Function.update_apply ..

/-- The lists of the wheel. -/
def Filed (w : Wheel) (filed : Nat × Nat → List Nat) : Prop := Queues w.next w.prev w.lists filed

theorem Filed.change (ok : Filed w filed) (fresh : ∀ j, t ∉ filed j) (f : Entry → Entry) : Filed (w.change t f) filed := by
  have same : ∀ j, ∀ a ∈ filed j, (w.change t f).timers a = w.timers a := by
    intro j a member
    rw [change_timers,if_neg (ne_of_mem_of_not_mem member (fresh j))]
  refine Queues.congr ok rfl (fun j a member => ?_) (fun j a member => ?_)
  · rw [Wheel.next,same j a member]
    rfl
  · rw [Wheel.prev,same j a member]
    rfl

/-- A timer that only differs in its links and its state. -/
structure Relinked (e e' : Entry) : Prop where
  expires : e'.expires = e.expires
  callback : e'.callback = e.callback
  oneshot : e'.oneshot = e.oneshot

theorem Relinked.trans {e e' e'' : Entry} (first : Relinked e e') (second : Relinked e' e'') : Relinked e e'' where
  expires := second.expires.trans first.expires
  callback := second.callback.trans first.callback
  oneshot := second.oneshot.trans first.oneshot

/-- What putting a timer in the list of its slot does. -/
structure Enqueued (w w' : Wheel) (filed : Nat × Nat → List Nat) (k : Nat × Nat) (t : Nat) : Prop where
  lists : Filed w' (Function.update filed k (filed k ++ [t]))
  fields : ∀ a, Relinked (w.timers a) (w'.timers a)
  state : ∀ a, (w'.timers a).state = if a = t then .active else (w.timers a).state
  others : ∀ a, a ≠ t → a ∉ filed k → w'.timers a = w.timers a
  jiffies : w'.jiffies = w.jiffies

/-- The wheel with the next expiry that `__timer_enqueue` may set. -/
def noted (w : Wheel) (t : Nat) : Wheel :=
  if (w.timers t).expires < w.nextExpire then { w with nextExpire := (w.timers t).expires } else w

private theorem noted_spec (w : Wheel) (t : Nat) :
    (noted w t).timers = w.timers ∧ (noted w t).lists = w.lists ∧ (noted w t).jiffies = w.jiffies := by
  rw [noted]
  split <;> exact ⟨rfl,rfl,rfl⟩

theorem relink_timers (p n : Nat) (x y : Option Nat) (a : Nat) :
    ((w.change p (fun e => { e with next := x })).change n (fun e => { e with prev := y })).timers a =
      { w.timers a with
        next := if a = p then x else w.next a
        prev := if a = n then y else w.prev a } := by
  by_cases isP : a = p <;> by_cases isN : a = n
  · subst isP isN
    simp [change_timers]
  · subst isP
    simp [change_timers,isN,Wheel.prev]
  · subst isN
    simp [change_timers,isP,Wheel.next]
  · simp [change_timers,isP,isN,Wheel.prev,Wheel.next]

section
variable (ok : Filed w filed) (fresh : ∀ j, t ∉ filed j) (slot : calcIndex (w.timers t).expires w.jiffies = k)
include ok fresh slot

theorem timerEnqueue_timers : ∃ w', timerEnqueue t w = some w' ∧ w'.lists = Function.update w.lists k ((w.lists k).or (some t)) ∧
    w'.jiffies = w.jiffies ∧ ∀ a, w'.timers a =
      if a = t then { w.timers t with next := none, prev := (filed k).getLast?.or (some t), state := .active }
      else { w.timers a with
        next := if (filed k).getLast? = some a then some t else w.next a
        prev := if w.lists k = some a then some t else w.prev a } := by
  rw [timerEnqueue]
  rw [slot]
  cases head : w.lists k with
  | none =>
    have empty : filed k = [] := by
      cases cells : filed k with
      | nil => rfl
      | cons a rest =>
        have linked := ok.linked k
        rw [cells,head] at linked
        cases linked.1
    refine ⟨_,rfl,(noted_spec _ t).2.1,(noted_spec _ t).2.2,fun a => (congrFun (noted_spec _ t).1 a).trans ?_⟩
    by_cases here : a = t
    · subst here
      simp [change_timers,Wheel.setList,empty]
    · simp [change_timers,Wheel.setList,here,empty,Wheel.next,Wheel.prev]
  | some first =>
    have inside : first ∈ filed k := ok.head_mem head
    obtain ⟨last,ends⟩ : ∃ last, (filed k).getLast? = some last := ⟨_,List.getLast?_eq_some_getLast (List.ne_nil_of_mem inside)⟩
    have named : w.prev first = some last := (ok.prev_head head).trans ends
    have notFirst : first ≠ t := ne_of_mem_of_not_mem inside (fresh k)
    have notLast : last ≠ t := ne_of_mem_of_not_mem (List.mem_of_getLast? ends) (fresh k)
    have before : ∀ x, ((w.change t (fun e => { e with next := none })).change t (fun e => { e with prev := x })).prev first = some last := by
      intro x
      rw [Wheel.prev,relink_timers]
      exact (if_neg notFirst).trans named
    have tail : (w.change t (fun e => { e with next := none })).prev first = some last := by
      rw [Wheel.prev,change_timers,if_neg notFirst]
      exact named
    dsimp only [Option.bind_some]
    rw [before,tail,ends]
    refine ⟨_,rfl,?_,(noted_spec _ t).2.2,fun a => (congrFun (noted_spec _ t).1 a).trans ?_⟩
    · exact (noted_spec _ t).2.1.trans (by rw [Option.some_or,← head,Function.update_eq_self]; rfl)
    · rw [change_timers,relink_timers,relink_timers]
      by_cases here : a = t
      · subst here
        simp [relink_timers,Wheel.next,Wheel.prev,Ne.symm notFirst,Ne.symm notLast]
      · simp [here,relink_timers,Wheel.next,Wheel.prev,eq_comm]

theorem timerEnqueue_spec : ∃ w', timerEnqueue t w = some w' ∧ Enqueued w w' filed k t := by
  obtain ⟨w',ran,lists,clock,timers⟩ := timerEnqueue_timers ok fresh slot
  have apart : ∀ j, ∀ a ∈ filed j, a ≠ t := fun j a member => ne_of_mem_of_not_mem member (fresh j)
  refine ⟨w',ran,ok.snoc fresh ?_ ?_ ?_ lists ?_ ?_ ?_,?_,?_,?_,clock⟩
  · rw [Wheel.next,timers,if_pos rfl]
  · intro a last
    rw [Wheel.next,timers,if_neg (apart k a (List.mem_of_getLast? last))]
    exact if_pos last
  · intro j a member other
    rw [Wheel.next,timers,if_neg (apart j a member)]
    exact if_neg other
  · rw [Wheel.prev,timers,if_pos rfl]
  · intro a first
    rw [Wheel.prev,timers,if_neg (apart k a (ok.head_mem first))]
    exact if_pos first
  · intro j a member other
    rw [Wheel.prev,timers,if_neg (apart j a member)]
    exact if_neg other
  · intro a
    rw [timers]
    split
    case isTrue here => exact here ▸ ⟨rfl,rfl,rfl⟩
    · exact ⟨rfl,rfl,rfl⟩
  · intro a
    rw [timers]
    split <;> rfl
  · intro a other outside
    have otherFirst : w.lists k ≠ some a := fun first => outside (ok.head_mem first)
    have otherLast : (filed k).getLast? ≠ some a := fun last => outside (List.mem_of_getLast? last)
    rw [timers,if_neg other,if_neg otherFirst,if_neg otherLast]
    rfl

end

theorem mem_snoc (a : Nat) (j : Nat × Nat) :
    a ∈ Function.update filed k (filed k ++ [t]) j ↔ a ∈ filed j ∨ (j = k ∧ a = t) :=
  Links.mem_added (List.perm_append_singleton t (filed k)) j a

theorem exists_snoc (a : Nat) : (∃ j, a ∈ Function.update filed k (filed k ++ [t]) j) ↔ a = t ∨ ∃ j, a ∈ filed j := by
  simp only [mem_snoc,exists_or,exists_eq_left,or_comm]

/-- What taking a timer between two others out of its list does. -/
structure Dequeued (w w' : Wheel) (filed : Nat × Nat → List Nat) (k : Nat × Nat) (left right : List Nat) (t : Nat) : Prop where
  lists : Filed w' (Function.update filed k (left ++ right))
  fields : ∀ a, Relinked (w.timers a) (w'.timers a)
  state : ∀ a, (w'.timers a).state = if a = t then .inactive else (w.timers a).state
  jiffies : w'.jiffies = w.jiffies

theorem unlink_timers {p n : Nat} (nextAt : w.next t = some n) (a : Nat) :
    (((w.change p (fun e => { e with next := w.next t })).change n (fun e => { e with prev := some p })).change t
      (fun e => { e with next := none, prev := none, state := .inactive })).timers a =
      if a = t then { w.timers t with next := none, prev := none, state := .inactive }
      else { w.timers a with
        next := if a = p then some n else w.next a
        prev := if a = n then some p else w.prev a } := by
  rw [change_timers,relink_timers,relink_timers,nextAt]

theorem timerDequeue_spec {left right : List Nat} (ok : Filed w filed) (cells : filed k = left ++ t :: right)
    (behind : left ≠ []) (before : right ≠ []) : ∃ w', timerDequeue t w = some w' ∧ Dequeued w w' filed k left right t := by
  have linked := ok.linked k
  have apart := ok.distinct k
  rw [cells] at linked apart
  obtain ⟨p,prevIs⟩ : ∃ p, left.getLast? = some p := ⟨_,List.getLast?_eq_some_getLast behind⟩
  obtain ⟨n,nextIs⟩ : ∃ n, right.head? = some n := ⟨_,List.head?_eq_some_head before⟩
  have prevAt : w.prev t = some p := by rw [Links.linked_prev_at linked,prevIs]; rfl
  have nextAt : w.next t = some n := by rw [Links.linked_next_at linked,nextIs]
  have inLeft : p ∈ left := List.mem_of_getLast? prevIs
  have inRight : n ∈ right := List.mem_of_mem_head? nextIs
  have notIn : t ∉ left ++ right := (List.nodup_cons.mp (List.nodup_middle.mp apart)).1
  have notP := ne_of_mem_of_not_mem (List.mem_append_left _ inLeft) notIn
  have notN := ne_of_mem_of_not_mem (List.mem_append_right _ inRight) notIn
  have moved : (w.change p (fun e => { e with next := w.next t })).next t = some n := by
    rw [Wheel.next,change_timers,if_neg (Ne.symm notP)]
    exact nextAt
  have movedPrev : (w.change p (fun e => { e with next := w.next t })).prev t = some p := by
    rw [Wheel.prev,change_timers,if_neg (Ne.symm notP)]
    exact prevAt
  rw [timerDequeue,if_neg (by rw [nextAt]; simpa using notN),prevAt]
  dsimp only [Option.bind_eq_bind,Option.bind_some]
  rw [moved]
  rw [movedPrev]
  have timers := @unlink_timers w t p n nextAt
  refine ⟨_,rfl,ok.remove cells ?_ ?_ behind before ?_ ?_,?_,?_,rfl⟩
  · intro j a member other notNamed
    rw [Wheel.next,timers,if_neg other]
    refine if_neg ?_
    rintro rfl
    exact notNamed prevAt
  · intro j a member other notNamed
    rw [Wheel.prev,timers,if_neg other]
    refine if_neg ?_
    rintro rfl
    exact notNamed nextAt
  · intro a isP
    cases prevAt.symm.trans isP
    rw [Wheel.next,timers,if_neg notP,nextAt]
    exact if_pos rfl
  · intro a isN
    cases nextAt.symm.trans isN
    rw [Wheel.prev,timers,if_neg notN,prevAt]
    exact if_pos rfl
  · intro a
    rw [timers]
    split
    case isTrue here => exact here ▸ ⟨rfl,rfl,rfl⟩
    · exact ⟨rfl,rfl,rfl⟩
  · intro a
    rw [timers]
    split <;> rfl

end

end Kenux.TimerWheel
