import Mathlib.Data.List.Nodup
import Kenux.Rings
import Kenux.Runs

/-!
An epoll instance (`epoll.c`): a table of registered descriptors, each with a
sticky `ready` flag, and a ring of ready entries that holds one less than its 256
places. A removed descriptor stays in the ring, a cleared flag lets one be entered a second
time, and a notification that finds the ring full is lost (`epoll_stale_twice_and_lost`).
`epoll_run_delivered` proves that every accepted notification is reported in order, for all
runs in which a descriptor is removed or notified anew only while it has no entry,
and the ring is not full.
-/
namespace Kenux.Epoll
open Kenux.Runs

@[irreducible] def epollMaxFds : Nat := 1024
def epollMaxEvents : Int := 64
def epollReadyQueueSize : Nat := 256
def epollEt : BitVec 32 := 0x80000000

structure Event where
  events : BitVec 32
  data : BitVec 64
  deriving DecidableEq, Repr

structure EpollFd where
  fd : Int
  event : Event
  registered : Bool
  ready : Bool

structure ReadyEntry where
  fd : Int
  event : Event
  valid : Bool
  deriving DecidableEq, Repr

structure Instance where
  fds : Nat → EpollFd
  fdCount : Int
  readyQueue : Nat → ReadyEntry
  rqHead : Nat
  rqTail : Nat

def newInstance : Instance := ⟨fun _ => ⟨0,⟨0,0⟩,false,false⟩,0,fun _ => ⟨0,⟨0,0⟩,false⟩,0,0⟩

def rqNext (i : Nat) : Nat := (i + 1) % epollReadyQueueSize

variable (inst : Instance)

def rqEmpty : Bool := inst.rqHead = inst.rqTail
def rqFull : Bool := rqNext inst.rqTail = inst.rqHead

def rqPush (fd : Int) (event : Event) (inst : Instance) : Int × Instance :=
  if rqFull inst then (-1,inst)
  else (0,{ inst with readyQueue := Function.update inst.readyQueue inst.rqTail ⟨fd,event,true⟩, rqTail := rqNext inst.rqTail })

def rqPop : Option (Event × Instance) :=
  if rqEmpty inst then none
  else
    let entry := inst.readyQueue inst.rqHead
    some (entry.event,{ inst with readyQueue := Function.update inst.readyQueue inst.rqHead { entry with valid := false },
                                  rqHead := rqNext inst.rqHead })

def epollFindFd (fd : Int) (inst : Instance) : Option Nat :=
  (List.range epollMaxFds).find? (fun i => (inst.fds i).registered && (inst.fds i).fd = fd)

def epollFindFreeSlot : Option Nat :=
  (List.range epollMaxFds).find? (fun i => !(inst.fds i).registered)

def Instance.setFd (slot : Nat) (efd : EpollFd) : Instance :=
  { inst with fds := Function.update inst.fds slot efd }

def ctlAdd (fd : Int) (event : Option Event) (inst : Instance) : Int × Instance :=
  match epollFindFd fd inst with
  | some _ => (-1,inst)
  | none =>
    if inst.fdCount ≥ epollMaxFds then (-1,inst)
    else match event, epollFindFreeSlot inst with
      | some event, some slot => (0,{ inst.setFd slot ⟨fd,event,true,false⟩ with fdCount := inst.fdCount + 1 })
      | _, _ => (-1,inst)

def ctlMod (fd : Int) (event : Option Event) (inst : Instance) : Int × Instance :=
  match epollFindFd fd inst, event with
  | some slot, some event => (0,inst.setFd slot { inst.fds slot with event })
  | _, _ => (-1,inst)

def ctlDel (fd : Int) (inst : Instance) : Int × Instance :=
  match epollFindFd fd inst with
  | none => (-1,inst)
  | some slot => (0,{ inst.setFd slot ⟨-1,⟨0,0⟩,false,false⟩ with fdCount := inst.fdCount - 1 })

def epollCtl (op fd : Int) (event : Option Event) (inst : Instance) : Int × Instance :=
  if fd < 0 then (-1,inst)
  else if op = 1 then ctlAdd fd event inst
  else if op = 2 then ctlMod fd event inst
  else if op = 3 then ctlDel fd inst
  else (-1,inst)

/-- The events of a notification that a registration asks for. -/
def matched (events : BitVec 32) (efd : EpollFd) : BitVec 32 := events &&& (efd.event.events &&& ~~~ epollEt)

/-- The slot at which the loop of `epoll_notify` stops. -/
def notifySlot (fd : Int) (events : BitVec 32) (inst : Instance) : Option Nat :=
  (List.range epollMaxFds).find? (fun j =>
    (inst.fds j).registered && (inst.fds j).fd = fd && matched events (inst.fds j) ≠ 0)

/-- What `epoll_notify` does to an instance, edge-triggered or not: the result of the push is not looked at. -/
def epollNotify (fd : Int) (events : BitVec 32) (inst : Instance) : Instance :=
  if fd < 0 then inst
  else match notifySlot fd events inst with
    | none => inst
    | some j =>
      let efd := inst.fds j
      if efd.ready then inst
      else (rqPush fd ⟨matched events efd,efd.event.data⟩ (inst.setFd j { efd with ready := true })).2

/-- What `epoll_notify_clear_ready` does to an instance. -/
def epollNotifyClearReady (fd : Int) (inst : Instance) : Instance :=
  match epollFindFd fd inst with
  | none => inst
  | some slot => inst.setFd slot { inst.fds slot with ready := false }

def waitLoop : Nat → Instance → List Event × Instance
  | 0, inst => ([],inst)
  | n+1, inst =>
    match rqPop inst with
    | none => ([],inst)
    | some (event,inst) =>
      let out := waitLoop n inst
      (event :: out.1,out.2)

/-- `epoll_wait` with timeout 0 and a buffer: its result, the events and the instance. -/
def epollWait (maxevents : Int) (inst : Instance) : Int × List Event × Instance :=
  if maxevents ≤ 0 ∨ maxevents > epollMaxEvents then (-1,[],inst)
  else if rqEmpty inst then (0,[],inst)
  else
    let out := waitLoop maxevents.toNat inst
    (out.1.length,out)

/-- The instance, and the history: the notifications that matched a descriptor whose flag was clear, and
    the events that were reported. -/
structure State where
  inst : Instance
  accepted : List ReadyEntry
  reported : List Event

def start : State := ⟨newInstance,[],[]⟩

inductive Request where
  | ctl (op fd : Int) (event : Option Event)
  | notify (fd : Int) (events : BitVec 32)
  | clearReady (fd : Int)
  | wait (maxevents : Int)

/-- The entry for a notification that matches a descriptor whose flag is clear. -/
def noticed (fd : Int) (events : BitVec 32) (inst : Instance) : Option ReadyEntry :=
  if fd < 0 then none
  else match notifySlot fd events inst with
    | none => none
    | some j =>
      let efd := inst.fds j
      if efd.ready then none else some ⟨fd,⟨matched events efd,efd.event.data⟩,true⟩

def next (s : State) : Request → State
  | .ctl op fd event => { s with inst := (epollCtl op fd event s.inst).2 }
  | .notify fd events =>
    { s with inst := epollNotify fd events s.inst, accepted := s.accepted ++ (noticed fd events s.inst).toList }
  | .clearReady fd => { s with inst := epollNotifyClearReady fd s.inst }
  | .wait maxevents =>
    let out := epollWait maxevents s.inst
    { s with inst := out.2.2, reported := s.reported ++ out.2.1 }

def step (s : State) (request : Request) : Option State := some (next s request)

/-- The entries from the head of the ring to its tail. -/
def ready : List ReadyEntry :=
  (List.range ((inst.rqTail + epollReadyQueueSize - inst.rqHead) % epollReadyQueueSize)).map
    (fun i => inst.readyQueue ((inst.rqHead + i) % epollReadyQueueSize))

/-- A descriptor that is removed has no entry; one that is notified while its flag is clear has none either,
    and the ring is not full. -/
def Meets (s : State) : Request → Prop
  | .ctl op fd _ => op = 3 → epollFindFd fd s.inst ≠ none → ∀ entry ∈ ready s.inst, entry.fd ≠ fd
  | .notify fd events => noticed fd events s.inst ≠ none → rqFull s.inst = false ∧ ∀ entry ∈ ready s.inst, entry.fd ≠ fd
  | _ => True

def Registered (fd : Int) : Prop := ∃ i < epollMaxFds, (inst.fds i).registered ∧ (inst.fds i).fd = fd

/-- Only registered descriptors have entries, each at most one, and what was reported and what is in the ring
    are the accepted notifications in order. -/
structure Sound (s : State) : Prop where
  registered : ∀ entry ∈ ready s.inst, Registered s.inst entry.fd
  once : ((ready s.inst).map ReadyEntry.fd).Nodup
  order : s.reported ++ (ready s.inst).map ReadyEntry.event = s.accepted.map ReadyEntry.event

/-- The room for events in the calls of `epoll_wait` that can succeed. -/
def room (requests : List Request) : Nat :=
  (requests.map (fun request => match request with
    | .wait maxevents => if maxevents ≤ 0 ∨ maxevents > epollMaxEvents then 0 else maxevents.toNat
    | _ => 0)).sum

/-! ### The ring -/

/-- The ring holds the entries. -/
structure Ring (inst : Instance) (entries : List ReadyEntry) : Prop where
  head : inst.rqHead < epollReadyQueueSize
  tail : inst.rqTail = (inst.rqHead + entries.length) % epollReadyQueueSize
  short : entries.length < epollReadyQueueSize
  holds : Rings.Holds epollReadyQueueSize inst.readyQueue inst.rqHead entries

variable {inst : Instance} {entries : List ReadyEntry} {entry : ReadyEntry}

private theorem newInstance_ring : Ring newInstance [] := ⟨by decide,rfl,by decide,nofun⟩

section
variable (ring : Ring inst entries)
include ring

theorem Ring.ready_eq : ready inst = entries := by
  have length : (inst.rqTail + epollReadyQueueSize - inst.rqHead) % epollReadyQueueSize = entries.length := by
    have head := ring.head
    have short := ring.short
    rw [ring.tail]
    simp only [epollReadyQueueSize] at *
    omega
  rw [ready,length,ring.holds.read (Nat.le_refl _),List.take_length]

theorem Ring.push (free : rqFull inst = false) (fd : Int) (event : Event) :
    Ring (rqPush fd event inst).2 (entries ++ [⟨fd,event,true⟩]) := by
  have short := ring.short
  have head := ring.head
  have room : entries.length + 1 < epollReadyQueueSize := by
    have apart : rqNext inst.rqTail ≠ inst.rqHead := of_decide_eq_false free
    rw [rqNext,ring.tail] at apart
    simp only [epollReadyQueueSize] at *
    omega
  rw [rqPush,if_neg (by simp [free])]
  refine ⟨head,?_,by simpa using room,?_⟩
  · rw [rqNext,ring.tail,List.length_append,Nat.mod_add_mod]
    rfl
  · have filled := ring.holds.fill (fun _ => ⟨fd,event,true⟩) 1 (Nat.le_of_lt room)
    rw [Rings.fill,Nat.add_zero,←ring.tail] at filled
    exact filled

theorem Ring.empty_iff : rqEmpty inst = true ↔ entries = [] := by
  have short := ring.short
  have head := ring.head
  rw [rqEmpty,decide_eq_true_iff,ring.tail,←List.length_eq_zero_iff]
  simp only [epollReadyQueueSize] at *
  omega

end

theorem Ring.pop {rest : List ReadyEntry} (ring : Ring inst (entry :: rest)) :
    ∃ after, rqPop inst = some (entry.event,after) ∧ Ring after rest ∧ after.fds = inst.fds := by
  have head := ring.head
  have short := ring.short
  have some : rqEmpty inst = false := Bool.eq_false_iff.mpr (fun empty => List.cons_ne_nil _ _ (ring.empty_iff.mp empty))
  have first : inst.readyQueue inst.rqHead = entry := by
    have here := ring.holds 0 entry rfl
    rwa [Nat.add_zero,Nat.mod_eq_of_lt head] at here
  rw [rqPop,if_neg (by simp [some]),first]
  refine ⟨_,rfl,⟨Nat.mod_lt _ (by decide),?_,Nat.lt_of_succ_lt short,?_⟩,rfl⟩
  · rw [ring.tail,rqNext,Nat.mod_add_mod,List.length_cons,Nat.add_assoc,Nat.add_comm 1]
  · have left : Rings.Holds epollReadyQueueSize inst.readyQueue (rqNext inst.rqHead) rest :=
      (ring.holds.drop 1).shift (Nat.mod_mod _ _)
    -- the place that is written is the last one of the round
    have place : (rqNext inst.rqHead + 255) % epollReadyQueueSize = inst.rqHead := by
      rw [rqNext]
      simp only [epollReadyQueueSize] at *
      omega
    have kept := left.outside (Nat.le_of_lt_succ (Nat.lt_of_succ_lt short)) (by decide : 255 < epollReadyQueueSize)
      { entry with valid := false }
    rwa [place] at kept

theorem Ring.wait {n : Nat} (ring : Ring inst entries) :
    ∃ after, waitLoop n inst = ((entries.take n).map ReadyEntry.event,after) ∧ Ring after (entries.drop n) ∧ after.fds = inst.fds := by
  induction n generalizing entries inst with
  | zero => exact ⟨_,rfl,ring,rfl⟩
  | succ n ih =>
    cases entries with
    | nil =>
      refine ⟨inst,?_,ring,rfl⟩
      rw [waitLoop,rqPop,if_pos (ring.empty_iff.mpr rfl)]
      rfl
    | cons entry rest =>
      obtain ⟨after,popped,left,same⟩ := ring.pop
      obtain ⟨final,looped,remaining,fds⟩ := ih left
      refine ⟨final,?_,remaining,fds.trans same⟩
      rw [waitLoop,popped]
      dsimp only
      rw [looped]
      rfl

/-! ### The table -/

def Unique (fds : Nat → EpollFd) : Prop :=
  ∀ i < epollMaxFds, ∀ j < epollMaxFds, (fds i).registered → (fds j).registered → (fds i).fd = (fds j).fd → i = j

variable {fd : Int} {slot : Nat} {events : BitVec 32} {efd : EpollFd}

private theorem epollFindFd_some (found : epollFindFd fd inst = some slot) :
    slot < epollMaxFds ∧ (inst.fds slot).registered ∧ (inst.fds slot).fd = fd := by
  obtain ⟨test,member,_⟩ := List.find?_range_eq_some.mp found
  simp only [Bool.and_eq_true,decide_eq_true_iff] at test
  exact ⟨List.mem_range.mp member,test⟩

private theorem epollFindFd_none (absent : epollFindFd fd inst = none) : ¬ Registered inst fd := by
  rintro ⟨i,inside,registered,same⟩
  have test := List.find?_eq_none.mp absent i (List.mem_range.mpr inside)
  simp [registered,same] at test

private theorem epollFindFreeSlot_some (found : epollFindFreeSlot inst = some slot) :
    slot < epollMaxFds ∧ (inst.fds slot).registered = false := by
  obtain ⟨test,member,_⟩ := List.find?_range_eq_some.mp found
  exact ⟨List.mem_range.mp member,by simpa using test⟩

theorem notifySlot_some (found : notifySlot fd events inst = some slot) :
    slot < epollMaxFds ∧ (inst.fds slot).registered ∧ (inst.fds slot).fd = fd := by
  obtain ⟨test,member,_⟩ := List.find?_range_eq_some.mp found
  simp only [Bool.and_eq_true,decide_eq_true_iff] at test
  exact ⟨List.mem_range.mp member,test.1⟩

structure Inv (s : State) (entries : List ReadyEntry) : Prop where
  ring : Ring s.inst entries
  unique : Unique s.inst.fds
  registered : ∀ entry ∈ entries, Registered s.inst entry.fd
  once : (entries.map ReadyEntry.fd).Nodup
  order : s.reported ++ entries.map ReadyEntry.event = s.accepted.map ReadyEntry.event

variable {s : State}

theorem start_inv : Inv start [] := ⟨newInstance_ring,fun _ _ _ _ => nofun,nofun,List.nodup_nil,rfl⟩

@[simp] theorem setFd_self (slot : Nat) (efd : EpollFd) : (inst.setFd slot efd).fds slot = efd := Function.update_self ..

private theorem setFd_of_ne {i : Nat} (efd : EpollFd) (other : i ≠ slot) : (inst.setFd slot efd).fds i = inst.fds i :=
  Function.update_of_ne other ..

theorem Unique.set (unique : Unique inst.fds)
    (new : efd.registered → ∀ i < epollMaxFds, i ≠ slot → (inst.fds i).registered → (inst.fds i).fd ≠ efd.fd) :
    Unique (inst.setFd slot efd).fds := by
  intro i insideI j insideJ
  dsimp only [Instance.setFd]
  cases i using update_cases with
  | here =>
    cases j using update_cases with
    | here => exact fun _ _ _ => rfl
    | others j isJ => exact fun hereI hereJ same => absurd same.symm (new hereI j insideJ isJ hereJ)
  | others i isI =>
    cases j using update_cases with
    | here => exact fun hereI hereJ same => absurd same (new hereJ i insideI isI hereI)
    | others j isJ => exact unique i insideI j insideJ

private theorem rqPush_fds (fd : Int) (event : Event) (inst : Instance) : (rqPush fd event inst).2.fds = inst.fds := by
  rw [rqPush]
  split <;> rfl

theorem noticed_some (noted : noticed fd events inst = some entry) :
    ∃ j < epollMaxFds, (inst.fds j).registered ∧ (inst.fds j).fd = fd ∧ entry = ⟨fd,entry.event,true⟩ ∧
      epollNotify fd events inst = (rqPush fd entry.event (inst.setFd j { inst.fds j with ready := true })).2 := by
  rw [noticed] at noted
  split at noted
  case isTrue => cases noted
  case isFalse valid =>
    split at noted
    next => cases noted
    next j found =>
      obtain ⟨clear,⟨⟩⟩ := Option.ite_none_left_eq_some.mp noted
      obtain ⟨inside,registered,same⟩ := notifySlot_some found
      refine ⟨j,inside,registered,same,rfl,?_⟩
      rw [epollNotify,if_neg valid,found]
      exact if_neg clear

theorem noticed_none (noted : noticed fd events inst = none) : epollNotify fd events inst = inst := by
  rw [noticed] at noted
  rw [epollNotify]
  split
  case isTrue => rfl
  case isFalse valid =>
    rw [if_neg valid] at noted
    split
    next => rfl
    next j found =>
      rw [found] at noted
      exact if_pos (of_not_not (fun clear => by simp [clear] at noted))

section
variable (inv : Inv s entries)
include inv

theorem Inv.sound : Sound s := by
  have same := inv.ring.ready_eq
  refine ⟨?_,?_,?_⟩ <;> rw [same]
  · exact inv.registered
  · exact inv.once
  · exact inv.order

theorem Inv.set (fdCount : Int)
    (new : efd.registered → ∀ i < epollMaxFds, i ≠ slot → (s.inst.fds i).registered → (s.inst.fds i).fd ≠ efd.fd)
    (keeps : ∀ entry ∈ entries, (s.inst.fds slot).registered → (s.inst.fds slot).fd = entry.fd → efd.registered ∧ efd.fd = entry.fd) :
    Inv { s with inst := { s.inst.setFd slot efd with fdCount } } entries := by
  refine ⟨⟨inv.ring.head,inv.ring.tail,inv.ring.short,inv.ring.holds⟩,inv.unique.set new,fun entry member => ?_,inv.once,inv.order⟩
  obtain ⟨i,inside,here,is⟩ := inv.registered entry member
  refine ⟨i,inside,?_⟩
  rcases eq_or_ne i slot with rfl | other
  · rw [setFd_self]
    exact keeps entry member here is
  · rw [setFd_of_ne efd other]
    exact ⟨here,is⟩

theorem Inv.mark (inside : slot < epollMaxFds)
    (there : (s.inst.fds slot).registered) (registered : efd.registered) (fd : efd.fd = (s.inst.fds slot).fd) :
    Inv { s with inst := s.inst.setFd slot efd } entries := by
  refine inv.set s.inst.fdCount (fun _ i insideI other here same => ?_) (fun _ _ _ is => ⟨registered,fd.trans is⟩)
  exact other (inv.unique i insideI slot inside here there (same.trans fd))

theorem Inv.ctl {op : Int} {event : Option Event}
    (unready : op = 3 → epollFindFd fd s.inst ≠ none → ∀ entry ∈ entries, entry.fd ≠ fd) :
    Inv { s with inst := (epollCtl op fd event s.inst).2 } entries := by
  rw [epollCtl]
  split
  · exact inv
  split
  · unfold ctlAdd
    cases found : epollFindFd fd s.inst with
    | some slot => exact inv
    | none =>
      dsimp only
      split
      · exact inv
      split
      next slot free =>
        have unused := (epollFindFreeSlot_some free).2
        refine inv.set _ (fun _ i inside _ here same => ?_) (fun _ _ here => ?_)
        · exact epollFindFd_none found ⟨i,inside,here,same⟩
        · rw [unused] at here
          cases here
      next => exact inv
  split
  · unfold ctlMod
    split
    next slot _ found =>
      obtain ⟨inside,registered,_⟩ := epollFindFd_some found
      exact inv.mark inside registered registered rfl
    next => exact inv
  split
  case isTrue remove =>
    unfold ctlDel
    split
    next => exact inv
    next slot found =>
      refine inv.set _ nofun (fun entry member _ is => ?_)
      have same := (epollFindFd_some found).2.2
      exact absurd (is.symm.trans same) (unready remove (by simp [found]) entry member)
  case isFalse => exact inv

theorem Inv.clearReady (fd : Int) : Inv { s with inst := epollNotifyClearReady fd s.inst } entries := by
  rw [epollNotifyClearReady]
  split
  next => exact inv
  next slot found =>
    obtain ⟨inside,registered,_⟩ := epollFindFd_some found
    exact inv.mark inside registered registered rfl

theorem Inv.notify (meets : noticed fd events s.inst ≠ none → rqFull s.inst = false ∧ ∀ entry ∈ entries, entry.fd ≠ fd) :
    ∃ entries', Inv (next s (.notify fd events)) entries' := by
  cases noted : noticed fd events s.inst with
  | none =>
    refine ⟨entries,?_⟩
    rw [next,noted,noticed_none noted,Option.toList_none,List.append_nil]
    exact inv
  | some entry =>
    obtain ⟨j,inside,registered,same,shape,pushed⟩ := noticed_some noted
    obtain ⟨free,apart⟩ := meets (by simp [noted])
    have marked : Inv { s with inst := s.inst.setFd j { s.inst.fds j with ready := true } } entries :=
      inv.mark inside registered registered rfl
    have ring := marked.ring.push free fd entry.event
    rw [←shape] at ring
    refine ⟨entries ++ [entry],?_⟩
    rw [next,noted,pushed,Option.toList_some]
    refine ⟨ring,?_,?_,?_,?_⟩
    · rw [rqPush_fds]
      exact marked.unique
    · simp only [Registered,rqPush_fds]
      refine List.forall_mem_append.mpr ⟨marked.registered,List.forall_mem_singleton.mpr ⟨j,inside,?_⟩⟩
      rw [shape,setFd_self]
      exact ⟨registered,same⟩
    · rw [List.map_append]
      refine List.Nodup.append inv.once (List.nodup_singleton _) (List.disjoint_singleton.mpr (fun member => ?_))
      obtain ⟨other,old,is⟩ := List.mem_map.mp member
      refine apart other old ?_
      rw [is,shape]
    · rw [List.map_append,List.map_append,←List.append_assoc,inv.order]

theorem Inv.wait (maxevents : Int) :
    ∃ entries', Inv (next s (.wait maxevents)) entries' := by
  rw [next,epollWait]
  split
  · exact ⟨entries,by simpa using inv⟩
  split
  · exact ⟨entries,by simpa using inv⟩
  obtain ⟨after,looped,ring,same⟩ := inv.ring.wait (n := maxevents.toNat)
  rw [looped]
  refine ⟨entries.drop maxevents.toNat,ring,?_,fun entry member => ?_,?_,?_⟩
  · rw [same]
    exact inv.unique
  · rw [Registered,same]
    exact inv.registered entry (List.mem_of_mem_drop member)
  · rw [List.map_drop]
    exact inv.once.sublist (List.drop_sublist ..)
  · rw [List.append_assoc,←List.map_append,List.take_append_drop]
    exact inv.order

end

theorem inv_step (request : Request) (inv : ∃ entries, Inv s entries) (meets : Meets s request) :
    ∃ t, step s request = some t ∧ ∃ entries, Inv t entries := by
  obtain ⟨entries,inv⟩ := inv
  have same := inv.ring.ready_eq
  refine ⟨_,rfl,?_⟩
  cases request with
  | ctl op fd event =>
    rw [Meets,same] at meets
    exact ⟨entries,inv.ctl meets⟩
  | notify fd events =>
    rw [Meets,same] at meets
    exact inv.notify meets
  | clearReady fd => exact ⟨entries,inv.clearReady fd⟩
  | wait maxevents => exact inv.wait maxevents

theorem Inv.reports (inv : Inv s entries) (request : Request) :
    s.accepted.map ReadyEntry.event <+: (next s request).reported ∨
      s.reported.length + room [request] ≤ (next s request).reported.length := by
  cases request with
  | wait maxevents =>
    rw [next,epollWait]
    split
    case isTrue invalid => exact .inr (by simp [room,invalid])
    case isFalse valid =>
      split
      case isTrue empty =>
        refine .inl ?_
        rw [←inv.order,inv.ring.empty_iff.mp empty]
        exact List.prefix_rfl
      case isFalse =>
        obtain ⟨after,looped,_,_⟩ := inv.ring.wait (n := maxevents.toNat)
        rw [looped,←inv.order]
        rcases Nat.lt_or_ge entries.length maxevents.toNat with all | some
        · refine .inl ?_
          simp [List.take_of_length_le (Nat.le_of_lt all)]
        · refine .inr ?_
          simp [room,valid,Nat.min_eq_left some]
  | _ => exact .inr (Nat.le_refl _)

theorem next_grows (request : Request) : s.accepted <+: (next s request).accepted ∧ s.reported <+: (next s request).reported := by
  cases request with
  | ctl op fd event => exact ⟨List.prefix_rfl,List.prefix_rfl⟩
  | notify fd events => exact ⟨List.prefix_append ..,List.prefix_rfl⟩
  | clearReady fd => exact ⟨List.prefix_rfl,List.prefix_rfl⟩
  | wait maxevents => exact ⟨List.prefix_rfl,List.prefix_append ..⟩

private theorem room_cons (request : Request) (rest : List Request) : room (request :: rest) = room [request] + room rest := by
  simp [room]

theorem run_reports (early : List ReadyEntry) (requests : List Request) (s : State) (inv : ∃ entries, Inv s entries)
    (first : early <+: s.accepted) (guarded : Guarded step Meets s requests) : ∃ t, run step s requests = some t ∧ (∃ entries, Inv t entries) ∧
      early <+: t.accepted ∧ s.reported <+: t.reported ∧
      (early.map ReadyEntry.event <+: t.reported ∨ s.reported.length + room requests ≤ t.reported.length) := by
  induction requests generalizing s with
  | nil => exact ⟨s,rfl,inv,first,List.prefix_rfl,.inr (by simp [room])⟩
  | cons request rest ih =>
    obtain ⟨t,stepped,kept⟩ := inv_step request inv guarded.1
    obtain ⟨entries,inv⟩ := inv
    cases stepped
    obtain ⟨accepted,reported⟩ := @next_grows s request
    obtain ⟨u,ran,final,still,later,more⟩ := ih _ kept (first.trans accepted) (guarded.2 _ rfl)
    refine ⟨u,ran,final,still,reported.trans later,?_⟩
    rcases inv.reports request with done | one
    · exact .inl (((first.map _).trans done).trans later)
    rcases more with done | more
    · exact .inl done
    · refine .inr ?_
      rw [room_cons]
      omega

/-- In every run that meets the condition only registered descriptors have entries, each at most one, and the accepted
    notifications are reported in order: all that were accepted at some point of the run, as soon as the calls of
    `epoll_wait` have room for them. -/
theorem epoll_run_delivered (before after : List Request) (guarded : Guarded step Meets start (before ++ after)) :
    ∃ s t, run step start before = some s ∧ run step s after = some t ∧ Sound t ∧
      (s.accepted.length ≤ room after → s.accepted.map ReadyEntry.event <+: t.reported) := by
  obtain ⟨early,late⟩ := guarded.split before after
  obtain ⟨s,ran,inv⟩ := run_invariant (fun s request inv meets => inv_step request inv meets) before start ⟨[],start_inv⟩ early
  obtain ⟨t,more,⟨entries,final⟩,accepted,_,reported⟩ := run_reports s.accepted after s inv List.prefix_rfl (late s ran)
  refine ⟨s,t,ran,more,final.sound,fun enough => ?_⟩
  rcases reported with done | long
  · exact done
  · -- both are prefixes of what has been accepted, and enough has been reported
    have whole : t.reported <+: t.accepted.map ReadyEntry.event := ⟨_,final.order⟩
    refine List.prefix_of_prefix_length_le (accepted.map _) whole ?_
    rw [List.length_map]
    omega

instance (s : State) : ∀ request, Decidable (Meets s request)
  | .ctl .. | .notify .. => inferInstanceAs (Decidable (_ → _))
  | .clearReady _ | .wait _ => .isTrue trivial

def someRun : List Request :=
  [.ctl 1 5 (some ⟨1,50⟩),.ctl 1 7 (some ⟨5,70⟩),.notify 7 4,.notify 5 1,.notify 7 1,.wait 1,.clearReady 7,.notify 7 5]

theorem epoll_run_delivered_of_two :
    ∃ s t, run step start someRun = some s ∧ run step s [.wait 3,.ctl 3 7 none] = some t ∧ Sound t ∧
      (s.accepted.length ≤ room [.wait 3,.ctl 3 7 none] → s.accepted.map ReadyEntry.event <+: t.reported) :=
  epoll_run_delivered someRun [.wait 3,.ctl 3 7 none] (by decide +kernel)

example : (run step start (someRun ++ [.wait 3])).map State.reported = some [⟨4,70⟩,⟨1,50⟩,⟨5,70⟩] := by decide +kernel

def summary (requests : List Request) : Option (List ReadyEntry × Option Nat × Nat × Nat) :=
  (run step start requests).map (fun s => (ready s.inst,epollFindFd 5 s.inst,s.accepted.length,s.reported.length))

def entered (n : Nat) : List Request :=
  .ctl 1 5 (some ⟨1,50⟩) :: (List.replicate n [.notify 5 1,.clearReady 5]).flatten

/-- The entry of a removed descriptor stays, a descriptor has two entries, and of 256 notifications, each
    of which found the flag clear, the last is never reported: the ring is empty after 255 events. -/
theorem epoll_stale_twice_and_lost :
    summary [.ctl 1 5 (some ⟨1,50⟩),.notify 5 1,.ctl 3 5 none] = some ([⟨5,⟨1,50⟩,true⟩],none,1,0) ∧
      summary (entered 2) = some ([⟨5,⟨1,50⟩,true⟩,⟨5,⟨1,50⟩,true⟩],some 0,2,0) ∧
      summary (entered 256 ++ List.replicate 5 (.wait 64)) = some ([],some 0,256,255) := by
  decide +kernel

end Kenux.Epoll
