import Mathlib.Data.Fintype.Card
import Kenux.Runs

/-!
The ticket lock of `spinlock.h`. Taking a ticket, reading `serving` and leaving are steps of
their own, and threads take their steps in any order. Both counters wrap at 2^32, so a
ticket alone does not tell its place. The threads that have taken a ticket and have not left
stand in a line; when fewer than 2^32 wait, the tickets in the line are different, and the
one that is served is that of its head. `ticket_run_ordered` proves that at most one thread
is inside and that threads enter in the order of their tickets.
-/
namespace Kenux.TicketLock
open Kenux.Runs

structure Lock where
  ticket : BitVec 32
  serving : BitVec 32

def ticketInit : Lock := ⟨0,0⟩

/-- Where a thread is: in neither call, in the loop of `ticket_lock` with its ticket, or between
    `ticket_lock` and `ticket_unlock`. -/
inductive Phase where
  | outside
  | waiting (myTicket : BitVec 32)
  | inside
  deriving DecidableEq, Repr

def Phase.waits : Phase → Bool
  | .waiting _ => true
  | _ => false

/-- The lock and the threads; `taken` and `entered` list the threads as they took their tickets
    and as they entered. -/
structure State (Thread : Type) where
  lock : Lock
  phase : Thread → Phase
  taken : List Thread
  entered : List Thread

section
variable {Thread : Type}

def start : State Thread := ⟨ticketInit,fun _ => .outside,[],[]⟩

def State.setPhase [DecidableEq Thread] (s : State Thread) (p : Thread) (phase : Phase) : State Thread :=
  { s with phase := Function.update s.phase p phase }

/-- `__sync_fetch_and_add(&tl->ticket, 1)`, with which `ticket_lock` begins. -/
def ticketLock [DecidableEq Thread] (p : Thread) (s : State Thread) : State Thread :=
  { s.setPhase p (.waiting s.lock.ticket) with
    lock := { s.lock with ticket := s.lock.ticket + 1 }, taken := s.taken ++ [p] }

def test [DecidableEq Thread] (p : Thread) (myTicket : BitVec 32) (s : State Thread) : State Thread :=
  if s.lock.serving ≠ myTicket then s else { s.setPhase p .inside with entered := s.entered ++ [p] }

def ticketUnlock [DecidableEq Thread] (p : Thread) (s : State Thread) : State Thread :=
  { s.setPhase p .outside with lock := { s.lock with serving := s.lock.serving + 1 } }

def next [DecidableEq Thread] (s : State Thread) (p : Thread) : State Thread :=
  match s.phase p with
  | .outside => ticketLock p s
  | .waiting myTicket => test p myTicket s
  | .inside => ticketUnlock p s

def step [DecidableEq Thread] (s : State Thread) (p : Thread) : Option (State Thread) := some (next s p)

def waitingCount [Fintype Thread] (s : State Thread) : Nat := (Finset.univ.filter (fun p => (s.phase p).waits)).card

/-- Fewer than 2^32 threads wait after the step. -/
def Few [DecidableEq Thread] [Fintype Thread] (s : State Thread) (p : Thread) : Prop := waitingCount (next s p) < 2^32

instance [DecidableEq Thread] [Fintype Thread] (s : State Thread) (p : Thread) : Decidable (Few s p) :=
  inferInstanceAs (Decidable (_ < _))

/-- At most one thread is inside, and they entered in the order of their tickets. -/
structure Sound (s : State Thread) : Prop where
  exclusive : ∀ p q, s.phase p = .inside → s.phase q = .inside → p = q
  ordered : s.entered <+: s.taken

/-- The thread inside, and behind it those that wait, in the order of their tickets. -/
structure Inv (s : State Thread) (holder : Option Thread) (queue : List Thread) : Prop where
  taken : s.taken = s.entered ++ queue
  ticket : s.lock.ticket = BitVec.ofNat 32 s.taken.length
  serving : s.lock.serving + BitVec.ofNat 32 holder.toList.length = BitVec.ofNat 32 s.entered.length
  inside : ∀ p, s.phase p = .inside ↔ holder = some p
  queued : ∀ p mine, s.phase p = .waiting mine → p ∈ queue
  places : ∀ i p, queue[i]? = some p → s.phase p = .waiting (BitVec.ofNat 32 (s.entered.length + i))
  distinct : queue.Nodup
  short : holder.toList.length + queue.length ≤ 2^32

variable {s : State Thread} {holder : Option Thread} {queue : List Thread} {p : Thread}

theorem start_inv : Inv (start : State Thread) none [] where
  taken := rfl
  ticket := rfl
  serving := rfl
  inside := by simp [start]
  queued := by simp [start]
  places := by simp
  distinct := List.nodup_nil
  short := by simp

section
variable (inv : Inv s holder queue)
include inv

theorem Inv.sound : Sound s where
  exclusive p q first second :=
    Option.some.inj (((inv.inside p).mp first).symm.trans ((inv.inside q).mp second))
  ordered := ⟨queue,inv.taken.symm⟩

theorem Inv.waits (member : p ∈ queue) : ∃ mine, s.phase p = .waiting mine := by
  obtain ⟨i,here⟩ := List.getElem?_of_mem member
  exact ⟨_,inv.places i p here⟩

theorem Inv.apart (idle : (s.phase p).waits = false) : ∀ q ∈ queue, q ≠ p := by
  rintro q member rfl
  obtain ⟨mine,waits⟩ := inv.waits member
  rw [waits] at idle
  cases idle

/-- The ticket that is served is that of the head of the line, and then nobody is inside. -/
theorem Inv.served (waits : s.phase p = .waiting s.lock.serving) :
    holder = none ∧ ∃ rest, queue = p :: rest := by
  obtain ⟨i,here⟩ := List.getElem?_of_mem (inv.queued p _ waits)
  have inLine := (List.getElem?_eq_some_iff.mp here).1
  have mine : s.lock.serving = _ := Phase.waiting.inj (waits.symm.trans (inv.places i p here))
  have serving := inv.serving
  have short := inv.short
  cases holder with
  | none =>
    have first : i = 0 := by
      bv_omega
    subst first
    cases queue with
    | nil => cases here
    | cons q rest =>
      cases here
      exact ⟨rfl,rest,rfl⟩
  | some q =>
    simp only [Option.toList_some,List.length_singleton] at serving short
    bv_omega

end

theorem length_le_waitingCount [Fintype Thread] (distinct : queue.Nodup) (wait : ∀ p ∈ queue, (s.phase p).waits) :
    queue.length ≤ waitingCount s := by
  classical
  rw [←List.toFinset_card_of_nodup distinct]
  refine Finset.card_le_card (fun p member => ?_)
  exact Finset.mem_filter.mpr ⟨Finset.mem_univ p,wait p (List.mem_toFinset.mp member)⟩

variable [DecidableEq Thread]

section
variable (inv : Inv s holder queue)
include inv

theorem Inv.ticketLock [Fintype Thread] (outside : s.phase p = .outside)
    (few : waitingCount (ticketLock p s) < 2^32) : Inv (ticketLock p s) holder (queue ++ [p]) := by
  have apart := inv.apart (p := p) (by rw [outside]; rfl)
  have distinct : (queue ++ [p]).Nodup :=
    List.Nodup.append inv.distinct (List.nodup_singleton p)
      (List.disjoint_singleton.mpr (fun member => apart p member rfl))
  have places : ∀ i q, (queue ++ [p])[i]? = some q →
      (TicketLock.ticketLock p s).phase q = .waiting (BitVec.ofNat 32 (s.entered.length + i)) := by
    intro i q here
    rcases Nat.lt_or_ge i queue.length with before | last
    · rw [List.getElem?_append_left before] at here
      exact (Function.update_of_ne (apart q (List.mem_of_getElem? here)) _ _).trans (inv.places i q here)
    · obtain ⟨atEnd,rfl⟩ : i = queue.length ∧ q = p := by
        rw [List.getElem?_append_right last,List.getElem?_singleton] at here
        split at here
        next first => exact ⟨by omega,(Option.some.inj here).symm⟩
        next => cases here
      have mine : s.lock.ticket = BitVec.ofNat 32 (s.entered.length + i) := by
        rw [inv.ticket,inv.taken,List.length_append,atEnd]
      exact (Function.update_self q _ _).trans (congrArg Phase.waiting mine)
  have waiting : ∀ q ∈ queue ++ [p], ((TicketLock.ticketLock p s).phase q).waits := by
    intro q member
    obtain ⟨i,here⟩ := List.getElem?_of_mem member
    rw [places i q here]
    rfl
  have shorter := length_le_waitingCount distinct waiting
  exact { inv with
    taken := by simp [TicketLock.ticketLock,State.setPhase,inv.taken]
    ticket := by simp [TicketLock.ticketLock,inv.ticket,BitVec.ofNat_add]
    inside := fun q => by
      have before := inv.inside q
      rcases eq_or_ne q p with rfl | other
      · simpa [TicketLock.ticketLock,State.setPhase,outside] using before
      · simpa [TicketLock.ticketLock,State.setPhase,other] using before
    queued := fun q mine waits => by
      rcases eq_or_ne q p with rfl | other
      · exact List.mem_append_right queue (List.mem_singleton_self q)
      · exact List.mem_append_left [p] (inv.queued q mine ((Function.update_of_ne other _ _).symm.trans waits))
    places
    distinct
    short := by
      have := Option.length_toList_le (o := holder)
      omega }

theorem Inv.test {mine : BitVec 32} (waits : s.phase p = .waiting mine) :
    ∃ holder queue, Inv (test p mine s) holder queue := by
  by_cases other : s.lock.serving ≠ mine
  · exact ⟨holder,queue,by rw [TicketLock.test,if_pos other]; exact inv⟩
  rw [TicketLock.test,if_neg other]
  obtain rfl := not_not.mp other
  obtain ⟨rfl,rest,rfl⟩ := inv.served waits
  obtain ⟨absent,distinct⟩ := List.nodup_cons.mp inv.distinct
  exact ⟨some p,rest,{
    taken := by simp [State.setPhase,inv.taken]
    ticket := inv.ticket
    serving := by
      have serving := inv.serving
      simp only [State.setPhase,Option.toList_none,List.length_nil,Option.toList_some,
        List.length_append] at serving ⊢
      bv_omega
    inside := fun q => by
      have before := inv.inside q
      rcases eq_or_ne q p with rfl | other
      · simp [State.setPhase]
      · simpa [State.setPhase,other,other.symm] using before
    queued := fun q mine waits => by
      rcases eq_or_ne q p with rfl | other
      · exact Phase.noConfusion ((Function.update_self q _ _).symm.trans waits)
      · have before := inv.queued q mine ((Function.update_of_ne other _ _).symm.trans waits)
        exact List.mem_of_ne_of_mem other before
    places := fun i q here => by
      have other : q ≠ p := fun same => absent (same ▸ List.mem_of_getElem? here)
      have before := inv.places (i+1) q here
      simpa [State.setPhase,other,Nat.add_assoc,Nat.add_comm 1] using before
    distinct
    short := by
      have short := inv.short
      simp only [List.length_nil,Option.toList_some,List.length_cons] at short ⊢
      omega }⟩

theorem Inv.ticketUnlock (inside : s.phase p = .inside) :
    Inv (ticketUnlock p s) none queue := by
  obtain rfl := (inv.inside p).mp inside
  have apart := inv.apart (p := p) (by rw [inside]; rfl)
  exact { inv with
    serving := by
      have serving := inv.serving
      simpa [TicketLock.ticketUnlock,State.setPhase] using serving
    inside := fun q => by
      have before := inv.inside q
      rcases eq_or_ne q p with rfl | other
      · simp [TicketLock.ticketUnlock,State.setPhase]
      · simpa [TicketLock.ticketUnlock,State.setPhase,other,other.symm] using before
    queued := fun q mine waits => by
      rcases eq_or_ne q p with rfl | other
      · exact Phase.noConfusion ((Function.update_self q _ _).symm.trans waits)
      · exact inv.queued q mine ((Function.update_of_ne other _ _).symm.trans waits)
    places := fun i q here =>
      (Function.update_of_ne (apart q (List.mem_of_getElem? here)) _ _).trans (inv.places i q here)
    short := by
      have short := inv.short
      simp only [Option.toList_none,List.length_nil] at short ⊢
      omega }

end

theorem inv_step [Fintype Thread] (p : Thread) (inv : ∃ holder queue, Inv s holder queue) (few : Few s p) :
    ∃ t, step s p = some t ∧ ∃ holder queue, Inv t holder queue := by
  obtain ⟨holder,queue,inv⟩ := inv
  refine ⟨_,rfl,?_⟩
  rw [Few] at few
  rw [next] at few ⊢
  cases phase : s.phase p with
  | outside =>
    rw [phase] at few
    exact ⟨holder,queue ++ [p],inv.ticketLock phase few⟩
  | waiting mine => exact inv.test phase
  | inside => exact ⟨none,queue,inv.ticketUnlock phase⟩

/-- While fewer threads wait than there are tickets, one is inside at a time, in the order of the tickets. -/
theorem ticket_run_ordered [Fintype Thread] (schedule : List Thread) (guarded : Guarded step Few start schedule) :
    ∃ s, run step start schedule = some s ∧ Sound s := by
  obtain ⟨s,ran,holder,queue,inv⟩ :=
    run_invariant (fun s p inv few => inv_step p inv few) schedule start ⟨none,[],start_inv⟩ guarded
  exact ⟨s,ran,inv.sound⟩

end

def someRun : List (Fin 3) := [2,0,2,0,1,2,1,0,0,1]

theorem ticket_run_ordered_of_three : ∃ s, run step (start : State (Fin 3)) someRun = some s ∧ Sound s :=
  ticket_run_ordered someRun (by decide +kernel)

example : (run step (start : State (Fin 3)) someRun).map State.entered = some [2,0,1] := by decide +kernel

end Kenux.TicketLock
