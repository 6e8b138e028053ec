import Mathlib.Data.Fintype.Card
import Kenux.Links
import Kenux.Runs

/-!
The work queues of `workqueue.c`, on any works and any queues. What a function does under a
queue's lock is one step, and a worker's call of the function it has taken off its queue is
another. `cancel_work` with another queue than the one the work is in clears `pending` and
`next` all the same, and cuts the other queue's list behind the work
(`cancel_work_elsewhere`). `workqueue_run_sound` proves the list, the count, the
flag and the order of executions for all runs that cancel a work only where it
is queued, and that workers come to everything that is not cancelled.
-/
namespace Kenux.Workqueue
open Kenux.Runs
open Function (update update_self update_of_ne)

/-- A request that `queue_work` has accepted: its number and its work. -/
structure Ticket (Work : Type) where
  serial : Nat
  work : Work
  deriving DecidableEq

/-- The fields of the works (`func` tells if there is a function) and of the queues. `hand` is what a
    worker has taken off its queue and not yet executed. The rest is the history: the requests
    accepted, cancelled and executed, and for each work its last request. -/
structure State (Work Queue : Type) where
  next : Work → Option Work
  func : Work → Bool
  pending : Work → BitVec 32
  head : Queue → Option Work
  tail : Queue → Option Work
  pendingCount : Queue → BitVec 32
  hand : Queue → Option (Ticket Work)
  serial : Nat
  last : Work → Nat
  accepted : Queue → List (Ticket Work)
  cancelled : List Nat
  executed : Queue → List (Ticket Work)

section
variable {Work Queue : Type}

/-- Works after `init_work` and queues after `create_workqueue`. -/
def start (func : Work → Bool) : State Work Queue where
  next _ := none
  func
  pending _ := 0
  head _ := none
  tail _ := none
  pendingCount _ := 0
  hand _ := none
  serial := 0
  last _ := 0
  accepted _ := []
  cancelled := []
  executed _ := []

/-- The request for which the work is queued. -/
def State.ticket (s : State Work Queue) (w : Work) : Ticket Work := ⟨s.last w,w⟩

def append [DecidableEq Work] [DecidableEq Queue] (q : Queue) (w : Work) (s : State Work Queue) : State Work Queue :=
  { s with
    next := match s.tail q with
      | some p => update (update s.next w none) p (some w)
      | none => update s.next w none
    head := match s.tail q with
      | some _ => s.head
      | none => update s.head q (some w)
    pending := update s.pending w 1
    tail := update s.tail q (some w)
    pendingCount := update s.pendingCount q (s.pendingCount q + 1)
    serial := s.serial + 1
    last := update s.last w s.serial
    accepted := update s.accepted q (s.accepted q ++ [⟨s.serial,w⟩]) }

def queueWork [DecidableEq Work] [DecidableEq Queue] (wq : Option Queue) (work : Option Work) (s : State Work Queue) : Int × State Work Queue :=
  match wq, work with
  | some q, some w => if s.func w then (0,if s.pending w ≠ 0 then s else append q w s) else (-1,s)
  | _, _ => (-1,s)

/-- The loop of `cancel_work` that looks for the work before. -/
def findPrev [DecidableEq Work] (next : Work → Option Work) (work : Work) : Nat → Option Work → Option (Option Work)
  | 0, _ => none
  | _+1, none => some none
  | fuel+1, some prev => if next prev ≠ some work then findPrev next work fuel (next prev) else some (some prev)

/-- `wq->head = work->next; if (!wq->head) wq->tail = NULL;`, in `cancel_work` and in the worker. -/
def dropHead [DecidableEq Queue] (q : Queue) (w : Work) (s : State Work Queue) : State Work Queue :=
  { s with
    head := update s.head q (s.next w)
    tail := update s.tail q (if (s.next w).isNone then none else s.tail q) }

def release [DecidableEq Work] [DecidableEq Queue] (q : Queue) (w : Work) (s : State Work Queue) : State Work Queue :=
  { s with
    next := update s.next w none
    pending := update s.pending w 0
    pendingCount := update s.pendingCount q (s.pendingCount q - 1) }

def unlink [DecidableEq Work] [DecidableEq Queue] (q : Queue) (w prev : Work) (s : State Work Queue) : State Work Queue :=
  { s with
    next := update s.next prev (s.next w)
    tail := update s.tail q (if s.tail q = some w then some prev else s.tail q) }

def remove [DecidableEq Work] [DecidableEq Queue] [Fintype Work] (q : Queue) (w : Work) (s : State Work Queue) : Option (State Work Queue) :=
  if s.head q = some w then some (release q w (dropHead q w s))
  else match findPrev s.next w (Fintype.card Work + 1) (s.head q) with
    | none => none
    | some none => some (release q w s)
    | some (some prev) => some (release q w (unlink q w prev s))

def cancelWork [DecidableEq Work] [DecidableEq Queue] [Fintype Work] (wq : Option Queue) (work : Option Work) (s : State Work Queue) : Option (Int × State Work Queue) :=
  match wq, work with
  | some q, some w =>
    if s.pending w = 0 then some (0,s)
    else (remove q w s).map (fun t => (0,{ t with cancelled := s.last w :: s.cancelled }))
  | _, _ => some (-1,s)

/-- The next step of the worker of a queue: the section under the lock, or the call of the function. -/
def workqueueThread [DecidableEq Work] [DecidableEq Queue] (q : Queue) (s : State Work Queue) : State Work Queue :=
  match s.hand q with
  | some t =>
    { s with hand := update s.hand q none,
             executed := if s.func t.work then update s.executed q (s.executed q ++ [t]) else s.executed }
  | none =>
    match s.head q with
    | some w => { release q w (dropHead q w s) with hand := update s.hand q (some (s.ticket w)) }
    | none => s

inductive Request (Work Queue : Type) where
  | queueWork (wq : Option Queue) (work : Option Work)
  | cancelWork (wq : Option Queue) (work : Option Work)
  | worker (q : Queue)

def step [DecidableEq Work] [DecidableEq Queue] [Fintype Work] (s : State Work Queue) : Request Work Queue → Option (State Work Queue)
  | .queueWork wq work => some (queueWork wq work s).2
  | .cancelWork wq work => (cancelWork wq work s).map Prod.snd
  | .worker q => some (workqueueThread q s)

/-- The count has room for another work, and a work that is cancelled while it is pending is on the
    list of that queue. -/
def Meets [Fintype Work] (s : State Work Queue) : Request Work Queue → Prop
  | .queueWork (some q) (some w) => s.pending w = 0 → s.pendingCount q ≠ BitVec.allOnes 32
  | .cancelWork (some q) (some w) => s.pending w ≠ 0 → ∃ n < Fintype.card Work, Links.follow s.next n (s.head q) = some w
  | _ => True

def kept (s : State Work Queue) (q : Queue) : List (Ticket Work) :=
  (s.accepted q).filter (fun t => t.serial ∉ s.cancelled)

/-- What a queue's worker has to do: the work in its hand and those on the list. -/
def due (s : State Work Queue) (cells : List Work) (q : Queue) : List (Ticket Work) :=
  (s.hand q).toList ++ cells.map s.ticket

/-- The lists of the queues. A work is pending when it is on one of them, and never on two; counts and
    tails agree with them; what was executed and what is due are the requests that were
    accepted and not cancelled, each once and in order. -/
structure Sound (s : State Work Queue) (lists : Queue → List Work) : Prop where
  chain : ∀ q, Links.Chain s.next (s.head q) (lists q)
  distinct : ∀ q, (lists q).Nodup
  separate : ∀ p q w, w ∈ lists p → w ∈ lists q → p = q
  pending : ∀ w, s.pending w ≠ 0 ↔ ∃ q, w ∈ lists q
  count : ∀ q, (s.pendingCount q).toNat = (lists q).length
  tail : ∀ q, s.tail q = (lists q).getLast?
  order : ∀ q, s.executed q ++ due s (lists q) q = kept s q
  once : ∀ q, (s.accepted q).Nodup

/-- The steps of a queue's worker among the requests. -/
def turns [DecidableEq Queue] (q : Queue) (requests : List (Request Work Queue)) : Nat :=
  requests.countP (fun request => match request with
    | .worker p => p = q
    | _ => false)

/-- Each of the requests was executed or cancelled. -/
def Settled (s : State Work Queue) (q : Queue) (requests : List (Ticket Work)) : Prop :=
  ∀ t ∈ requests, t ∈ s.executed q ∨ t.serial ∈ s.cancelled

/-- The requests so far: each has its own number, and was accepted by one queue once. -/
structure History (serial : Nat) (accepted : Queue → List (Ticket Work)) (cancelled : List Nat) : Prop where
  parted : Links.Parted accepted
  serials : ∀ p q t u, t ∈ accepted p → u ∈ accepted q → t.serial = u.serial → t = u
  accepted : ∀ q, ∀ t ∈ accepted q, t.serial < serial
  cancelled : ∀ n ∈ cancelled, n < serial

structure Inv (s : State Work Queue) (lists : Queue → List Work) : Prop where
  tailed : Links.Tailed s.next s.head s.tail lists
  pending : ∀ w, s.pending w ≠ 0 ↔ ∃ q, w ∈ lists q
  count : ∀ q, (s.pendingCount q).toNat = (lists q).length
  funcs : ∀ q, ∀ t ∈ due s (lists q) q, s.func t.work
  order : ∀ q, s.executed q ++ due s (lists q) q = kept s q
  history : History s.serial s.accepted s.cancelled

variable {s : State Work Queue} {lists : Queue → List Work} {q : Queue} {w : Work}

theorem start_inv (func : Work → Bool) : Inv (start func : State Work Queue) (fun _ => []) where
  tailed := ⟨⟨fun _ => List.nodup_nil,nofun⟩,fun _ => rfl,fun _ => rfl⟩
  pending _ := by simp [start]
  count _ := rfl
  funcs := nofun
  order _ := rfl
  history := ⟨⟨fun _ => List.nodup_nil,nofun⟩,nofun,nofun,nofun⟩

theorem Inv.sound (inv : Inv s lists) : Sound s lists where
  chain := inv.tailed.chain
  distinct := inv.tailed.parted.distinct
  separate := inv.tailed.parted.separate
  pending := inv.pending
  count := inv.count
  tail := inv.tailed.last
  order := inv.order
  once := inv.history.parted.distinct

variable {t : Ticket Work} {left right : List Work} {next : Work → Option Work} {prev : Work}

private theorem kept_filter (n : Nat) (q : Queue) :
    (s.accepted q).filter (fun t => t.serial ∉ n :: s.cancelled) = (kept s q).filter (fun t => t.serial ≠ n) := by
  rw [kept]
  simp

section
variable (inv : Inv s lists)
include inv

theorem Inv.due_accepted (member : t ∈ due s (lists q) q) : t ∈ s.accepted q := by
  have listed : t ∈ kept s q := inv.order q ▸ List.mem_append_right (s.executed q) member
  exact (List.mem_filter.mp listed).1

theorem Inv.kept_nodup (q : Queue) : (kept s q).Nodup := (inv.history.parted.distinct q).filter _

theorem Inv.ticket_accepted (member : w ∈ lists q) : s.ticket w ∈ s.accepted q :=
  inv.due_accepted (List.mem_append_right _ (List.mem_map_of_mem member))

theorem Inv.kept_cancelled (cells : lists q = left ++ w :: right) :
    (s.accepted q).filter (fun t => t.serial ∉ s.last w :: s.cancelled) = s.executed q ++ due s (left ++ right) q := by
  have whole : kept s q = (s.executed q ++ (s.hand q).toList ++ left.map s.ticket) ++ s.ticket w :: right.map s.ticket := by
    rw [←inv.order q,due,cells,List.map_append,List.map_cons]
    simp
  have mine := inv.ticket_accepted (q := q) (w := w) (by simp [cells])
  have apart := List.nodup_cons.mp (List.nodup_middle.mp (whole ▸ inv.kept_nodup q))
  have others : ∀ t ∈ s.executed q ++ (s.hand q).toList ++ left.map s.ticket ++ right.map s.ticket,
      decide (t.serial ≠ s.last w) = true := by
    intro t member
    refine decide_eq_true (fun same => ?_)
    have listed : t ∈ kept s q := by
      rw [whole]
      exact List.mem_append.mpr ((List.mem_append.mp member).imp_right (List.mem_cons_of_mem _))
    have equal := inv.history.serials q q t (s.ticket w) (List.mem_filter.mp listed).1 mine same
    exact apart.1 (equal ▸ member)
  rw [kept_filter,whole,List.filter_append,List.filter_cons_of_neg (by simp [State.ticket]),←List.filter_append,
    List.filter_eq_self.mpr others,due,List.map_append]
  simp

theorem Inv.kept_elsewhere {j : Queue} (member : w ∈ lists q) (other : j ≠ q) :
    (s.accepted j).filter (fun t => t.serial ∉ s.last w :: s.cancelled) = kept s j := by
  have mine := inv.ticket_accepted member
  rw [kept_filter]
  refine List.filter_eq_self.mpr (fun t listed => decide_eq_true (fun same => ?_))
  have there := (List.mem_filter.mp listed).1
  have equal := inv.history.serials j q t (s.ticket w) there mine same
  exact other (inv.history.parted.separate j q t there (equal ▸ mine))

end

theorem first_mem
    (chain : Links.Chain next (some w) (left ++ prev :: right)) : w ∈ left ++ [prev] := by
  cases left with
  | nil =>
    cases chain.1
    exact List.mem_singleton_self w
  | cons a rest =>
    cases chain.1
    exact List.mem_cons_self ..

variable [DecidableEq Queue]

section
variable {t : State Work Queue} (inv : Inv s lists)
  (orders : ∀ j, j ≠ q → t.executed j = s.executed j ∧ due t (lists j) j = due s (lists j) j ∧ kept t j = kept s j)
  (func : t.func = s.func) (history : History t.serial t.accepted t.cancelled)
include inv orders func history

/-- The invariant after a step on one queue, which changes that queue's list, history and count and
    leaves those of the others alone. -/
theorem Inv.change {cells : List Work} (tailed : Links.Tailed t.next t.head t.tail (update lists q cells))
    (pending : ∀ v, t.pending v ≠ 0 ↔ ∃ j, v ∈ update lists q cells j)
    (count : (t.pendingCount q).toNat = cells.length) (counts : ∀ j, j ≠ q → t.pendingCount j = s.pendingCount j)
    (order : t.executed q ++ due t cells q = kept t q) (funcs : ∀ x ∈ due t cells q, s.func x.work) :
    Inv t (update lists q cells) where
  tailed := tailed
  pending := pending
  count := by
    refine update_cases count (fun j other => ?_)
    rw [counts j other]
    exact inv.count j
  funcs := by
    rw [func]
    refine update_cases funcs (fun j other => ?_)
    rw [(orders j other).2.1]
    exact inv.funcs j
  order := by
    refine update_cases order (fun j other => ?_)
    obtain ⟨executed,waiting,held⟩ := orders j other
    rw [executed,waiting,held]
    exact inv.order j
  history := history

theorem Inv.drop [DecidableEq Work] (cells : lists q = left ++ w :: right)
    (tailed : Links.Tailed t.next t.head t.tail (update lists q (left ++ right))) (pending : t.pending = update s.pending w 0)
    (counts : t.pendingCount = update s.pendingCount q (s.pendingCount q - 1))
    (order : t.executed q ++ due t (left ++ right) q = kept t q) (funcs : ∀ x ∈ due t (left ++ right) q, s.func x.work) :
    Inv t (update lists q (left ++ right)) := by
  have gone := inv.tailed.parted.mem_without cells
  refine inv.change orders func history tailed (fun v => ?_) ?_ ?_ order funcs
  · rw [pending,exists_congr (fun j => gone j v)]
    rcases eq_or_ne v w with rfl | other
    · simp
    · simpa [other] using inv.pending v
  · have count := inv.count q
    rw [cells,List.length_append,List.length_cons] at count
    rw [counts,update_self,BitVec.toNat_sub_of_le (by rw [BitVec.le_def]; show 1 ≤ _; omega),List.length_append]
    show _ - 1 = _
    omega
  · intro j other
    rw [counts,update_of_ne other]

end

theorem Inv.execute (inv : Inv s lists) (held : s.hand q = some t) :
    Inv { s with hand := update s.hand q none,
                 executed := if s.func t.work then update s.executed q (s.executed q ++ [t]) else s.executed } lists := by
  have func : s.func t.work := inv.funcs q t (List.mem_append_left _ (by simp [held]))
  rw [if_pos func]
  have order := inv.order q
  have waiting : due s (lists q) q = t :: (lists q).map s.ticket := by rw [due,held]; rfl
  rw [← Function.update_eq_self q lists]
  refine inv.change (fun j other => ⟨?_,?_,by rfl⟩) (by rfl) (by exact inv.history) ?_ ?_ (inv.count q) (fun _ _ => rfl) ?_ (fun x there => ?_)
  · exact update_of_ne other ..
  · show (update s.hand q none j).toList ++ _ = _
    rw [update_of_ne other]
    rfl
  · rw [Function.update_eq_self]
    exact inv.tailed
  · rw [Function.update_eq_self]
    exact inv.pending
  · show update s.executed q (s.executed q ++ [t]) q ++ ((update s.hand q none q).toList ++ _) = _
    rw [update_self,update_self,List.append_assoc]
    rw [waiting] at order
    exact order
  · refine inv.funcs q x ?_
    rw [waiting]
    refine List.mem_cons_of_mem t ?_
    have listed : x ∈ (update s.hand q none q).toList ++ (lists q).map s.ticket := there
    rwa [update_self] at listed

theorem History.add {serial : Nat} {accepted : Queue → List (Ticket Work)} {cancelled : List Nat}
    (history : History serial accepted cancelled) (q : Queue) (w : Work) :
    History (serial + 1) (update accepted q (accepted q ++ [⟨serial,w⟩])) cancelled := by
  have fresh : ∀ j, Ticket.mk serial w ∉ accepted j := fun j member =>
    Nat.lt_irrefl serial (history.accepted j _ member)
  have grown := List.perm_append_singleton (Ticket.mk serial w) (accepted q)
  have old := Links.mem_added grown
  refine ⟨history.parted.add fresh grown,fun i j t u inI inJ same => ?_,fun j t inJ => ?_,fun n member => ?_⟩
  · rcases (old i t).mp inI with oldI | ⟨-,rfl⟩ <;> rcases (old j u).mp inJ with oldJ | ⟨-,rfl⟩
    · exact history.serials i j t u oldI oldJ same
    · exact absurd same (Nat.ne_of_lt (history.accepted i t oldI))
    · exact absurd same.symm (Nat.ne_of_lt (history.accepted j u oldJ))
    · rfl
  · rcases (old j t).mp inJ with oldJ | ⟨-,rfl⟩
    · exact Nat.lt_succ_of_lt (history.accepted j t oldJ)
    · exact Nat.lt_succ_self serial
  · exact Nat.lt_succ_of_lt (history.cancelled n member)

variable [DecidableEq Work]

private theorem append_ticket {cells : List Work} (absent : w ∉ cells) : cells.map (append q w s).ticket = cells.map s.ticket := by
  refine List.map_congr_left (fun v member => ?_)
  have other : v ≠ w := by rintro rfl; exact absent member
  exact congrArg (Ticket.mk · v) (update_of_ne other ..)

theorem append_kept (history : History s.serial s.accepted s.cancelled) :
    kept (append q w s) q = kept s q ++ [⟨s.serial,w⟩] := by
  have uncancelled : s.serial ∉ s.cancelled := fun member => Nat.lt_irrefl _ (history.cancelled s.serial member)
  have new : [Ticket.mk s.serial w].filter (fun t => t.serial ∉ s.cancelled) = [⟨s.serial,w⟩] := by simp [uncancelled]
  have accepted : (append q w s).accepted q = s.accepted q ++ [⟨s.serial,w⟩] := update_self ..
  rw [kept,accepted,List.filter_append]
  exact congrArg (kept s q ++ ·) new

theorem append_tailed (tailed : Links.Tailed s.next s.head s.tail lists) (absent : ∀ j, w ∉ lists j) :
    Links.Tailed (append q w s).next (append q w s).head (append q w s).tail (update lists q (lists q ++ [w])) := by
  dsimp only [append]
  cases last : s.tail q with
  | none => exact tailed.snoc_first absent last
  | some p => exact tailed.snoc_last absent last

theorem findPrev_chain :
    ∀ {first : Option Work} {fuel : Nat}, Links.Chain next first (left ++ prev :: w :: right) → w ∉ left ++ [prev] →
      left.length < fuel → findPrev next w fuel first = some (some prev) := by
  induction left with
  | nil =>
    rintro first fuel ⟨rfl,nextIs,_⟩ _ enough
    obtain ⟨fuel,rfl⟩ : ∃ n, fuel = n + 1 := ⟨fuel - 1,by omega⟩
    exact if_neg (not_not.mpr nextIs)
  | cons a rest ih =>
    rintro first fuel ⟨rfl,chain⟩ absent enough
    obtain ⟨fuel,rfl⟩ : ∃ n, fuel = n + 1 := ⟨fuel - 1,by omega⟩
    have outside : w ∉ rest ++ [prev] := fun member => absent (List.mem_cons_of_mem a member)
    have shorter : findPrev next w fuel (next a) = some (some prev) :=
      ih chain outside (Nat.lt_of_succ_lt_succ enough)
    have other : next a ≠ some w := fun same => outside (first_mem (same ▸ chain))
    exact (if_pos other).trans shorter

section
variable (inv : Inv s lists)
include inv

theorem Inv.append (func : s.func w) (idle : s.pending w = 0) (room : s.pendingCount q ≠ BitVec.allOnes 32) :
    Inv (append q w s) (update lists q (lists q ++ [w])) := by
  have absent : ∀ j, w ∉ lists j := fun j member => (inv.pending w).mpr ⟨j,member⟩ idle
  have grown := List.perm_append_singleton w (lists q)
  have waiting : due (Workqueue.append q w s) (lists q ++ [w]) q = due s (lists q) q ++ [⟨s.serial,w⟩] := by
    have mine : (Workqueue.append q w s).ticket w = ⟨s.serial,w⟩ :=
      congrArg (Ticket.mk · w) (update_self ..)
    rw [due,List.map_append,append_ticket (absent q),List.map_singleton,mine,←List.append_assoc]
    rfl
  refine inv.change (t := Workqueue.append q w s) ?_ rfl (inv.history.add q w) (append_tailed inv.tailed absent) (fun v => ?_) ?_ ?_ ?_ ?_
  · intro j other
    refine ⟨rfl,?_,?_⟩
    · rw [due,append_ticket (absent j)]
      rfl
    · rw [kept,show (Workqueue.append q w s).accepted j = s.accepted j from update_of_ne other ..]
      rfl
  · rw [exists_congr (fun j => Links.mem_added grown j v)]
    rcases eq_or_ne v w with rfl | other
    · simp [Workqueue.append]
    · simpa [Workqueue.append,other] using inv.pending v
  · have count := inv.count q
    have below : (s.pendingCount q).toNat + 1 < 2^32 := by
      have : (s.pendingCount q).toNat ≠ 4294967295 := fun same => room (BitVec.eq_of_toNat_eq same)
      omega
    have one : (s.pendingCount q + 1).toNat = (s.pendingCount q).toNat + 1 := BitVec.toNat_add_of_lt below
    rw [show (Workqueue.append q w s).pendingCount q = s.pendingCount q + 1 from update_self ..,one,count,
      List.length_append]
    rfl
  · exact fun j other => update_of_ne other ..
  · rw [waiting,append_kept inv.history,←List.append_assoc]
    exact congrArg (· ++ [_]) (inv.order q)
  · intro x member
    rw [waiting,List.mem_append,List.mem_singleton] at member
    rcases member with old | rfl
    · exact inv.funcs q x old
    · exact func

theorem Inv.cancel {head tail : Queue → Option Work}
    (cells : lists q = left ++ w :: right)
    (tailed : Links.Tailed (update next w none) head tail (update lists q (left ++ right))) :
    Inv { release q w { s with next, head, tail } with cancelled := s.last w :: s.cancelled }
      (update lists q (left ++ right)) := by
  have member : w ∈ lists q := by simp [cells]
  refine inv.drop (fun j other => ?_) rfl ?_ cells tailed rfl rfl (inv.kept_cancelled cells).symm (fun x there => ?_)
  · exact ⟨rfl,rfl,inv.kept_elsewhere member other⟩
  · refine ⟨inv.history.parted,inv.history.serials,inv.history.accepted,List.forall_mem_cons.mpr ⟨?_,inv.history.cancelled⟩⟩
    exact inv.history.accepted q _ (inv.ticket_accepted member)
  · refine inv.funcs q x ?_
    rcases List.mem_append.mp there with held | listed
    · exact List.mem_append_left _ held
    · obtain ⟨v,old,rfl⟩ := List.mem_map.mp listed
      refine List.mem_append_right _ (List.mem_map_of_mem ?_)
      rw [cells]
      exact List.mem_append.mpr ((List.mem_append.mp old).imp_right (List.mem_cons_of_mem w))

theorem Inv.take {rest : List Work} (cells : lists q = w :: rest) (free : s.hand q = none) :
    Inv { release q w (dropHead q w s) with hand := update s.hand q (some (s.ticket w)) }
      (update lists q rest) := by
  have split : lists q = [] ++ w :: rest := cells
  have waiting : due { release q w (dropHead q w s) with hand := update s.hand q (some (s.ticket w)) } rest q
      = due s (lists q) q := by
    rw [due,due,cells,free]
    show (update s.hand q (some (s.ticket w)) q).toList ++ _ = _
    rw [update_self]
    rfl
  refine inv.drop (fun j other => ⟨by rfl,?_,by rfl⟩) (by rfl) (by exact inv.history) split (inv.tailed.pop cells) rfl rfl ?_ ?_
  · show (update s.hand q (some (s.ticket w)) j).toList ++ _ = _
    rw [update_of_ne other]
    rfl
  · rw [show ([] : List Work) ++ rest = rest from rfl,waiting]
    exact inv.order q
  · rw [show ([] : List Work) ++ rest = rest from rfl,waiting]
    exact inv.funcs q

theorem Inv.remove [Fintype Work] (member : w ∈ lists q) :
    ∃ t lists', remove q w s = some t ∧ Inv { t with cancelled := s.last w :: s.cancelled } lists' := by
  rw [Workqueue.remove]
  have chain := inv.tailed.chain q
  obtain ⟨left,right,cells⟩ := List.append_of_mem member
  have distinct := inv.tailed.parted.distinct q
  rw [cells] at chain distinct
  rcases List.eq_nil_or_concat' left with rfl | ⟨before,prev,rfl⟩
  · exact ⟨_,_,if_pos chain.1,inv.cancel cells (inv.tailed.pop cells)⟩
  · have outside : w ∉ before ++ [prev] := fun here => List.disjoint_of_nodup_append distinct here (List.mem_cons_self ..)
    have parts : lists q = before ++ prev :: w :: right := by simp [cells]
    have walk := inv.tailed.chain q
    rw [parts] at walk
    have notFirst : s.head q ≠ some w := fun first => outside (first_mem (first ▸ walk))
    have enough : before.length < Fintype.card Work + 1 := by
      have few := distinct.length_le_card
      simp only [List.length_append] at few
      omega
    have found := findPrev_chain walk outside enough
    rw [if_neg notFirst,found]
    refine ⟨_,_,rfl,inv.cancel cells ?_⟩
    rw [List.append_assoc]
    exact inv.tailed.unlink parts

theorem Inv.worker (q : Queue) : ∃ lists', Inv (workqueueThread q s) lists' := by
  rw [workqueueThread]
  cases held : s.hand q with
  | some t => exact ⟨lists,inv.execute held⟩
  | none =>
    cases first : s.head q with
    | none => exact ⟨lists,inv⟩
    | some w =>
      have chain := inv.tailed.chain q
      rw [first] at chain
      cases cells : lists q with
      | nil =>
        rw [cells] at chain
        cases chain
      | cons v rest =>
        rw [cells] at chain
        cases chain.1
        exact ⟨_,inv.take cells held⟩

end

theorem inv_step [Fintype Work] (request : Request Work Queue) (inv : ∃ lists, Inv s lists) (meets : Meets s request) :
    ∃ t, step s request = some t ∧ ∃ lists, Inv t lists := by
  obtain ⟨lists,inv⟩ := inv
  cases request with
  | queueWork wq work =>
    refine ⟨_,rfl,?_⟩
    match wq, work with
    | some q, some w =>
      rw [queueWork]
      by_cases func : s.func w
      · by_cases idle : s.pending w = 0
        · rw [if_pos func,if_neg (not_not.mpr idle)]
          exact ⟨_,inv.append func idle (meets idle)⟩
        · rw [if_pos func,if_pos idle]
          exact ⟨lists,inv⟩
      · rw [if_neg func]
        exact ⟨lists,inv⟩
    | none, _ => exact ⟨lists,inv⟩
    | some _, none => exact ⟨lists,inv⟩
  | cancelWork wq work =>
    match wq, work with
    | some q, some w =>
      rw [step,cancelWork]
      by_cases idle : s.pending w = 0
      · rw [if_pos idle]
        exact ⟨s,rfl,lists,inv⟩
      · obtain ⟨n,_,there⟩ := meets idle
        rw [Links.chain_follow (inv.tailed.chain q)] at there
        obtain ⟨t,lists',removed,kept⟩ := inv.remove (List.mem_of_getElem? there)
        rw [if_neg idle,removed]
        exact ⟨_,rfl,lists',kept⟩
    | none, _ => exact ⟨s,rfl,lists,inv⟩
    | some _, none => exact ⟨s,rfl,lists,inv⟩
  | worker q => exact ⟨_,rfl,inv.worker q⟩

end

section
variable {Work Queue : Type} {s t : State Work Queue} {lists : Queue → List Work} {q : Queue} {w : Work}

/-- How the history grows. -/
structure Grows (s t : State Work Queue) : Prop where
  accepted : ∀ q, s.accepted q <+: t.accepted q
  executed : ∀ q, s.executed q <+: t.executed q
  cancelled : ∀ n ∈ s.cancelled, n ∈ t.cancelled

theorem Grows.refl (s : State Work Queue) : Grows s s :=
  ⟨fun _ => List.prefix_rfl,fun _ => List.prefix_rfl,fun _ => id⟩

theorem Grows.trans {u : State Work Queue} (first : Grows s t) (second : Grows t u) : Grows s u :=
  ⟨fun q => (first.accepted q).trans (second.accepted q),fun q => (first.executed q).trans (second.executed q),
    fun n gone => second.cancelled n (first.cancelled n gone)⟩

variable {requests : List (Ticket Work)}

theorem Grows.settled (grows : Grows s t) (settled : Settled s q requests) : Settled t q requests :=
  fun x member => (settled x member).imp (fun done => (grows.executed q).subset done) (grows.cancelled _)

/-- Twice the executions of a queue's worker, and one for the work in its hand. -/
def progress (s : State Work Queue) (q : Queue) : Nat := 2 * (s.executed q).length + (s.hand q).toList.length

theorem Inv.settled_of_idle (inv : Inv s lists) (free : s.hand q = none) (first : s.head q = none) :
    Settled s q (s.accepted q) := by
  have chain := inv.tailed.chain q
  rw [first] at chain
  have order := inv.order q
  rw [due,Links.chain_none chain,free] at order
  intro x member
  by_cases gone : x.serial ∈ s.cancelled
  · exact .inr gone
  · refine .inl ?_
    have listed : x ∈ kept s q := List.mem_filter.mpr ⟨member,decide_eq_true gone⟩
    rw [←order] at listed
    simpa using listed

theorem Inv.settled_of_progress (inv : Inv s lists) (early : requests <+: s.accepted q)
    (enough : 2 * requests.length ≤ progress s q) : Settled s q requests := by
  have executed : s.executed q <+: kept s q := ⟨_,inv.order q⟩
  have first : requests.filter (fun t => t.serial ∉ s.cancelled) <+: kept s q := early.filter _
  have fewer := List.length_filter_le (fun t : Ticket Work => decide (t.serial ∉ s.cancelled)) requests
  have longer : (requests.filter (fun t => t.serial ∉ s.cancelled)).length ≤ (s.executed q).length := by
    have := Option.length_toList_le (o := s.hand q)
    rw [progress] at enough
    omega
  intro x member
  by_cases gone : x.serial ∈ s.cancelled
  · exact .inr gone
  · refine .inl ((List.prefix_of_prefix_length_le first executed longer).subset ?_)
    exact List.mem_filter.mpr ⟨member,decide_eq_true gone⟩

private theorem progress_le (others : ∀ j, j ≠ q → t.executed j = s.executed j ∧ t.hand j = s.hand j)
    (here : progress t q = progress s q + 1) (j : Queue) : progress s j ≤ progress t j := by
  rcases eq_or_ne j q with rfl | other
  · omega
  · rw [progress,progress,(others j other).1,(others j other).2]

variable [DecidableEq Queue]

private theorem turns_cons (q : Queue) (request : Request Work Queue) (rest : List (Request Work Queue)) :
    turns q (request :: rest) = turns q [request] + turns q rest := by
  rw [turns,←List.singleton_append,List.countP_append]
  rfl

variable [DecidableEq Work]

theorem queueWork_grows (wq : Option Queue) (work : Option Work) (s : State Work Queue) :
    Grows s (queueWork wq work s).2 ∧ (queueWork wq work s).2.executed = s.executed ∧ (queueWork wq work s).2.hand = s.hand := by
  unfold queueWork
  split
  · split
    · split
      · exact ⟨.refl s,rfl,rfl⟩
      · exact ⟨⟨prefix_update _ _,fun _ => List.prefix_rfl,fun _ => id⟩,rfl,rfl⟩
    · exact ⟨.refl s,rfl,rfl⟩
  · exact ⟨.refl s,rfl,rfl⟩

theorem remove_history [Fintype Work] (removed : remove q w s = some t) :
    t.accepted = s.accepted ∧ t.executed = s.executed ∧ t.hand = s.hand := by
  rw [remove] at removed
  split at removed
  · cases removed
    exact ⟨rfl,rfl,rfl⟩
  · split at removed
    · cases removed
    · cases removed
      exact ⟨rfl,rfl,rfl⟩
    · cases removed
      exact ⟨rfl,rfl,rfl⟩

theorem cancelWork_grows [Fintype Work] {wq : Option Queue} {work : Option Work} {value : Int}
    (returned : cancelWork wq work s = some (value,t)) : Grows s t ∧ t.executed = s.executed ∧ t.hand = s.hand := by
  unfold cancelWork at returned
  split at returned
  · split at returned
    · cases returned
      exact ⟨.refl s,rfl,rfl⟩
    · obtain ⟨u,removed,same⟩ := Option.map_eq_some_iff.mp returned
      cases same
      obtain ⟨accepted,executed,hand⟩ := remove_history removed
      refine ⟨⟨fun q => ?_,fun q => ?_,fun n => List.mem_cons_of_mem _⟩,executed,hand⟩
      · rw [accepted]
      · rw [executed]
  · cases returned
    exact ⟨.refl s,rfl,rfl⟩

theorem Inv.worker_grows (inv : Inv s lists) (q : Queue) : Grows s (workqueueThread q s) ∧
    (∀ j, progress s j ≤ progress (workqueueThread q s) j) ∧
    (progress (workqueueThread q s) q = progress s q + 1 ∨ (s.hand q = none ∧ s.head q = none)) := by
  rw [workqueueThread]
  cases held : s.hand q with
  | some x =>
    have func : s.func x.work := inv.funcs q x (List.mem_append_left _ (by simp [held]))
    dsimp only
    rw [if_pos func]
    have one : progress { s with hand := update s.hand q none,
                                 executed := update s.executed q (s.executed q ++ [x]) } q = progress s q + 1 := by
      simp [progress,held]
      omega
    exact ⟨⟨fun _ => List.prefix_rfl,prefix_update q x,fun _ => id⟩,
      progress_le (fun j other => ⟨update_of_ne other ..,update_of_ne other ..⟩) one,.inl one⟩
  | none =>
    cases first : s.head q with
    | none => exact ⟨.refl s,fun _ => Nat.le_refl _,.inr ⟨rfl,rfl⟩⟩
    | some w =>
      have one : progress { release q w (dropHead q w s) with hand := update s.hand q (some (s.ticket w)) } q =
          progress s q + 1 := by
        simp [progress,held,release,dropHead]
      exact ⟨⟨fun _ => List.prefix_rfl,fun _ => List.prefix_rfl,fun _ => id⟩,
        progress_le (fun j other => ⟨rfl,update_of_ne other ..⟩) one,.inl one⟩

variable [Fintype Work]

theorem step_grows (request : Request Work Queue) (inv : Inv s lists) (stepped : step s request = some t) :
    Grows s t ∧ ∀ q, Settled s q (s.accepted q) ∨ progress s q + turns q [request] ≤ progress t q := by
  cases request with
  | queueWork wq work =>
    cases stepped
    obtain ⟨grows,executed,hand⟩ := queueWork_grows wq work s
    refine ⟨grows,fun q => .inr ?_⟩
    rw [progress,progress,executed,hand]
    exact Nat.le_refl _
  | cancelWork wq work =>
    obtain ⟨⟨value,u⟩,returned,same⟩ := Option.map_eq_some_iff.mp stepped
    cases same
    obtain ⟨grows,executed,hand⟩ := cancelWork_grows returned
    refine ⟨grows,fun q => .inr ?_⟩
    rw [progress,progress,executed,hand]
    exact Nat.le_refl _
  | worker p =>
    cases stepped
    obtain ⟨grows,least,here⟩ := inv.worker_grows p
    refine ⟨grows,fun q => ?_⟩
    rcases eq_or_ne p q with rfl | other
    · rcases here with one | ⟨free,first⟩
      · refine .inr (Nat.le_of_eq ?_)
        simp [turns,one]
      · exact .inl (inv.settled_of_idle free first)
    · refine .inr ?_
      simpa [turns,other] using least q

/-- Either all the requests are settled, or each turn of the worker was progress. -/
theorem run_grows (q : Queue) (early : List (Ticket Work)) (requests : List (Request Work Queue))
    (s : State Work Queue) (inv : ∃ lists, Inv s lists) (first : early <+: s.accepted q) (guarded : Guarded step Meets s requests) :
    ∃ t, run step s requests = some t ∧ (∃ lists, Inv t lists) ∧ Grows s t ∧
      (Settled t q early ∨ progress s q + turns q requests ≤ progress t q) := by
  induction requests generalizing s with
  | nil => exact ⟨s,rfl,inv,.refl s,.inr (Nat.le_refl _)⟩
  | cons request rest ih =>
    obtain ⟨t,stepped,kept⟩ := inv_step request inv guarded.1
    obtain ⟨lists,inv⟩ := inv
    obtain ⟨grows,here⟩ := step_grows request inv stepped
    obtain ⟨u,ran,final,later,there⟩ := ih t kept (first.trans (grows.accepted q)) (guarded.2 t stepped)
    refine ⟨u,by rw [run_cons,stepped]; exact ran,final,grows.trans later,?_⟩
    rcases here q with settled | more
    · exact .inl ((grows.trans later).settled (fun x member => settled x (first.subset member)))
    · rcases there with settled | most
      · exact .inl settled
      · refine .inr ?_
        rw [turns_cons]
        omega

/-- In every run that cancels a work only where it is queued, the lists, the flags, the counts and the
    order are right, and whatever was accepted at some point of the run is executed or cancelled
    when the queue's worker has had two turns for each accepted request. -/
theorem workqueue_run_sound (func : Work → Bool) (before after : List (Request Work Queue))
    (guarded : Guarded step Meets (start func) (before ++ after)) :
    ∃ s t lists, run step (start func) before = some s ∧ run step s after = some t ∧ Sound t lists ∧
      ∀ q, 2 * (s.accepted q).length ≤ turns q after → Settled t q (s.accepted q) := by
  obtain ⟨early,late⟩ := guarded.split before after
  obtain ⟨s,ran,inv⟩ := run_invariant (fun s request inv meets => inv_step request inv meets) before (start func)
    ⟨_,start_inv func⟩ early
  obtain ⟨t,more,⟨lists,final⟩⟩ := run_invariant (fun s request inv meets => inv_step request inv meets) after s inv (late s ran)
  refine ⟨s,t,lists,ran,more,final.sound,fun q enough => ?_⟩
  obtain ⟨u,again,_,grows,settled⟩ := run_grows q (s.accepted q) after s inv List.prefix_rfl (late s ran)
  cases more.symm.trans again
  rcases settled with done | most
  · exact done
  · exact final.settled_of_progress (grows.accepted q) (by omega)

instance (s : State Work Queue) : ∀ request, Decidable (Meets s request)
  | .queueWork (some _) (some w) => inferInstanceAs (Decidable (s.pending w = 0 → _))
  | .cancelWork (some _) (some w) => inferInstanceAs (Decidable (s.pending w ≠ 0 → _))
  | .queueWork none _ | .queueWork (some _) none | .cancelWork none _ | .cancelWork (some _) none | .worker _ => .isTrue trivial

end

def someRun : List (Request (Fin 3) (Fin 2)) :=
  [.queueWork (some 0) (some 0),.queueWork (some 0) (some 1),.queueWork (some 0) (some 2),.worker 0,
    .queueWork (some 1) (some 0),.cancelWork (some 0) (some 1)]

theorem workqueue_run_sound_of_three :
    ∃ s t lists, run step (start (fun _ => true)) someRun = some s ∧
      run step s (List.replicate 6 (.worker 0)) = some t ∧ Sound t lists ∧
      ∀ q, 2 * (s.accepted q).length ≤ turns q (List.replicate 6 (Request.worker (0 : Fin 2) : Request (Fin 3) (Fin 2))) →
        Settled t q (s.accepted q) :=
  workqueue_run_sound (fun _ => true) someRun (List.replicate 6 (.worker 0)) (by decide +kernel)

def elsewhere : List (Request (Fin 2) (Fin 2)) :=
  [.queueWork (some 0) (some 0),.queueWork (some 0) (some 1),.cancelWork (some 1) (some 0)]

/-- Then the first is on the list and not pending, the second is pending and on no list, and both counts are wrong.
    The worker executes what was cancelled, and never the other. -/
theorem cancel_work_elsewhere :
    ∃ s, run step (start (fun _ => true)) elsewhere = some s ∧
      s.head 0 = some 0 ∧ s.next 0 = none ∧ s.pending 0 = 0 ∧ s.tail 0 = some 1 ∧ s.head 1 = none ∧ s.pending 1 = 1 ∧
      s.pendingCount 0 = 2 ∧ s.pendingCount 1 = 4294967295 ∧
      (run step s (List.replicate 4 (.worker 0))).map (fun t => (t.executed 0,t.head 0)) = some ([⟨0,0⟩],none) := by
  decide +kernel

end Kenux.Workqueue
