import Kenux.Runs

/-!
The sequence lock of `spinlock.h`. A writer increments `sequence` at the beginning and at
the end of its section; a reader reads it until it is even, and again after its section.
Every load, every store and every atomic operation is a step of its own, and threads take
their steps in any order. `sequence` is the number of sections begun and ended, modulo 2^32,
so an even value means that no section is active, and the same value a second time means
that none has begun, unless 2^31 or more have (`seqlock_read_quiet`).
-/
namespace Kenux.SeqLock
open Kenux.Runs
open Function (update update_self update_of_ne)

/-- `seqlock_t`; `lock` is the word of its spinlock. -/
structure Seq where
  sequence : BitVec 32
  lock : BitVec 32

def seqlockInit : Seq := ⟨0,0⟩

/-- The next access of a thread. `spinLock` and `spinWait` are the two loops of `spin_lock`; both
    increments are a load and a store. A thread in `writing` has returned from `seqlock_write_begin`
    and begins `seqlock_write_end` with its load; one in `reading` has returned from
    `seqlock_read_begin` and makes the load of `seqlock_read_retry`. -/
inductive Phase where
  | outside
  | spinLock
  | spinWait
  | beginLoad
  | beginStore (loaded : BitVec 32)
  | writing
  | endStore (loaded : BitVec 32)
  | spinUnlock
  | readLoad
  | reading (seq : BitVec 32)
  deriving DecidableEq, Repr

/-- The lock and the threads, with the number of write sections begun and ended. -/
structure State (Thread : Type) where
  sl : Seq
  phase : Thread → Phase
  begun : Nat
  ended : Nat

def seqlockReadRetry (sl : Seq) (seq : BitVec 32) : Nat := if seq ≠ sl.sequence then 1 else 0

/-- Between the first and the second increment. -/
def Phase.active : Phase → Bool
  | .writing | .endStore _ => true
  | _ => false

/-- A thread that is outside begins to write or to read, or a thread makes its next access. -/
inductive Request (Thread : Type) where
  | write (p : Thread)
  | read (p : Thread)
  | advance (p : Thread)
  deriving DecidableEq

section
variable {Thread : Type}

def start : State Thread := ⟨seqlockInit,fun _ => .outside,0,0⟩

/-- No writer is inside. -/
def Quiet (s : State Thread) : Prop := ∀ p, (s.phase p).active = false

variable [DecidableEq Thread]

def State.go (s : State Thread) (p : Thread) (sl : Seq) (phase : Phase) : State Thread :=
  { s with sl, phase := update s.phase p phase }

def advance (s : State Thread) (p : Thread) : State Thread :=
  match s.phase p with
  | .outside => s
  | .spinLock =>
    if s.sl.lock ≠ 0 then s.go p { s.sl with lock := 1 } .spinWait else s.go p { s.sl with lock := 1 } .beginLoad
  | .spinWait => if s.sl.lock ≠ 0 then s else s.go p s.sl .spinLock
  | .beginLoad => s.go p s.sl (.beginStore s.sl.sequence)
  | .beginStore loaded => { s.go p { s.sl with sequence := loaded + 1 } .writing with begun := s.begun + 1 }
  | .writing => s.go p s.sl (.endStore s.sl.sequence)
  | .endStore loaded => { s.go p { s.sl with sequence := loaded + 1 } .spinUnlock with ended := s.ended + 1 }
  | .spinUnlock => s.go p { s.sl with lock := 0 } .outside
  | .readLoad => if s.sl.sequence &&& 1 ≠ 0 then s else s.go p s.sl (.reading s.sl.sequence)
  | .reading _ => s.go p s.sl .outside

def next (s : State Thread) : Request Thread → State Thread
  | .write p => if s.phase p = .outside then s.go p s.sl .spinLock else s
  | .read p => if s.phase p = .outside then s.go p s.sl .readLoad else s
  | .advance p => advance s p

def step (s : State Thread) (request : Request Thread) : Option (State Thread) := some (next s request)

end

/-- From the successful test and set to the release. -/
def Phase.owns : Phase → Bool
  | .beginLoad | .beginStore _ | .writing | .endStore _ | .spinUnlock => true
  | _ => false

variable {phase : Phase}

theorem Phase.owns_of_active (active : phase.active = true) : phase.owns = true := by
  cases phase with
  | writing => rfl
  | endStore loaded => rfl
  | _ => cases active

theorem Phase.passive_of_owns (owns : phase.owns = false) : phase.active = false := by
  cases phase with
  | writing | endStore loaded => cases owns
  | _ => rfl

section
variable {Thread : Type}

structure Inv (s : State Thread) : Prop where
  counted : s.sl.sequence = BitVec.ofNat 32 (s.begun + s.ended)
  alone : ∀ p q, (s.phase p).owns = true → (s.phase q).owns = true → p = q
  locked : ∀ p, (s.phase p).owns = true → s.sl.lock ≠ 0
  loaded : ∀ p loaded, s.phase p = .beginStore loaded ∨ s.phase p = .endStore loaded → loaded = s.sl.sequence
  active : ∀ p, (s.phase p).active = true → s.begun = s.ended + 1
  quiet : Quiet s → s.begun = s.ended

variable {s t : State Thread} {p : Thread}

theorem start_inv : Inv (start : State Thread) := by
  exact ⟨rfl,nofun,nofun,by simp [start],nofun,fun _ => rfl⟩

section
variable (inv : Inv s)
include inv

theorem Inv.idle (same : s.begun = s.ended) : Quiet s := by
  intro p
  by_contra active
  have one := inv.active p (eq_true_of_ne_false active)
  omega

theorem Inv.others (owns : (s.phase p).owns = true) (q : Thread) (other : q ≠ p) : (s.phase q).owns = false := by
  by_contra also
  exact other (inv.alone q p (eq_true_of_ne_false also) owns)

/-- The owner alone decides: no section of another thread is active. -/
theorem Inv.balanced (owns : (s.phase p).owns = true) (passive : (s.phase p).active = false) : s.begun = s.ended := by
  refine inv.quiet (fun q => ?_)
  rcases eq_or_ne q p with rfl | other
  · exact passive
  · exact Phase.passive_of_owns (inv.others owns q other)

theorem Inv.free (free : s.sl.lock = 0) (q : Thread) : (s.phase q).owns = false := by
  by_contra owns
  exact inv.locked q (eq_true_of_ne_false owns) free

theorem Inv.ended_le : s.ended ≤ s.begun := by
  by_cases quiet : Quiet s
  · exact Nat.le_of_eq (inv.quiet quiet).symm
  · obtain ⟨p,active⟩ := not_forall.mp quiet
    have one := inv.active p (eq_true_of_ne_false active)
    omega

theorem Inv.even (even : s.sl.sequence &&& 1 = 0) : s.begun = s.ended := by
  by_contra different
  have busy : ¬ Quiet s := fun quiet => different (inv.quiet quiet)
  obtain ⟨p,active⟩ := not_forall.mp busy
  have one := inv.active p (eq_true_of_ne_false active)
  rw [inv.counted] at even
  have bit := congrArg BitVec.toNat even
  rw [BitVec.toNat_and,BitVec.toNat_ofNat] at bit
  change _ &&& 1 = 0 at bit
  rw [Nat.and_one_is_mod] at bit
  omega

end

/-- What has begun and ended stays so. -/
structure Grows (s t : State Thread) : Prop where
  begun : s.begun ≤ t.begun
  ended : s.ended ≤ t.ended

/-- Two equal values of `sequence` with few sections between them: nothing has begun or ended. -/
theorem Inv.unchanged (first : Inv s) (second : Inv t) (grows : Grows s t) (balanced : s.begun = s.ended)
    (few : t.begun < s.begun + 2^31) (same : s.sl.sequence = t.sl.sequence) : t.begun = s.begun ∧ t.ended = s.ended := by
  have order := second.ended_le
  have ended := grows.ended
  rw [first.counted,second.counted] at same
  have values := congrArg BitVec.toNat same
  rw [BitVec.toNat_ofNat,BitVec.toNat_ofNat] at values
  omega

variable [DecidableEq Thread] {x : Phase} {q : Thread}

theorem Inv.walk (inv : Inv s) {lock : BitVec 32} (before : (s.phase p).owns = false) (after : x.owns = false)
    (locked : s.sl.lock ≠ 0 → lock ≠ 0) : Inv (s.go p { s.sl with lock } x) := by
  have old : ∀ q, ((s.go p { s.sl with lock } x).phase q).owns = true → (s.go p { s.sl with lock } x).phase q = s.phase q := by
    intro q owns
    refine update_of_ne ?_ ..
    rintro rfl
    rw [show (s.go q { s.sl with lock } x).phase q = x from update_self ..,after] at owns
    cases owns
  constructor
  case counted => exact inv.counted
  case alone =>
    intro q r first second
    rw [old q first] at first
    rw [old r second] at second
    exact inv.alone q r first second
  case locked =>
    intro q owns
    rw [old q owns] at owns
    exact locked (inv.locked q owns)
  case loaded =>
    intro q loaded stores
    have owns : ((s.go p { s.sl with lock } x).phase q).owns = true := by
      rcases stores with is | is <;> rw [is] <;> rfl
    rw [old q owns] at stores
    exact inv.loaded q loaded stores
  case active =>
    intro q active
    rw [old q (Phase.owns_of_active active)] at active
    exact inv.active q active
  case quiet =>
    intro quiet
    refine inv.quiet (fun q => ?_)
    by_cases here : q = p
    · subst here
      exact Phase.passive_of_owns before
    · have same : (s.go p { s.sl with lock } x).phase q = s.phase q := update_of_ne here ..
      rw [←same]
      exact quiet q

theorem Inv.put (others : ∀ q, q ≠ p → (s.phase q).owns = false) (phases : t.phase = update s.phase p x)
    (counted : t.sl.sequence = BitVec.ofNat 32 (t.begun + t.ended)) (locked : x.owns = true → t.sl.lock ≠ 0)
    (loaded : ∀ loaded, x = .beginStore loaded ∨ x = .endStore loaded → loaded = t.sl.sequence)
    (active : x.active = true → t.begun = t.ended + 1) (quiet : x.active = false → t.begun = t.ended) : Inv t := by
  have here : t.phase p = x := by rw [phases,update_self]
  have only : ∀ q, (t.phase q).owns = true → q = p := by
    intro q owns
    by_contra other
    rw [phases,update_of_ne other,others q other] at owns
    cases owns
  constructor
  case counted => exact counted
  case alone =>
    intro q r first second
    rw [only q first,only r second]
  case locked =>
    intro q owns
    obtain rfl := only q owns
    exact locked (here ▸ owns)
  case loaded =>
    intro q value stores
    have owns : (t.phase q).owns = true := by
      rcases stores with is | is <;> rw [is] <;> rfl
    obtain rfl := only q owns
    exact loaded value (here ▸ stores)
  case active =>
    intro q busy
    obtain rfl := only q (Phase.owns_of_active busy)
    exact active (here ▸ busy)
  case quiet => exact fun none => quiet (here ▸ none p)

theorem Inv.advance (inv : Inv s) (p : Thread) : Inv (advance s p) := by
  rw [SeqLock.advance]
  cases here : s.phase p with
  | outside => exact inv
  | spinLock =>
    dsimp only
    split
    · exact inv.walk (by rw [here]; rfl) rfl (fun _ => by decide)
    case isFalse free =>
      have free := not_not.mp free
      have balanced := inv.quiet (fun q => Phase.passive_of_owns (inv.free free q))
      exact Inv.put (fun q _ => inv.free free q) rfl inv.counted (fun _ => (by decide : (1 : BitVec 32) ≠ 0))
        nofun nofun (fun _ => balanced)
  | spinWait =>
    dsimp only
    split
    · exact inv
    · exact inv.walk (by rw [here]; rfl) rfl id
  | beginLoad =>
    have owns : (s.phase p).owns = true := by rw [here]; rfl
    exact Inv.put (inv.others owns) rfl inv.counted (fun _ => inv.locked p owns) (by simp [State.go]) nofun
      (fun _ => inv.balanced owns (by rw [here]; rfl))
  | beginStore loaded =>
    have owns : (s.phase p).owns = true := by rw [here]; rfl
    have balanced := inv.balanced owns (by rw [here]; rfl)
    refine Inv.put (inv.others owns) rfl ?_ (fun _ => inv.locked p owns) nofun ?_ nofun
    · rw [inv.loaded p loaded (.inl here),inv.counted,Nat.add_right_comm]
      exact (BitVec.ofNat_add _ 1).symm
    · intro _
      dsimp only [State.go]
      omega
  | writing =>
    have owns : (s.phase p).owns = true := by rw [here]; rfl
    have one := inv.active p (by rw [here]; rfl)
    exact Inv.put (inv.others owns) rfl inv.counted (fun _ => inv.locked p owns) (by simp [State.go]) (fun _ => one) nofun
  | endStore loaded =>
    have owns : (s.phase p).owns = true := by rw [here]; rfl
    have one := inv.active p (by rw [here]; rfl)
    refine Inv.put (inv.others owns) rfl ?_ (fun _ => inv.locked p owns) nofun nofun ?_
    · rw [inv.loaded p loaded (.inr here),inv.counted]
      exact (BitVec.ofNat_add _ 1).symm
    · intro _
      dsimp only [State.go]
      omega
  | spinUnlock =>
    have owns : (s.phase p).owns = true := by rw [here]; rfl
    exact Inv.put (inv.others owns) rfl inv.counted nofun nofun nofun
      (fun _ => inv.balanced owns (by rw [here]; rfl))
  | readLoad =>
    dsimp only
    split
    · exact inv
    · exact inv.walk (by rw [here]; rfl) rfl id
  | reading seq => exact inv.walk (by rw [here]; rfl) rfl id

theorem step_inv (s : State Thread) (request : Request Thread) (inv : Inv s) : ∃ t, step s request = some t ∧ Inv t := by
  refine ⟨_,rfl,?_⟩
  cases request with
  | write p | read p =>
    dsimp only [next]
    split
    case isTrue outside => exact inv.walk (by rw [outside]; rfl) rfl id
    · exact inv
  | advance p => exact inv.advance p

theorem step_grows (s : State Thread) (request : Request Thread) : Grows s (next s request) := by
  cases request with
  | write p | read p =>
    dsimp only [next]
    split <;> exact ⟨Nat.le_refl _,Nat.le_refl _⟩
  | advance p =>
    dsimp only [next]
    rw [SeqLock.advance]
    cases s.phase p with
    | beginStore loaded => exact ⟨Nat.le_succ _,Nat.le_refl _⟩
    | endStore loaded => exact ⟨Nat.le_refl _,Nat.le_succ _⟩
    | spinLock | spinWait | readLoad => dsimp only; split <;> exact ⟨Nat.le_refl _,Nat.le_refl _⟩
    | _ => exact ⟨Nat.le_refl _,Nat.le_refl _⟩

theorem run_grows (requests : List (Request Thread)) (ran : run step s requests = some t) : Grows s t := by
  induction requests generalizing s with
  | nil =>
    cases ran
    exact ⟨Nat.le_refl _,Nat.le_refl _⟩
  | cons request rest ih =>
    have first := step_grows s request
    have later := ih ran
    exact ⟨Nat.le_trans first.begun later.begun,Nat.le_trans first.ended later.ended⟩

private theorem go_phase_of_ne {sl : Seq} (other : p ≠ q) : (s.go q sl x).phase p = s.phase p :=
  update_of_ne other ..

theorem advance_phase_of_ne (other : p ≠ q) : (advance s q).phase p = s.phase p := by
  rw [SeqLock.advance]
  cases s.phase q with
  | outside => rfl
  | spinLock => dsimp only; split <;> exact go_phase_of_ne other
  | spinWait | readLoad => dsimp only; split <;> first | rfl | exact go_phase_of_ne other
  | _ => exact update_of_ne other ..

theorem run_stays (requests : List (Request Thread)) (inside : s.phase p ≠ .outside) (own : .advance p ∉ requests)
    (ran : run step s requests = some t) : t.phase p = s.phase p := by
  induction requests generalizing s with
  | nil =>
    cases ran
    rfl
  | cons request rest ih =>
    obtain ⟨first,later⟩ := not_or.mp (fun either => own (List.mem_cons.mpr either))
    have same : (next s request).phase p = s.phase p := by
      cases request with
      | write q | read q =>
        dsimp only [next]
        split
        case isTrue outside => exact go_phase_of_ne (fun same => inside (same ▸ outside))
        · rfl
      | advance q => exact advance_phase_of_ne (fun same => first (congrArg Request.advance same))
    rw [ih (by rw [same]; exact inside) later ran,same]

theorem readLoad_returns {seq : BitVec 32} (loads : s.phase p = .readLoad) (returns : (advance s p).phase p = .reading seq) :
    s.sl.sequence &&& 1 = 0 ∧ seq = s.sl.sequence ∧ advance s p = s.go p s.sl (.reading seq) := by
  rw [SeqLock.advance,loads] at returns ⊢
  by_cases odd : s.sl.sequence &&& 1 ≠ 0
  · rw [if_pos odd,loads] at returns
    cases returns
  · rw [if_neg odd] at returns
    cases (update_self ..).symm.trans returns
    exact ⟨not_not.mp odd,rfl,if_neg odd⟩

/-- A reader that has returned from `seqlock_read_begin` makes the load of `seqlock_read_retry` next. If that
    returns 0, and fewer than 2^31 write sections have begun since, none was active at any point between
    the two loads. -/
theorem seqlock_read_quiet (before between : List (Request Thread)) (p : Thread) (seq : BitVec 32) (s t : State Thread)
    (ran : run step start before = some s) (loads : s.phase p = .readLoad) (returns : (advance s p).phase p = .reading seq)
    (on : run step (advance s p) between = some t) (own : .advance p ∉ between) (few : t.begun < s.begun + 2^31) :
    t.phase p = .reading seq ∧ (seqlockReadRetry t.sl seq = 0 →
      ∀ part, part <+: between → ∃ u, run step (advance s p) part = some u ∧ Quiet u) := by
  obtain ⟨even,value,same⟩ := readLoad_returns loads returns
  obtain ⟨_,again,inv⟩ := run_always step_inv before start start_inv
  cases ran.symm.trans again
  refine ⟨(run_stays between (by rw [returns]; nofun) own on).trans returns,fun zero part ⟨rest,split⟩ => ?_⟩
  -- the state after a part of the steps lies between the two loads
  obtain ⟨u,first,middle⟩ := run_always step_inv part (advance s p) (inv.advance p)
  obtain ⟨_,second,last⟩ := run_always step_inv rest u middle
  have whole := run_append first second
  rw [split] at whole
  cases on.symm.trans whole
  have equal : s.sl.sequence = t.sl.sequence := by
    by_contra different
    rw [seqlockReadRetry,value,if_pos different] at zero
    cases zero
  have balanced := inv.even even
  have start : (advance s p).begun = s.begun ∧ (advance s p).ended = s.ended := by
    rw [same]
    exact ⟨rfl,rfl⟩
  have early := run_grows part first
  have late := run_grows rest second
  have all : Grows s t :=
    ⟨start.1 ▸ Nat.le_trans early.begun late.begun,start.2 ▸ Nat.le_trans early.ended late.ended⟩
  obtain ⟨begun,ended⟩ := inv.unchanged last all balanced few equal
  refine ⟨u,first,middle.idle ?_⟩
  have := early.begun
  have := early.ended
  have := late.begun
  have := late.ended
  omega

end

def someBefore : List (Request (Fin 2)) := .write 0 :: List.replicate 6 (.advance 0) ++ [.read 1]

def someBetween : List (Request (Fin 2)) := [.write 0,.advance 0,.advance 0]

theorem seqlock_read_quiet_of_two :
    (someBetween.foldl next (advance (someBefore.foldl next start) 1)).phase 1 = .reading 2 ∧
      ∀ part, part <+: someBetween → ∃ u, run step (advance (someBefore.foldl next start) 1) part = some u ∧ Quiet u := by
  have read := seqlock_read_quiet someBefore someBetween 1 2 (someBefore.foldl next start)
    (someBetween.foldl next (advance (someBefore.foldl next start) 1)) rfl rfl rfl rfl nofun (by decide)
  exact ⟨read.1,read.2 (by decide)⟩

end Kenux.SeqLock
