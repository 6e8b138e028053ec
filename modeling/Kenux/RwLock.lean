import Mathlib.Algebra.BigOperators.Group.Finset.Piecewise
import Kenux.Slots

/-!
The reader-writer lock of `spinlock.h`. Every load, every store and every atomic
operation of its functions is a step of its own, and threads take their steps in
any order. `readers++` is a load and a store, and the store puts back a count that a
reader's unlock, which does not take the `guard`, has subtracted from in between
(`rwlock_read_unlock_lost`). `rwlock_run_sound` proves the exclusion and the exact
count in all runs in which no such subtraction happens and the count fits.
-/
namespace Kenux.RwLock
open Kenux.Runs

/-- `rwlock_t`; `guard` is the word of its spinlock. -/
structure Rw where
  readers : BitVec 32
  writer : BitVec 32
  guard : BitVec 32

def rwlockInit : Rw := ⟨0,0,0⟩

def int32Max : BitVec 32 := 2147483647

inductive Mode where
  | read
  | write
  deriving DecidableEq, Repr

/-- The next access of a thread. The loops of the two functions wait with `readWait`, and with
    `writeWaitReaders` and `writeWaitWriter`; `spinLock` and `spinWait` are the two loops of
    `spin_lock`; what follows up to `spinUnlock` is under the guard. -/
inductive Phase where
  | outside
  | readWait
  | writeWaitReaders
  | writeWaitWriter
  | spinLock (mode : Mode)
  | spinWait (mode : Mode)
  | readTest
  | readLoad
  | readStore (loaded : BitVec 32)
  | writeTestReaders
  | writeTestWriter
  | writeStore
  | spinUnlock (mode : Mode) (granted : Bool)
  | holds (mode : Mode)
  deriving DecidableEq, Repr

/-- The first access of `rwlock_read_lock` and `rwlock_write_lock`. -/
def Mode.entry : Mode → Phase
  | .read => .readWait
  | .write => .writeWaitReaders

/-- Their first access under the guard. -/
def Mode.guarded : Mode → Phase
  | .read => .readTest
  | .write => .writeTestReaders

structure State (Thread : Type) where
  rw : Rw
  phase : Thread → Phase

section
variable {Thread : Type}
  {phase new old : Phase} {mode : Mode}

def start : State Thread := ⟨rwlockInit,fun _ => .outside⟩

def State.go [DecidableEq Thread] (s : State Thread) (p : Thread) (rw : Rw) (phase : Phase) : State Thread :=
  ⟨rw,Function.update s.phase p phase⟩

/-- The next access of a thread that is inside a call or holds the lock; one that holds it releases it.
    The increment of the largest count is undefined. -/
def advance [DecidableEq Thread] (s : State Thread) (p : Thread) : Option (State Thread) :=
  match s.phase p with
  | .outside => some s
  | .readWait => if s.rw.writer ≠ 0 then some s else some (s.go p s.rw (.spinLock .read))
  | .writeWaitReaders => if s.rw.readers ≠ 0 then some s else some (s.go p s.rw .writeWaitWriter)
  | .writeWaitWriter =>
    if s.rw.writer ≠ 0 then some (s.go p s.rw .writeWaitReaders) else some (s.go p s.rw (.spinLock .write))
  | .spinLock mode =>
    if s.rw.guard ≠ 0 then some (s.go p { s.rw with guard := 1 } (.spinWait mode))
    else some (s.go p { s.rw with guard := 1 } mode.guarded)
  | .spinWait mode => if s.rw.guard ≠ 0 then some s else some (s.go p s.rw (.spinLock mode))
  | .readTest =>
    if s.rw.writer ≠ 0 then some (s.go p s.rw (.spinUnlock .read false)) else some (s.go p s.rw .readLoad)
  | .readLoad => some (s.go p s.rw (.readStore s.rw.readers))
  | .readStore loaded =>
    if loaded = int32Max then none
    else some (s.go p { s.rw with readers := loaded + 1 } (.spinUnlock .read true))
  | .writeTestReaders =>
    if s.rw.readers ≠ 0 then some (s.go p s.rw (.spinUnlock .write false)) else some (s.go p s.rw .writeTestWriter)
  | .writeTestWriter =>
    if s.rw.writer ≠ 0 then some (s.go p s.rw (.spinUnlock .write false)) else some (s.go p s.rw .writeStore)
  | .writeStore => some (s.go p { s.rw with writer := 1 } (.spinUnlock .write true))
  | .spinUnlock mode granted =>
    some (s.go p { s.rw with guard := 0 } (if granted then .holds mode else mode.entry))
  | .holds .read => some (s.go p { s.rw with readers := s.rw.readers - 1 } .outside)
  | .holds .write => some (s.go p { s.rw with writer := 0 } .outside)

/-- A thread that is outside calls one of the locking functions, or a thread makes its next access. -/
inductive Request (Thread : Type) where
  | lock (p : Thread) (mode : Mode)
  | advance (p : Thread)

def step [DecidableEq Thread] (s : State Thread) : Request Thread → Option (State Thread)
  | .lock p mode => if s.phase p = .outside then some (s.go p s.rw mode.entry) else some s
  | .advance p => advance s p

/-- Between the load and the store of `readers++`. -/
def Phase.increments : Phase → Bool
  | .readStore _ => true
  | _ => false

/-- No reader is subtracted while another thread is between the load and the store of its increment, and
    the count that is loaded can be incremented. -/
def Meets (s : State Thread) : Request Thread → Prop
  | .lock _ _ => True
  | .advance p =>
    (s.phase p = .holds .read → ∀ q, (s.phase q).increments = false) ∧
      (s.phase p = .readLoad → s.rw.readers ≠ int32Max)

def holders [Fintype Thread] (s : State Thread) : Nat := (Finset.univ.filter (fun p => s.phase p = .holds .read)).card

/-- Every thread is between calls. -/
def Quiet (s : State Thread) : Prop := ∀ p, s.phase p = .outside ∨ ∃ mode, s.phase p = .holds mode

/-- Whoever holds the lock for writing holds it alone, and between calls the count is that of the readers. -/
structure Sound [Fintype Thread] (s : State Thread) : Prop where
  exclusive : ∀ p q mode, s.phase p = .holds .write → s.phase q = .holds mode → p = q
  counted : Quiet s → s.rw.readers.toInt = holders s

/-- Between the test and set of the guard and its release. -/
def Phase.guards : Phase → Bool
  | .readTest | .readLoad | .readStore _ | .writeTestReaders | .writeTestWriter | .writeStore | .spinUnlock .. => true
  | _ => false

/-- Counted in `readers`. -/
def Phase.reads : Phase → Bool
  | .spinUnlock .read true | .holds .read => true
  | _ => false

/-- Has set `writer`. -/
def Phase.writes : Phase → Bool
  | .spinUnlock .write true | .holds .write => true
  | _ => false

/-- Has found `writer` to be 0 under the guard. -/
def Phase.noWriter : Phase → Bool
  | .readLoad | .readStore _ | .writeStore => true
  | _ => false

/-- Has found `readers` to be 0 under the guard. -/
def Phase.noReader : Phase → Bool
  | .writeTestWriter | .writeStore => true
  | _ => false

/-- What the phase of a thread says about that of another. -/
structure Apart (a b : Phase) : Prop where
  guards : a.guards → b.guards = false
  writes : a.writes → b.writes = false ∧ b.reads = false
  noWriter : a.noWriter → b.writes = false
  noReader : a.noReader → b.reads = false

/-- What a thread's phase says about the lock. -/
structure Fits (rw : Rw) (phase : Phase) : Prop where
  guards : phase.guards → rw.guard ≠ 0
  writes : phase.writes → rw.writer ≠ 0
  loaded : ∀ loaded, phase = .readStore loaded → loaded = rw.readers ∧ loaded ≠ int32Max

structure Inv [Fintype Thread] (s : State Thread) : Prop where
  counted : s.rw.readers.toNat = ∑ p, (s.phase p).reads.toNat
  small : s.rw.readers.toNat < 2^31
  fits : ∀ p, Fits s.rw (s.phase p)
  apart : ∀ p q, p ≠ q → Apart (s.phase p) (s.phase q)

variable [Fintype Thread] {s : State Thread} {p : Thread}

theorem start_inv : Inv (start : State Thread) where
  counted := by simp [start,rwlockInit,Phase.reads]
  small := by simp [start,rwlockInit]
  fits _ := ⟨nofun,nofun,nofun⟩
  apart _ _ _ := ⟨nofun,nofun,nofun,nofun⟩

theorem Phase.guards_of_noWriter (none : phase.noWriter) : phase.guards := by
  cases phase <;> first | rfl | cases none

theorem Phase.guards_of_noReader (none : phase.noReader) : phase.guards := by
  cases phase <;> first | rfl | cases none

section
variable (inv : Inv s)
include inv

theorem Inv.nobody (zero : s.rw.readers = 0) (q : Thread) : (s.phase q).reads = false := by
  have none := inv.counted
  rw [zero] at none
  simpa using Finset.sum_eq_zero_iff.mp none.symm q (Finset.mem_univ q)

theorem Inv.positive (reads : (s.phase p).reads) : 0 < s.rw.readers.toNat := by
  refine Nat.pos_of_ne_zero (fun zero => ?_)
  have nobody := inv.nobody (BitVec.eq_of_toNat_eq zero) p
  rw [nobody] at reads
  cases reads

theorem Inv.unwritten (zero : s.rw.writer = 0) (q : Thread) : (s.phase q).writes = false :=
  Bool.eq_false_iff.mpr (fun writes => (inv.fits q).writes writes zero)

theorem Inv.unguarded (zero : s.rw.guard = 0) (q : Thread) : (s.phase q).guards = false :=
  Bool.eq_false_iff.mpr (fun guards => (inv.fits q).guards guards zero)

theorem Inv.sound : Sound s where
  exclusive p q mode writes holds := by
    by_contra other
    have apart := (inv.apart p q other).writes (by rw [writes]; rfl)
    rw [holds] at apart
    cases mode with
    | read => cases apart.2
    | write => cases apart.1
  counted quiet := by
    have small := inv.small
    have same : s.rw.readers.toNat = holders s := by
      rw [inv.counted,holders,Finset.card_filter]
      refine Finset.sum_congr rfl (fun p _ => ?_)
      rcases quiet p with outside | ⟨mode,holds⟩
      · simp [outside,Phase.reads]
      · cases mode <;> simp [holds,Phase.reads]
    rw [BitVec.toInt_eq_toNat_of_lt (by omega),same]

theorem Inv.fits_guard (q : Thread) : Fits { s.rw with guard := 1 } (s.phase q) where
  guards _ := by simp
  writes := (inv.fits q).writes
  loaded := (inv.fits q).loaded

end

variable [DecidableEq Thread]

/-- The phase of a thread that claims nothing. -/
structure Idle (phase : Phase) : Prop where
  guards : phase.guards = false
  reads : phase.reads = false
  writes : phase.writes = false

theorem Idle.fits (idle : Idle phase) (rw : Rw) : Fits rw phase := by
  refine ⟨?_,?_,?_⟩
  · simp [idle.guards]
  · simp [idle.writes]
  · rintro loaded rfl
    cases idle.guards

theorem Idle.apart {a : Phase} (idle : Idle a) (b : Phase) : Apart a b ∧ Apart b a := by
  have noWriter : a.noWriter = false := Bool.eq_false_iff.mpr (fun none => by
    have := Phase.guards_of_noWriter none
    simp [idle.guards] at this)
  have noReader : a.noReader = false := Bool.eq_false_iff.mpr (fun none => by
    have := Phase.guards_of_noReader none
    simp [idle.guards] at this)
  constructor
  · constructor <;> simp [idle.guards,idle.writes,noWriter,noReader]
  · constructor <;> simp [idle.guards,idle.writes,idle.reads]

theorem Mode.entry_idle (mode : Mode) : Idle mode.entry := by cases mode <;> exact ⟨rfl,rfl,rfl⟩

private theorem outside_idle : Idle .outside := ⟨rfl,rfl,rfl⟩

section
variable (inv : Inv s)
include inv

/-- The invariant after one thread's access, from what it means for the others. -/
theorem Inv.go {rw : Rw}
    (counted : rw.readers.toNat + (s.phase p).reads.toNat = s.rw.readers.toNat + new.reads.toNat)
    (small : rw.readers.toNat < 2^31) (fits : Fits rw new) (others : ∀ q, q ≠ p → Fits rw (s.phase q))
    (apart : ∀ q, q ≠ p → Apart new (s.phase q) ∧ Apart (s.phase q) new) : Inv (s.go p rw new) where
  counted := by
    have change := Slots.sum_update s.phase (fun phase => phase.reads.toNat) p new
    have before := inv.counted
    dsimp only [State.go]
    omega
  small := small
  fits q := by
    dsimp only [State.go]
    exact update_cases fits others q
  apart q r different := by
    dsimp only [State.go]
    induction q using update_cases with
    | here =>
      rw [Function.update_of_ne different.symm]
      exact (apart r different.symm).1
    | others q other => exact update_cases (fun _ => (apart q other).2) (fun r _ => inv.apart q r) r different

/-- An access that leaves the lock alone, to a phase that claims no more than the old one but for what was just read. -/
theorem Inv.quiet (phase : s.phase p = old) (guards : new.guards = old.guards)
    (reads : new.reads = old.reads) (writes : new.writes = old.writes) (noWriter : new.noWriter → old.noWriter ∨ s.rw.writer = 0)
    (noReader : new.noReader → old.noReader ∨ s.rw.readers = 0)
    (loaded : ∀ loaded, new = .readStore loaded → loaded = s.rw.readers ∧ loaded ≠ int32Max) : Inv (s.go p s.rw new) := by
  subst phase
  refine inv.go (by rw [reads]) inv.small ⟨?_,?_,loaded⟩ (fun q _ => inv.fits q) (fun q other => ?_)
  · rw [guards]
    exact (inv.fits p).guards
  · rw [writes]
    exact (inv.fits p).writes
  · have here := inv.apart p q other.symm
    have there := inv.apart q p other
    refine ⟨⟨?_,?_,?_,?_⟩,⟨?_,?_,?_,?_⟩⟩
    · rw [guards]
      exact here.guards
    · rw [writes]
      exact here.writes
    · intro none
      rcases noWriter none with before | zero
      · exact here.noWriter before
      · exact inv.unwritten zero q
    · intro none
      rcases noReader none with before | zero
      · exact here.noReader before
      · exact inv.nobody zero q
    · rw [guards]
      exact there.guards
    · rw [writes,reads]
      exact there.writes
    · rw [writes]
      exact there.noWriter
    · rw [reads]
      exact there.noReader

theorem Inv.wait (phase : s.phase p = old) (before : Idle old) (after : Idle new) :
    Inv (s.go p s.rw new) :=
  inv.go (by rw [phase,before.reads,after.reads]) inv.small (after.fits s.rw) (fun q _ => inv.fits q)
    (fun q _ => after.apart (s.phase q))

theorem Inv.missGuard (phase : s.phase p = .spinLock mode) :
    Inv (s.go p { s.rw with guard := 1 } (.spinWait mode)) := by
  have idle : Idle (.spinWait mode) := ⟨rfl,rfl,rfl⟩
  exact inv.go (by rw [phase]; rfl) inv.small (idle.fits _) (fun q _ => inv.fits_guard q) (fun q _ => idle.apart (s.phase q))

theorem Inv.takeGuard (phase : s.phase p = .spinLock mode) (free : s.rw.guard = 0) :
    Inv (s.go p { s.rw with guard := 1 } mode.guarded) := by
  have alone := inv.unguarded free
  have reads : mode.guarded.reads = false := by cases mode <;> rfl
  have writes : mode.guarded.writes = false := by cases mode <;> rfl
  have noWriter : mode.guarded.noWriter = false := by cases mode <;> rfl
  have noReader : mode.guarded.noReader = false := by cases mode <;> rfl
  have loads : ∀ loaded, mode.guarded ≠ .readStore loaded := by cases mode <;> nofun
  refine inv.go (by rw [phase,reads]; rfl) inv.small ⟨fun _ => by simp,by simp [writes],fun loaded same => absurd same (loads loaded)⟩
    (fun q _ => inv.fits_guard q) (fun q other => ?_)
  constructor
  · constructor <;> simp [alone q,writes,noWriter,noReader]
  · constructor <;> simp [alone q,writes,reads]

/-- The store of the increment: under the guard nobody has set `writer`, and nobody relies on there being no reader. -/
theorem Inv.addReader {loaded : BitVec 32} (phase : s.phase p = .readStore loaded) :
    Inv (s.go p { s.rw with readers := loaded + 1 } (.spinUnlock .read true)) := by
  obtain ⟨rfl,less⟩ := (inv.fits p).loaded loaded phase
  have small := inv.small
  have room : s.rw.readers.toNat + 1 < 2^31 := by
    have : s.rw.readers.toNat ≠ 2147483647 := fun same => less (BitVec.eq_of_toNat_eq same)
    omega
  have one : (s.rw.readers + 1).toNat = s.rw.readers.toNat + 1 := BitVec.toNat_add_of_lt (by simp; omega)
  have guards : (s.phase p).guards := by rw [phase]; rfl
  refine inv.go (by rw [phase]; exact one) (by rw [one]; exact room) ⟨fun _ => (inv.fits p).guards guards,nofun,nofun⟩ ?_ ?_
  · intro q other
    have free := (inv.apart p q other.symm).guards guards
    refine ⟨(inv.fits q).guards,(inv.fits q).writes,fun loaded same => ?_⟩
    rw [same] at free
    cases free
  · intro q other
    have here := inv.apart p q other.symm
    have free := here.guards guards
    have unwritten := here.noWriter (by rw [phase]; rfl)
    constructor
    · exact ⟨fun _ => free,nofun,nofun,nofun⟩
    · constructor
      · simp [free]
      · simp [unwritten]
      · exact fun _ => rfl
      · intro none
        have := Phase.guards_of_noReader none
        simp [free] at this

/-- The store of `writer`: under the guard nobody is counted or has set it, and nobody relies on there being no writer. -/
theorem Inv.setWriter (phase : s.phase p = .writeStore) :
    Inv (s.go p { s.rw with writer := 1 } (.spinUnlock .write true)) := by
  have guards : (s.phase p).guards := by rw [phase]; rfl
  refine inv.go (by rw [phase]; rfl) inv.small ⟨fun _ => (inv.fits p).guards guards,fun _ => by simp,nofun⟩ ?_ ?_
  · intro q _
    exact ⟨(inv.fits q).guards,fun _ => by simp,(inv.fits q).loaded⟩
  · intro q other
    have here := inv.apart p q other.symm
    have free := here.guards guards
    have unwritten := here.noWriter (by rw [phase]; rfl)
    have unread := here.noReader (by rw [phase]; rfl)
    constructor
    · exact ⟨fun _ => free,fun _ => ⟨unwritten,unread⟩,nofun,nofun⟩
    · constructor
      · simp [free]
      · simp [unwritten]
      · intro none
        have := Phase.guards_of_noWriter none
        simp [free] at this
      · exact fun _ => rfl

theorem Inv.dropGuard {granted : Bool} (phase : s.phase p = .spinUnlock mode granted) :
    Inv (s.go p { s.rw with guard := 0 } (if granted then .holds mode else mode.entry)) := by
  have guards : (s.phase p).guards := by rw [phase]; rfl
  have alone : ∀ q, q ≠ p → (s.phase q).guards = false := fun q other => (inv.apart p q other.symm).guards guards
  have others : ∀ q, q ≠ p → Fits { s.rw with guard := 0 } (s.phase q) := fun q other =>
    ⟨by simp [alone q other],(inv.fits q).writes,(inv.fits q).loaded⟩
  have writes := (inv.fits p).writes
  rw [phase] at writes
  cases granted with
  | false =>
    have idle := mode.entry_idle
    refine inv.go ?_ inv.small (idle.fits _) others (fun q _ => idle.apart (s.phase q))
    rw [phase]
    cases mode <;> rfl
  | true =>
    refine inv.go ?_ inv.small ⟨?_,?_,nofun⟩ others (fun q other => ?_)
    · rw [phase]
      cases mode <;> rfl
    · cases mode <;> nofun
    · cases mode with
      | read => nofun
      | write => exact fun _ => writes rfl
    · have here := inv.apart p q other.symm
      have there := inv.apart q p other
      rw [phase] at here there
      cases mode with
      | read => exact ⟨⟨nofun,nofun,nofun,nofun⟩,⟨fun _ => rfl,there.writes,there.noWriter,there.noReader⟩⟩
      | write => exact ⟨⟨nofun,here.writes,nofun,nofun⟩,⟨fun _ => rfl,there.writes,there.noWriter,there.noReader⟩⟩

theorem Inv.readUnlock (phase : s.phase p = .holds .read) (nobody : ∀ q, (s.phase q).increments = false) :
    Inv (s.go p { s.rw with readers := s.rw.readers - 1 } .outside) := by
  have small := inv.small
  have positive := inv.positive (p := p) (by rw [phase]; rfl)
  have one : (s.rw.readers - 1).toNat + 1 = s.rw.readers.toNat := by
    rw [BitVec.toNat_sub_of_le (by rw [BitVec.le_def]; exact positive)]
    exact Nat.sub_add_cancel positive
  refine inv.go ?_ (by dsimp only; omega) (outside_idle.fits _) (fun q _ => ?_) (fun q _ => outside_idle.apart (s.phase q))
  · rw [phase]
    exact one
  · refine ⟨(inv.fits q).guards,(inv.fits q).writes,fun loaded same => ?_⟩
    have not := nobody q
    rw [same] at not
    cases not

theorem Inv.writeUnlock (phase : s.phase p = .holds .write) :
    Inv (s.go p { s.rw with writer := 0 } .outside) := by
  refine inv.go ?_ inv.small (outside_idle.fits _) (fun q other => ?_) (fun q _ => outside_idle.apart (s.phase q))
  · rw [phase]
    rfl
  · have unwritten := ((inv.apart p q other.symm).writes (by rw [phase]; rfl)).1
    exact ⟨(inv.fits q).guards,by simp [unwritten],(inv.fits q).loaded⟩

theorem Inv.advance (meets : Meets s (.advance p)) : ∃ t, advance s p = some t ∧ Inv t := by
  rw [RwLock.advance]
  cases phase : s.phase p with dsimp only
  | outside => exact ⟨s,rfl,inv⟩
  | readWait =>
    split
    · exact ⟨s,rfl,inv⟩
    · exact ⟨_,rfl,inv.wait phase ⟨rfl,rfl,rfl⟩ ⟨rfl,rfl,rfl⟩⟩
  | writeWaitReaders =>
    split
    · exact ⟨s,rfl,inv⟩
    · exact ⟨_,rfl,inv.wait phase ⟨rfl,rfl,rfl⟩ ⟨rfl,rfl,rfl⟩⟩
  | writeWaitWriter =>
    split
    · exact ⟨_,rfl,inv.wait phase ⟨rfl,rfl,rfl⟩ ⟨rfl,rfl,rfl⟩⟩
    · exact ⟨_,rfl,inv.wait phase ⟨rfl,rfl,rfl⟩ ⟨rfl,rfl,rfl⟩⟩
  | spinLock mode =>
    split
    · exact ⟨_,rfl,inv.missGuard phase⟩
    next free => exact ⟨_,rfl,inv.takeGuard phase (not_not.mp free)⟩
  | spinWait mode =>
    split
    · exact ⟨s,rfl,inv⟩
    · exact ⟨_,rfl,inv.wait phase ⟨rfl,rfl,rfl⟩ ⟨rfl,rfl,rfl⟩⟩
  | readTest =>
    split
    · exact ⟨_,rfl,inv.quiet phase rfl rfl rfl nofun nofun nofun⟩
    next free => exact ⟨_,rfl,inv.quiet phase rfl rfl rfl (fun _ => .inr (not_not.mp free)) nofun nofun⟩
  | readLoad =>
    refine ⟨_,rfl,inv.quiet phase rfl rfl rfl (fun _ => .inl rfl) nofun ?_⟩
    rintro loaded ⟨⟩
    exact ⟨rfl,meets.2 phase⟩
  | readStore loaded =>
    have less := ((inv.fits p).loaded loaded phase).2
    exact ⟨_,if_neg less,inv.addReader phase⟩
  | writeTestReaders =>
    split
    · exact ⟨_,rfl,inv.quiet phase rfl rfl rfl nofun nofun nofun⟩
    next free => exact ⟨_,rfl,inv.quiet phase rfl rfl rfl nofun (fun _ => .inr (not_not.mp free)) nofun⟩
  | writeTestWriter =>
    split
    · exact ⟨_,rfl,inv.quiet phase rfl rfl rfl nofun nofun nofun⟩
    next free => exact ⟨_,rfl,inv.quiet phase rfl rfl rfl (fun _ => .inr (not_not.mp free)) (fun _ => .inl rfl) nofun⟩
  | writeStore => exact ⟨_,rfl,inv.setWriter phase⟩
  | spinUnlock mode granted => exact ⟨_,rfl,inv.dropGuard phase⟩
  | holds mode =>
    cases mode with
    | read => exact ⟨_,rfl,inv.readUnlock phase (meets.1 phase)⟩
    | write => exact ⟨_,rfl,inv.writeUnlock phase⟩

end

theorem inv_step (request : Request Thread) (inv : Inv s) (meets : Meets s request) : ∃ t, step s request = some t ∧ Inv t := by
  cases request with
  | lock p mode =>
    by_cases outside : s.phase p = .outside
    · exact ⟨_,if_pos outside,inv.wait outside outside_idle mode.entry_idle⟩
    · exact ⟨s,if_neg outside,inv⟩
  | advance p => exact inv.advance meets

/-- In every run that meets the condition writers are alone, and between calls the count is that of the readers. -/
theorem rwlock_run_sound (requests : List (Request Thread)) (guarded : Guarded step Meets start requests) :
    ∃ s, run step start requests = some s ∧ Sound s := by
  obtain ⟨s,ran,inv⟩ := run_invariant (fun s request inv meets => inv_step request inv meets) requests start start_inv guarded
  exact ⟨s,ran,inv.sound⟩

instance (s : State Thread) : ∀ request, Decidable (Meets s request)
  | .lock _ _ => inferInstanceAs (Decidable True)
  | .advance _ => inferInstanceAs (Decidable (_ ∧ _))

end

def readLock (p : Fin 2) : List (Request (Fin 2)) := .lock p .read :: List.replicate 6 (.advance p)

def someRun : List (Request (Fin 2)) :=
  readLock 0 ++ readLock 1 ++ [.advance 0,.lock 0 .write,.advance 0,.advance 1] ++ List.replicate 7 (.advance 0)

theorem rwlock_run_sound_of_two : ∃ s, run step (start : State (Fin 2)) someRun = some s ∧ Sound s :=
  rwlock_run_sound someRun (by decide +kernel)

def lost : List (Request (Fin 2)) :=
  readLock 0 ++ .lock 1 .read :: List.replicate 4 (.advance 1) ++ [.advance 0,.advance 1,.advance 1]

/-- Then one thread holds the lock for reading and two are counted, and when it has left one is still counted. -/
theorem rwlock_read_unlock_lost :
    (run step start lost).map (fun s => (s.rw.readers,s.phase 0,s.phase 1)) = some (2,.outside,.holds .read) ∧
      (run step start (lost ++ [.advance 1])).map (fun s => (s.rw.readers,s.phase 0,s.phase 1)) =
        some (1,.outside,.outside) := by
  decide +kernel

end Kenux.RwLock
