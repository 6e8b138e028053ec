import Kenux.Slots
import Mathlib.Algebra.BigOperators.Fin

/-!
Sleepable read-copy-update (`rcu.c`). A reader publishes its index in one global variable,
from which `srcu_read_unlock` takes the index to count down. Each section under the lock,
each access to that variable and each test of the waiting loop is a step. `srcu_run_sound`
proves that the counts are those of the readers inside and that no call of
`srcu_synchronize` has returned before a reader that it had to wait for, in the runs in
which a reader that leaves finds its own index and a call begins with the other count at
zero; `srcu_synchronize_passes` breaks each of the two.
-/
namespace Kenux.Srcu
open Kenux.Runs
open Function (update update_self update_of_ne)

structure Sp where
  idx : Fin 2
  readers : Fin 2 → BitVec 64

def srcuInit : Sp := ⟨0,fun _ => 0⟩

def flip (i : Fin 2) : Fin 2 := 1 - i

def Sp.add (sp : Sp) (i : Fin 2) : Sp := { sp with readers := update sp.readers i (sp.readers i + 1) }

def Sp.drop (sp : Sp) (i : Fin 2) : Sp :=
  if 0 < (sp.readers i).toNat then { sp with readers := update sp.readers i (sp.readers i - 1) } else sp

section
variable {Key Writer : Type}

/-- A reader's stay inside: the structure, the index it was counted under, and when it entered. -/
structure Stay (Key : Type) where
  key : Key
  idx : Fin 2
  since : Nat
deriving DecidableEq

/-- Where a reader is: counted and not yet published, inside, or leaving with the index it read. -/
inductive Phase (Key : Type) where
  | outside
  | entered (stay : Stay Key)
  | inside (stay : Stay Key)
  | leaving (stay : Stay Key) (idx : Fin 2)
deriving DecidableEq

def Phase.stay : Phase Key → Option (Stay Key)
  | .outside => none
  | .entered stay => some stay
  | .inside stay => some stay
  | .leaving stay _ => some stay

/-- A call of `srcu_synchronize` and the moment it began: in its loop on the old index, or returned. -/
inductive Call (Key : Type) where
  | none
  | waits (key : Key) (idx : Fin 2) (began : Nat)
  | done (key : Key) (began : Nat)
deriving DecidableEq

structure State (Key Writer : Type) (n : Nat) where
  sp : Key → Sp
  readIdx : Fin 2
  phase : Fin n → Phase Key
  call : Writer → Call Key
  clock : Nat

/-- The steps: `srcu_read_lock` counts and publishes, `srcu_read_unlock` reads the index and counts down,
    `srcu_synchronize` turns the index and tests the old count. -/
inductive Request (Key Writer : Type) (n : Nat) where
  | srcuReadLock (reader : Fin n) (key : Key)
  | publish (reader : Fin n)
  | srcuReadUnlock (reader : Fin n)
  | countDown (reader : Fin n)
  | srcuSynchronize (writer : Writer) (key : Key)
  | test (writer : Writer)

variable {n : Nat}

def start : State Key Writer n := ⟨fun _ => srcuInit,0,fun _ => .outside,fun _ => .none,0⟩

def State.setPhase (s : State Key Writer n) (reader : Fin n) (phase : Phase Key) : State Key Writer n :=
  { s with phase := update s.phase reader phase }

variable [DecidableEq Key]

def State.setSp (s : State Key Writer n) (key : Key) (sp : Sp) : State Key Writer n :=
  { s with sp := update s.sp key sp }

def State.setCall [DecidableEq Writer] (s : State Key Writer n) (writer : Writer) (call : Call Key) : State Key Writer n :=
  { s with call := update s.call writer call }

def srcuReadLock (reader : Fin n) (key : Key) (s : State Key Writer n) : State Key Writer n :=
  match s.phase reader with
  | .outside =>
    let idx := (s.sp key).idx
    { (s.setSp key ((s.sp key).add idx)).setPhase reader (.entered ⟨key,idx,s.clock⟩) with clock := s.clock + 1 }
  | _ => s

def publish (reader : Fin n) (s : State Key Writer n) : State Key Writer n :=
  match s.phase reader with
  | .entered stay => { s.setPhase reader (.inside stay) with readIdx := stay.idx }
  | _ => s

def srcuReadUnlock (reader : Fin n) (s : State Key Writer n) : State Key Writer n :=
  match s.phase reader with
  | .inside stay => s.setPhase reader (.leaving stay s.readIdx)
  | _ => s

def countDown (reader : Fin n) (s : State Key Writer n) : State Key Writer n :=
  match s.phase reader with
  | .leaving stay idx => (s.setSp stay.key ((s.sp stay.key).drop idx)).setPhase reader .outside
  | _ => s

def srcuSynchronize [DecidableEq Writer] (writer : Writer) (key : Key) (s : State Key Writer n) : State Key Writer n :=
  match s.call writer with
  | .waits _ _ _ => s
  | _ =>
    let idx := (s.sp key).idx
    (s.setSp key { s.sp key with idx := flip idx }).setCall writer (.waits key idx s.clock)

/-- One test of the loop; the call stays in it while the old count is not zero. -/
def test [DecidableEq Writer] (writer : Writer) (s : State Key Writer n) : State Key Writer n :=
  match s.call writer with
  | .waits key idx began => if 0 < ((s.sp key).readers idx).toNat then s else s.setCall writer (.done key began)
  | _ => s

def step [DecidableEq Writer] (s : State Key Writer n) : Request Key Writer n → Option (State Key Writer n)
  | .srcuReadLock reader key => some (srcuReadLock reader key s)
  | .publish reader => some (publish reader s)
  | .srcuReadUnlock reader => some (srcuReadUnlock reader s)
  | .countDown reader => some (countDown reader s)
  | .srcuSynchronize writer key => some (srcuSynchronize writer key s)
  | .test writer => some (test writer s)

/-- The count has room for one reader more; a reader that leaves finds its own index in the global variable;
    the index that a call of `srcu_synchronize` turns to counts nobody. -/
def Meets (s : State Key Writer n) : Request Key Writer n → Prop
  | .srcuReadLock _ key => ((s.sp key).readers (s.sp key).idx).toNat + 1 < 2 ^ 64
  | .srcuReadUnlock reader => ∀ stay ∈ (s.phase reader).stay, s.readIdx = stay.idx
  | .srcuSynchronize _ key => (s.sp key).readers (flip (s.sp key).idx) = 0
  | _ => True

instance (s : State Key Writer n) : ∀ a, Decidable (Meets s a)
  | .srcuReadLock .. => inferInstanceAs (Decidable (_ < _))
  | .srcuReadUnlock reader => inferInstanceAs (Decidable (∀ stay ∈ (s.phase reader).stay, _))
  | .srcuSynchronize .. => inferInstanceAs (Decidable (_ = _))
  | .publish _ | .countDown _ | .test _ => .isTrue trivial

/-- No call of `srcu_synchronize` has returned while a reader of the structure is still inside that entered before
    the call began, and the counts of a structure with no reader inside are zero. -/
structure Sound (s : State Key Writer n) : Prop where
  waited : ∀ writer key began, s.call writer = .done key began → ∀ reader, ∀ stay ∈ (s.phase reader).stay,
    stay.key = key → began ≤ stay.since
  zero : ∀ key, (∀ reader, ∀ stay ∈ (s.phase reader).stay, stay.key ≠ key) → ∀ i, (s.sp key).readers i = 0

/-- One for a stay that the count of the structure's index counts. -/
def weight (key : Key) (i : Fin 2) : Option (Stay Key) → Nat
  | some stay => if stay.key = key ∧ stay.idx = i then 1 else 0
  | none => 0

/-- The readers counted under an index of a structure. -/
def counted (s : State Key Writer n) (key : Key) (i : Fin 2) : Nat := ∑ reader, weight key i (s.phase reader).stay

structure Inv (s : State Key Writer n) : Prop where
  counts : ∀ key i, ((s.sp key).readers i).toNat = counted s key i
  leaving : ∀ reader stay idx, s.phase reader = .leaving stay idx → idx = stay.idx
  past : ∀ reader, ∀ stay ∈ (s.phase reader).stay, stay.since < s.clock
  waits : ∀ writer key idx began, s.call writer = .waits key idx began → began ≤ s.clock ∧
    ∀ reader, ∀ stay ∈ (s.phase reader).stay, stay.key = key → stay.since < began → stay.idx = idx
  done : ∀ writer key began, s.call writer = .done key began → began ≤ s.clock ∧
    ∀ reader, ∀ stay ∈ (s.phase reader).stay, stay.key = key → began ≤ stay.since

variable {s : State Key Writer n} {i j : Fin 2} {stay : Stay Key} {sp : Key → Sp}

private theorem weight_self (stay : Stay Key) : weight stay.key stay.idx (some stay) = 1 := if_pos ⟨rfl,rfl⟩

theorem Inv.nobody (inv : Inv s) {key : Key} (zero : (s.sp key).readers i = 0) {reader : Fin n}
    (there : (s.phase reader).stay = some stay) (here : stay.key = key) : stay.idx ≠ i := by
  rintro rfl
  subst here
  have none := inv.counts stay.key stay.idx
  rw [zero] at none
  have nothing := Finset.sum_eq_zero_iff.mp none.symm reader (Finset.mem_univ reader)
  rw [there,weight_self] at nothing
  exact absurd nothing Nat.one_ne_zero

theorem Inv.positive (inv : Inv s) {reader : Fin n} (there : (s.phase reader).stay = some stay) :
    0 < ((s.sp stay.key).readers stay.idx).toNat := by
  refine Nat.pos_of_ne_zero (fun zero => ?_)
  exact inv.nobody (BitVec.eq_of_toNat_eq zero) there rfl rfl

theorem readers_elsewhere {key k : Key} {new : Sp}
    (others : ∀ j, j ≠ i → new.readers j = (sp key).readers j) (apart : ¬ (key = k ∧ i = j)) :
    (update sp key new k).readers j = (sp k).readers j := by
  induction k using update_cases with
  | here => exact others j (fun here => apart ⟨rfl,here.symm⟩)
  | others k _ => rfl

theorem add_counts {key : Key} {since : Nat}
    (room : ((sp key).readers i).toNat + 1 < 2 ^ 64) (k : Key) (j : Fin 2) :
    ((update sp key ((sp key).add i) k).readers j).toNat + weight k j none
      = ((sp k).readers j).toNat + weight k j (some ⟨key,i,since⟩) := by
  by_cases same : key = k ∧ i = j
  · obtain ⟨rfl,rfl⟩ := same
    have one : ((sp key).readers i + 1).toNat = ((sp key).readers i).toNat + 1 := BitVec.toNat_add_of_lt room
    simpa [Sp.add,weight] using one
  · rw [readers_elsewhere (fun j other => update_of_ne other ..) same]
    simp [weight,same]

theorem drop_counts (positive : 0 < ((sp stay.key).readers stay.idx).toNat)
    (k : Key) (j : Fin 2) :
    ((update sp stay.key ((sp stay.key).drop stay.idx) k).readers j).toNat + weight k j (some stay)
      = ((sp k).readers j).toNat + weight k j none := by
  rw [Sp.drop,if_pos positive]
  by_cases same : stay.key = k ∧ stay.idx = j
  · obtain ⟨rfl,rfl⟩ := same
    have one : ((sp stay.key).readers stay.idx - 1).toNat + 1 = ((sp stay.key).readers stay.idx).toNat := by
      rw [BitVec.toNat_sub_of_le (by rw [BitVec.le_def]; exact positive)]
      exact Nat.sub_add_cancel positive
    simpa [weight] using one
  · rw [readers_elsewhere (fun j other => update_of_ne other ..) same]
    simp [weight,same]

theorem Inv.sound (inv : Inv s) : Sound s where
  waited writer key began returned := (inv.done writer key began returned).2
  zero key nobody i := by
    apply BitVec.eq_of_toNat_eq
    rw [inv.counts]
    refine Finset.sum_eq_zero (fun reader _ => ?_)
    cases there : (s.phase reader).stay with
    | none => rfl
    | some stay => exact if_neg (fun both => nobody reader stay there both.1)

section
variable (inv : Inv s) (reader : Fin n)
include inv reader

/-- The invariant after one reader's phase changes and the counts with it: its stay is the one it had, or begins now. -/
theorem Inv.change {t : State Key Writer n} (phase : Phase Key)
    (counts : ∀ key i, ((t.sp key).readers i).toNat + weight key i (s.phase reader).stay
      = ((s.sp key).readers i).toNat + weight key i phase.stay)
    (reads : ∀ stay idx, phase = .leaving stay idx → idx = stay.idx)
    (stays : ∀ stay ∈ phase.stay, stay ∈ (s.phase reader).stay ∨ stay.since = s.clock ∧ s.clock < t.clock)
    (phases : t.phase = update s.phase reader phase) (clock : s.clock ≤ t.clock) (call : t.call = s.call) :
    Inv t := by
  have old : ∀ r, ∀ stay ∈ (t.phase r).stay, stay ∈ (s.phase r).stay ∨ stay.since = s.clock ∧ s.clock < t.clock := by
    rw [phases]
    exact update_cases stays (fun _ _ _ => .inl)
  constructor
  case counts =>
    intro key i
    have change := Slots.sum_update s.phase (fun p => weight key i p.stay) reader phase
    have before := inv.counts key i
    have after := counts key i
    rw [counted] at before ⊢
    rw [phases]
    omega
  case leaving =>
    rw [phases]
    exact update_cases reads (fun r _ => inv.leaving r)
  case past =>
    intro r stay there
    rcases old r stay there with was | ⟨now,later⟩
    · exact Nat.lt_of_lt_of_le (inv.past r stay was) clock
    · omega
  case waits =>
    intro writer key idx began waiting
    rw [call] at waiting
    obtain ⟨before,earlier⟩ := inv.waits writer key idx began waiting
    refine ⟨by omega,fun r stay there here early => ?_⟩
    rcases old r stay there with was | ⟨now,_⟩
    · exact earlier r stay was here early
    · omega
  case done =>
    intro writer key began returned
    rw [call] at returned
    obtain ⟨before,earlier⟩ := inv.done writer key began returned
    refine ⟨by omega,fun r stay there here => ?_⟩
    rcases old r stay there with was | ⟨now,_⟩
    · exact earlier r stay was here
    · omega

theorem Inv.srcuReadLock (key : Key)
    (room : ((s.sp key).readers (s.sp key).idx).toNat + 1 < 2 ^ 64) : Inv (srcuReadLock reader key s) := by
  rw [Srcu.srcuReadLock]
  cases here : s.phase reader with
  | outside =>
    refine inv.change reader (.entered ⟨key,(s.sp key).idx,s.clock⟩) ?_ nofun ?_ rfl (Nat.le_succ _) rfl
    · intro k i
      rw [here]
      exact add_counts room k i
    · rintro stay ⟨⟩
      exact .inr ⟨rfl,Nat.lt_succ_self _⟩
  | entered stay | inside stay | leaving stay idx => exact inv

theorem Inv.publish : Inv (publish reader s) := by
  rw [Srcu.publish]
  cases here : s.phase reader with
  | entered stay =>
    have stays : (s.phase reader).stay = some stay := congrArg Phase.stay here
    exact inv.change reader (.inside stay) (fun _ _ => by rw [stays]; rfl) nofun (fun _ same => .inl (by rw [stays]; exact same))
      rfl (Nat.le_refl _) rfl
  | outside | inside stay | leaving stay idx => exact inv

theorem Inv.srcuReadUnlock (own : ∀ stay ∈ (s.phase reader).stay, s.readIdx = stay.idx) : Inv (srcuReadUnlock reader s) := by
  rw [Srcu.srcuReadUnlock]
  cases here : s.phase reader with
  | inside stay =>
    have stays : (s.phase reader).stay = some stay := congrArg Phase.stay here
    refine inv.change reader (.leaving stay s.readIdx) (fun _ _ => by rw [stays]; rfl) ?_
      (fun _ same => .inl (by rw [stays]; exact same)) rfl (Nat.le_refl _) rfl
    rintro x idx ⟨⟩
    exact own stay stays
  | outside | entered stay | leaving stay idx => exact inv

theorem Inv.countDown : Inv (countDown reader s) := by
  rw [Srcu.countDown]
  cases here : s.phase reader with
  | leaving stay idx =>
    cases inv.leaving reader stay idx here
    have stays : (s.phase reader).stay = some stay := congrArg Phase.stay here
    refine inv.change reader .outside ?_ nofun nofun rfl (Nat.le_refl _) rfl
    intro k i
    rw [stays]
    exact drop_counts (inv.positive stays) k i
  | outside | entered stay | inside stay => exact inv

end

theorem start_inv : Inv (start : State Key Writer n) where
  counts key i := by simp [start,srcuInit,counted,Phase.stay,weight]
  leaving := nofun
  past := nofun
  waits := nofun
  done := nofun

private theorem eq_of_ne_flip (other : j ≠ flip i) : j = i := by
  revert i j
  decide

variable [DecidableEq Writer]

theorem Inv.call {t : State Key Writer n} (inv : Inv s) (writer : Writer) (call : Call Key)
    (waits : ∀ key idx began, call = .waits key idx began → began ≤ s.clock ∧
      ∀ reader, ∀ stay ∈ (s.phase reader).stay, stay.key = key → stay.since < began → stay.idx = idx)
    (done : ∀ key began, call = .done key began → began ≤ s.clock ∧
      ∀ reader, ∀ stay ∈ (s.phase reader).stay, stay.key = key → began ≤ stay.since)
    (counts : ∀ key, (t.sp key).readers = (s.sp key).readers) (phases : t.phase = s.phase)
    (clock : t.clock = s.clock) (calls : t.call = update s.call writer call) : Inv t := by
  constructor
  case counts =>
    intro key i
    rw [counts,inv.counts,counted,counted,phases]
  case leaving => rw [phases]; exact inv.leaving
  case past => rw [phases,clock]; exact inv.past
  case waits =>
    rw [calls,phases,clock]
    exact update_cases waits (fun w _ => inv.waits w)
  case done =>
    rw [calls,phases,clock]
    exact update_cases done (fun w _ => inv.done w)

/-- The readers inside are all counted under the index that the call turns away from. -/
theorem Inv.srcuSynchronize (inv : Inv s) (writer : Writer) (key : Key)
    (other : (s.sp key).readers (flip (s.sp key).idx) = 0) : Inv (srcuSynchronize writer key s) := by
  have begins : Inv ((s.setSp key { s.sp key with idx := flip (s.sp key).idx }).setCall writer
      (.waits key (s.sp key).idx s.clock)) := by
    refine inv.call writer (.waits key (s.sp key).idx s.clock) ?_ nofun ?_ rfl rfl rfl
    · rintro k idx began ⟨⟩
      exact ⟨Nat.le_refl _,fun reader stay there here _ => eq_of_ne_flip (inv.nobody other there here)⟩
    · intro k
      dsimp only [State.setSp,State.setCall]
      cases k using update_cases <;> rfl
  rw [Srcu.srcuSynchronize]
  cases s.call writer with
  | none => exact begins
  | waits k idx began => exact inv
  | done k began => exact begins

theorem Inv.test (inv : Inv s) (writer : Writer) : Inv (test writer s) := by
  rw [Srcu.test]
  cases here : s.call writer with
  | none | done k began => exact inv
  | waits key idx began =>
    dsimp only
    split
    · exact inv
    next zero =>
      refine inv.call writer (.done key began) nofun ?_ (fun _ => rfl) rfl rfl rfl
      rintro k b ⟨⟩
      obtain ⟨before,earlier⟩ := inv.waits writer key idx began here
      refine ⟨before,fun reader stay there of_key => Nat.le_of_not_lt (fun early => ?_)⟩
      have nobody : (s.sp key).readers idx = 0 := BitVec.eq_of_toNat_eq (Nat.eq_zero_of_not_pos zero)
      exact inv.nobody nobody there of_key (earlier reader stay there of_key early)

theorem inv_step (a : Request Key Writer n) (inv : Inv s) (meets : Meets s a) : ∃ t, step s a = some t ∧ Inv t := by
  cases a with
  | srcuReadLock reader key => exact ⟨_,rfl,inv.srcuReadLock reader key meets⟩
  | publish reader => exact ⟨_,rfl,inv.publish reader⟩
  | srcuReadUnlock reader => exact ⟨_,rfl,inv.srcuReadUnlock reader meets⟩
  | countDown reader => exact ⟨_,rfl,inv.countDown reader⟩
  | srcuSynchronize writer key => exact ⟨_,rfl,inv.srcuSynchronize writer key meets⟩
  | test writer => exact ⟨_,rfl,inv.test writer⟩

/-- In every run that meets the condition no writer comes back while a reader is inside that entered before its call. -/
theorem srcu_run_sound (requests : List (Request Key Writer n)) (guarded : Guarded step Meets start requests) :
    ∃ s, run step start requests = some s ∧ Sound s := by
  obtain ⟨s,ran,inv⟩ := run_invariant (fun _ a => inv_step a) requests start start_inv guarded
  exact ⟨s,ran,inv.sound⟩

end

def enter (reader : Fin 2) (key : Bool) : List (Request Bool Bool 2) := [.srcuReadLock reader key,.publish reader]
def leave (reader : Fin 2) : List (Request Bool Bool 2) := [.srcuReadUnlock reader,.countDown reader]

def someRun : List (Request Bool Bool 2) :=
  enter 0 false ++ [.srcuSynchronize false false,.test false] ++ leave 0 ++ [.test false]

theorem srcu_run_sound_of_wait : ∃ s, run step (start : State Bool Bool 2) someRun = some s ∧ Sound s :=
  srcu_run_sound someRun (by decide +kernel)

/-- While one call waits for a reader, a second one turns the index back and returns at once, with the reader
    inside since before it began; and a reader that leaves after another has entered a structure with the other
    index counts down nothing, so its count stays at one with nobody inside. -/
theorem srcu_synchronize_passes :
    (run step (start : State Bool Bool 2)
      (enter 0 false ++ [.srcuSynchronize false false,.srcuSynchronize true false,.test true])).map
      (fun s => (s.phase 0,s.call true)) = some (.inside ⟨false,0,0⟩,.done false 1) ∧
    (run step (start : State Bool Bool 2)
      (enter 0 false ++ [.srcuSynchronize true true,.test true] ++ enter 1 true ++ leave 0)).map
      (fun s => ((s.sp false).readers 0,s.phase 0,(s.phase 1).stay.map Stay.key)) = some (1,.outside,some true) := by
  decide +kernel

end Kenux.Srcu
