import Kenux.Runs

/-!
The access vector cache of `selinux.c`. A permission query first looks in the cache;
on a miss it computes the access vector from the policy table and caches it. The cache is
transparent as long as what is put into it directly is the policy's answer and `kzalloc` does
not hand out the memory of a slot in the cache (`selinux_run_transparent`): after every such
history a query returns what the policy table alone gives. `selinux_avc_insert` itself checks
nothing (`avc_insert_overrides`).
-/
namespace Kenux.Selinux
open Kenux.Runs

def sidMax : UInt32 := 4096
def secInitSidKernel : UInt32 := 1
def avcSlots : UInt32 := 512
def avdMax : Nat := 64

structure AvDecision where
  allowed : UInt32
  auditallow : UInt32
  auditdeny : UInt32
  seqno : UInt32
  decided : UInt8
  auditallowDecided : UInt8
  auditdenyDecided : UInt8
  deriving DecidableEq, Repr

structure AvtabNode where
  sourceType : UInt16
  targetType : UInt16
  targetClass : UInt16
  allowed : UInt32
  auditallow : UInt32
  auditdeny : UInt32
  deriving DecidableEq, Repr

structure AvcEntry where
  ssid : UInt32
  tsid : UInt32
  tclass : UInt16
  allowed : UInt32
  auditallow : UInt32
  auditdeny : UInt32
  seqno : UInt32
  valid : UInt8
  deriving DecidableEq, Repr

structure AvcCacheSlot where
  entries : List AvcEntry
  deriving DecidableEq, Repr

/-- The policy table and the cache: each bucket is the chain that starts there, and `slots` are the addresses of
    all slots in the chains. -/
structure SelinuxState where
  avtab : Nat → List AvtabNode
  policySeqno : UInt32
  enforcing : Int
  avcCache : Nat → List AvcCacheSlot
  slots : List Nat

def slotIndex (ssid tsid : UInt32) (tclass : UInt16) : Nat :=
  ((ssid * 31 + tsid * 17 + tclass.toUInt32 * 7) % avcSlots).toNat

def selinuxAvtabInsert (node : AvtabNode) (s : SelinuxState) : SelinuxState :=
  let idx := slotIndex node.sourceType.toUInt32 node.targetType.toUInt32 node.targetClass
  { s with avtab := Function.update s.avtab idx (node :: s.avtab idx) }

variable (s : SelinuxState)

def avtabSearch (ssid tsid : UInt32) (tclass : UInt16) : Option AvtabNode :=
  (s.avtab (slotIndex ssid tsid tclass)).find? (fun node =>
    node.sourceType.toUInt32 = ssid ∧ node.targetType.toUInt32 = tsid ∧ node.targetClass = tclass)

def AvDecision.zero : AvDecision := ⟨0,0,0,0,0,0,0⟩

def selinuxComputeAv (ssid tsid : UInt32) (tclass : UInt16) : AvDecision :=
  if ssid < secInitSidKernel ∨ ssid ≥ sidMax ∨ tsid < secInitSidKernel ∨ tsid ≥ sidMax then
    { AvDecision.zero with decided := 1 }
  else
    match avtabSearch s ssid tsid tclass with
    | some node =>
      { allowed := node.allowed
        auditallow := node.auditallow
        auditdeny := node.auditdeny
        seqno := s.policySeqno
        decided := 1
        auditallowDecided := 1
        auditdenyDecided := 1 }
    | none => AvDecision.zero

/-- The entry that the two loops of `selinux_avc_lookup` stop at. -/
def avcFind (ssid tsid : UInt32) (tclass : UInt16) : Option AvcEntry :=
  (s.avcCache (slotIndex ssid tsid tclass)).findSome? (fun slot => slot.entries.find? (fun e =>
    e.valid ≠ 0 ∧ e.ssid = ssid ∧ e.tsid = tsid ∧ e.tclass = tclass))

/-- `none` is the error -1; `avd` holds what the caller left there. -/
def selinuxAvcLookup (ssid tsid : UInt32) (tclass : UInt16) (avd : AvDecision) : Option AvDecision :=
  (avcFind s ssid tsid tclass).map (fun e =>
    { avd with
      allowed := e.allowed
      auditallow := e.auditallow
      auditdeny := e.auditdeny
      seqno := e.seqno
      decided := 1 })

def AvcEntry.zero : AvcEntry := ⟨0,0,0,0,0,0,0,0⟩

/-- `memory` is what `kzalloc` returns. A slot that is in the cache already would be in two places of the
    chains, which may close into a circle: the model ends there. -/
def selinuxAvcInsert (ssid tsid : UInt32) (tclass : UInt16) (avd : AvDecision) (memory : Option Nat)
    (s : SelinuxState) : Option SelinuxState :=
  let idx := slotIndex ssid tsid tclass
  match memory with
  | none => some s
  | some address =>
    if address ∈ s.slots then none
    else
      let entry : AvcEntry := ⟨ssid,tsid,tclass,avd.allowed,avd.auditallow,avd.auditdeny,avd.seqno,1⟩
      let slot : AvcCacheSlot := ⟨(List.replicate avdMax AvcEntry.zero).set 0 entry⟩
      some { s with
        avcCache := Function.update s.avcCache idx (slot :: s.avcCache idx)
        slots := address :: s.slots }

def selinuxAvcFlush : SelinuxState :=
  { s with
    avcCache := fun i => if i < avcSlots.toNat then [] else s.avcCache i
    slots := [] }

/-- The end of `selinux_avc_has_perm`, under the label `check`. -/
def check (allowed requested : UInt32) : Int :=
  if allowed &&& requested = requested then 0
  else if s.enforcing = 0 then 0
  else -1

/-- `stack` is what the local variable `avd` holds at first. -/
def selinuxAvcHasPerm (ssid tsid : UInt32) (tclass : UInt16) (requested : UInt32) (stack : AvDecision)
    (memory : Option Nat) (s : SelinuxState) : Option (Int × SelinuxState) :=
  match selinuxAvcLookup s ssid tsid tclass stack with
  | some avd => some (check s avd.allowed requested,s)
  | none =>
    let avd := selinuxComputeAv s ssid tsid tclass
    (selinuxAvcInsert ssid tsid tclass avd memory s).map (fun s => (check s avd.allowed requested,s))

/-- The decision from the policy table alone. -/
def policyDecision (ssid tsid : UInt32) (tclass : UInt16) (requested : UInt32) : Int :=
  check s (selinuxComputeAv s ssid tsid tclass).allowed requested

inductive Request where
  | hasPerm (ssid tsid : UInt32) (tclass : UInt16) (requested : UInt32) (stack : AvDecision) (memory : Option Nat)
  | insert (ssid tsid : UInt32) (tclass : UInt16) (avd : AvDecision) (memory : Option Nat)
  | flush
  deriving DecidableEq, Repr

def step : Request → Option SelinuxState
  | .hasPerm ssid tsid tclass requested stack memory =>
    (selinuxAvcHasPerm ssid tsid tclass requested stack memory s).map Prod.snd
  | .insert ssid tsid tclass avd memory => selinuxAvcInsert ssid tsid tclass avd memory s
  | .flush => some (selinuxAvcFlush s)

/-- Any policy table and enforcing setting, with the cache that `selinux_init` leaves. -/
def start (avtab : Nat → List AvtabNode) (policySeqno : UInt32) (enforcing : Int) : SelinuxState :=
  ⟨avtab,policySeqno,enforcing,fun _ => [],[]⟩

/-- What `kzalloc` returns is `NULL` or not the memory of a slot in the cache. -/
def Apart (memory : Option Nat) : Prop := ∀ address ∈ memory, address ∉ s.slots

/-- What is inserted directly allows what the policy table allows, and new slots get memory of their own. -/
def Meets : Request → Prop
  | .insert ssid tsid tclass avd memory =>
    Apart s memory ∧ (memory = none ∨ avd.allowed = (selinuxComputeAv s ssid tsid tclass).allowed)
  | .hasPerm _ _ _ _ _ memory => Apart s memory
  | .flush => True

instance (s : SelinuxState) (a : Request) : Decidable (Meets s a) :=
  have (memory : Option Nat) : Decidable (Apart s memory) := inferInstanceAs (Decidable (∀ address ∈ memory, address ∉ s.slots))
  match a with
  | .insert _ _ _ _ _ => inferInstanceAs (Decidable (_ ∧ (_ ∨ _)))
  | .hasPerm _ _ _ _ _ memory => inferInstanceAs (Decidable (Apart s memory))
  | .flush => inferInstanceAs (Decidable True)

section
variable {s t : SelinuxState} {ssid tsid : UInt32} {tclass : UInt16} {avd : AvDecision} {memory : Option Nat}

structure SamePolicy (s t : SelinuxState) : Prop where
  avtab : t.avtab = s.avtab
  policySeqno : t.policySeqno = s.policySeqno
  enforcing : t.enforcing = s.enforcing

theorem SamePolicy.trans {u : SelinuxState} (first : SamePolicy s t) (second : SamePolicy t u) : SamePolicy s u :=
  ⟨second.avtab.trans first.avtab,second.policySeqno.trans first.policySeqno,second.enforcing.trans first.enforcing⟩

theorem SamePolicy.computeAv (same : SamePolicy s t) (ssid tsid : UInt32) (tclass : UInt16) :
    selinuxComputeAv t ssid tsid tclass = selinuxComputeAv s ssid tsid tclass := by
  simp only [selinuxComputeAv,avtabSearch,same.avtab,same.policySeqno]

theorem SamePolicy.check (same : SamePolicy s t) (allowed requested : UInt32) :
    check t allowed requested = check s allowed requested := by
  simp only [Selinux.check,same.enforcing]

/-- Every valid entry allows what the policy table allows for its key. -/
def Agrees (s : SelinuxState) : Prop :=
  ∀ i, ∀ slot ∈ s.avcCache i, ∀ e ∈ slot.entries, e.valid ≠ 0 →
    e.allowed = (selinuxComputeAv s e.ssid e.tsid e.tclass).allowed

theorem avcFind_spec {e : AvcEntry} (found : avcFind s ssid tsid tclass = some e) :
    (∃ i, ∃ slot ∈ s.avcCache i, e ∈ slot.entries) ∧ e.valid ≠ 0 ∧ e.ssid = ssid ∧ e.tsid = tsid ∧ e.tclass = tclass := by
  obtain ⟨slot,inside,hit⟩ := List.exists_of_findSome?_eq_some found
  have accepted := List.find?_some hit
  exact ⟨⟨_,slot,inside,List.mem_of_find?_eq_some hit⟩,of_decide_eq_true accepted⟩

theorem selinuxAvcInsert_samePolicy (inserted : selinuxAvcInsert ssid tsid tclass avd memory s = some t) : SamePolicy s t := by
  unfold selinuxAvcInsert at inserted
  split at inserted
  · cases inserted
    exact ⟨rfl,rfl,rfl⟩
  · split at inserted
    · cases inserted
    · cases inserted
      exact ⟨rfl,rfl,rfl⟩

private theorem selinuxAvcInsert_some (apart : Apart s memory) : ∃ t, selinuxAvcInsert ssid tsid tclass avd memory s = some t := by
  cases memory with
  | none => exact ⟨s,rfl⟩
  | some address => exact ⟨_,if_neg (apart address rfl)⟩

section
variable (agrees : Agrees s)
include agrees

theorem Agrees.lookup {stack : AvDecision}
    (found : selinuxAvcLookup s ssid tsid tclass stack = some avd) :
    avd.allowed = (selinuxComputeAv s ssid tsid tclass).allowed := by
  obtain ⟨e,hit,rfl⟩ := Option.map_eq_some_iff.mp found
  obtain ⟨⟨i,slot,inside,member⟩,valid,rfl,rfl,rfl⟩ := avcFind_spec hit
  exact agrees i slot inside e member valid

theorem Agrees.insert (inserted : selinuxAvcInsert ssid tsid tclass avd memory s = some t)
    (right : memory = none ∨ avd.allowed = (selinuxComputeAv s ssid tsid tclass).allowed) : Agrees t := by
  intro i slot inside e member valid
  rw [(selinuxAvcInsert_samePolicy inserted).computeAv]
  unfold selinuxAvcInsert at inserted
  split at inserted
  · cases inserted
    exact agrees i slot inside e member valid
  split at inserted
  · cases inserted
  · cases inserted
    dsimp only at inside
    rw [Function.update_apply] at inside
    split at inside
    · rcases List.mem_cons.mp inside with rfl | old
      · -- The new slot has one valid entry, the others are zero.
        rcases List.mem_or_eq_of_mem_set member with blank | rfl
        · rw [List.eq_of_mem_replicate blank] at valid
          exact absurd rfl valid
        · exact right.resolve_left nofun
      · exact agrees _ slot old e member valid
    · exact agrees i slot inside e member valid

/-- A query returns what the policy table gives, and leaves the table and the cache's agreement with it. -/
theorem Agrees.hasPerm (requested : UInt32) (stack : AvDecision) (apart : Apart s memory) :
    ∃ t, selinuxAvcHasPerm ssid tsid tclass requested stack memory s = some (policyDecision s ssid tsid tclass requested,t) ∧
      SamePolicy s t ∧ Agrees t := by
  rw [selinuxAvcHasPerm,policyDecision]
  cases found : selinuxAvcLookup s ssid tsid tclass stack with
  | none =>
    obtain ⟨t,inserted⟩ := @selinuxAvcInsert_some s ssid tsid tclass (selinuxComputeAv s ssid tsid tclass) memory apart
    have same := selinuxAvcInsert_samePolicy inserted
    refine ⟨t,?_,same,agrees.insert inserted (.inr rfl)⟩
    dsimp only
    rw [inserted,Option.map_some,same.check]
  | some avd => exact ⟨s,by simp only [agrees.lookup found],⟨rfl,rfl,rfl⟩,agrees⟩

theorem Agrees.flush : Agrees (selinuxAvcFlush s) := by
  intro i slot inside
  rw [selinuxAvcFlush] at inside
  dsimp only at inside
  split at inside
  · cases inside
  · exact agrees i slot inside

end

end

theorem agrees_step (origin s : SelinuxState) (a : Request) (inv : SamePolicy origin s ∧ Agrees s) (meets : Meets s a) :
    ∃ t, step s a = some t ∧ SamePolicy origin t ∧ Agrees t := by
  obtain ⟨same,agrees⟩ := inv
  cases a with
  | hasPerm ssid tsid tclass requested stack memory =>
    obtain ⟨t,queried,still,after⟩ := @Agrees.hasPerm s ssid tsid tclass memory agrees requested stack meets
    exact ⟨t,by rw [step,queried]; rfl,same.trans still,after⟩
  | insert ssid tsid tclass avd memory =>
    obtain ⟨t,inserted⟩ := @selinuxAvcInsert_some s ssid tsid tclass avd memory meets.1
    exact ⟨t,inserted,same.trans (selinuxAvcInsert_samePolicy inserted),agrees.insert inserted meets.2⟩
  | flush => exact ⟨_,rfl,same.trans ⟨rfl,rfl,rfl⟩,agrees.flush⟩

/-- After every history that meets the condition a query has the answer of the policy table alone. -/
theorem selinux_run_transparent (avtab : Nat → List AvtabNode) (policySeqno : UInt32) (enforcing : Int)
    (requests : List Request) (guarded : Guarded step Meets (start avtab policySeqno enforcing) requests) :
    ∃ s, run step (start avtab policySeqno enforcing) requests = some s ∧
      ∀ ssid tsid tclass requested stack memory, Apart s memory →
        (selinuxAvcHasPerm ssid tsid tclass requested stack memory s).map Prod.fst =
          some (policyDecision (start avtab policySeqno enforcing) ssid tsid tclass requested) := by
  obtain ⟨s,ran,same,agrees⟩ := run_invariant (agrees_step (start avtab policySeqno enforcing)) requests _
    ⟨⟨rfl,rfl,rfl⟩,fun _ _ inside => nomatch inside⟩ guarded
  refine ⟨s,ran,fun ssid tsid tclass requested stack memory apart => ?_⟩
  obtain ⟨t,queried,-⟩ := @Agrees.hasPerm s ssid tsid tclass memory agrees requested stack apart
  rw [queried,Option.map_some,policyDecision,policyDecision,same.computeAv,same.check]

def filePolicy : SelinuxState := selinuxAvtabInsert ⟨1,3,1,3,0,0xffffffff⟩ (start (fun _ => []) 0 1)

def history : List Request :=
  [.hasPerm 1 3 1 1 AvDecision.zero (some 0),.hasPerm 1 3 1 4 AvDecision.zero (some 4096),.hasPerm 2 3 1 1 AvDecision.zero none,
    .insert 1 3 1 ⟨3,0,0,0,1,0,0⟩ (some 4096),.flush,.hasPerm 1 3 1 2 AvDecision.zero (some 0)]

theorem selinux_run_transparent_of_history :
    Guarded step Meets (start filePolicy.avtab 0 1) history ∧
      ∃ s, run step (start filePolicy.avtab 0 1) history = some s ∧
        ∀ ssid tsid tclass requested stack memory, Apart s memory →
          (selinuxAvcHasPerm ssid tsid tclass requested stack memory s).map Prod.fst =
            some (policyDecision (start filePolicy.avtab 0 1) ssid tsid tclass requested) := by
  have guarded : Guarded step Meets (start filePolicy.avtab 0 1) history := by decide +kernel
  exact ⟨guarded,selinux_run_transparent filePolicy.avtab 0 1 history guarded⟩

/-- An insertion that the policy table does not justify is believed: the table is empty and
    denies the access, the query after the insertion allows it. -/
theorem avc_insert_overrides :
    ((run step (start (fun _ => []) 0 1) [.insert 1 3 1 ⟨1,0,0,0,1,0,0⟩ (some 0)]).bind
        (selinuxAvcHasPerm 1 3 1 1 AvDecision.zero (some 4096))).map Prod.fst = some 0 ∧
      policyDecision (start (fun _ => []) 0 1) 1 3 1 1 = -1 := by
  decide +kernel

end Kenux.Selinux
