import Kenux.Runs

/-!
The credentials of `security.c`. A process of effective user 0 may take any user, as its
effective and saved one too; another process may only go back to its real or saved
user. `security_setuid` never changes the real user, which is 0 from the start, so a process
that gave up user 0 takes it back with one call (`setuid_returns`). `setuid_run_permanent`:
as long as no process of another effective user asks for user 0, giving it up is for good.
-/
namespace Kenux.Credentials
open Kenux.Runs
open Function (update update_self update_of_ne)

def capMax : Int := 32

/-- A set of capabilities: `caps[0]`. -/
abbrev CapSet := BitVec 64

def capTest (set : CapSet) (cap : Int) : Bool :=
  if cap < 0 ∨ cap ≥ capMax then false else set &&& (1#64 <<< (cap % 64).toNat) ≠ 0#64

def capClearAll : CapSet := 0#64
def capSetAll : CapSet := 0xFFFFFFFFFFFFFFFF#64

structure Cred where
  uid : UInt32
  gid : UInt32
  euid : UInt32
  egid : UInt32
  suid : UInt32
  sgid : UInt32
  ruid : UInt32
  rgid : UInt32
  fsuid : UInt32
  fsgid : UInt32
  permitted : CapSet
  effective : CapSet
  inheritable : CapSet
  ambient : CapSet
  seccompMode : UInt32
  deriving DecidableEq, Repr

/-- `init_cred`, as `security_init` leaves it. -/
def initCred : Cred :=
  { uid := 0, gid := 0, euid := 0, egid := 0, suid := 0, sgid := 0, ruid := 0, rgid := 0, fsuid := 0, fsgid := 0
    permitted := capSetAll
    effective := capSetAll
    inheritable := capSetAll
    ambient := capSetAll
    seccompMode := 0 }

/-- The credentials of the processes; `none` is a NULL pointer. -/
abbrev Creds := Nat → Option Cred

/-- What `proc->cred` points to; `none` if it or `proc` is NULL. -/
def credOf (creds : Creds) (proc : Option Nat) : Option Cred := proc.bind creds

def setCred (creds : Creds) (proc : Option Nat) (cred : Option Cred) : Creds :=
  proc.elim creds (fun p => update creds p cred)

def securityCheckCap (proc : Option Nat) (cap : Int) (creds : Creds) : Int :=
  match credOf creds proc with
  | none => -1
  | some cred =>
    if cred.euid = 0 then 0
    else if capTest cred.effective cap then 0
    else -1

def securitySetuid (proc : Option Nat) (uid : UInt32) (creds : Creds) : Int × Creds :=
  match credOf creds proc with
  | none => (-1,creds)
  | some cred =>
    if cred.euid = 0 then
      let cred := { cred with
        uid := uid
        euid := uid
        suid := uid }
      let cred := if uid ≠ 0 then { cred with
        effective := capClearAll
        permitted := capClearAll } else cred
      (0,setCred creds proc (some cred))
    else if cred.ruid = uid ∨ cred.suid = uid then (0,setCred creds proc (some { cred with euid := uid }))
    else (-1,creds)

def securitySetgid (proc : Option Nat) (gid : UInt32) (creds : Creds) : Int × Creds :=
  match credOf creds proc with
  | none => (-1,creds)
  | some cred =>
    if cred.euid = 0 then
      (0,setCred creds proc (some { cred with
        gid := gid
        egid := gid
        sgid := gid }))
    else if cred.rgid = gid ∨ cred.sgid = gid then (0,setCred creds proc (some { cred with egid := gid }))
    else (-1,creds)

/-- `memory` says if there is memory for a credential. -/
def securityInitCred (proc : Option Nat) (memory : Bool) (creds : Creds) : Creds :=
  setCred creds proc (if memory then some initCred else none)

def securityCopyCred (dst src : Option Nat) (memory : Bool) (creds : Creds) : Creds :=
  match dst, credOf creds src with
  | none, _ => creds
  | _, none => creds
  | some d, some cred =>
    if creds d = none ∧ memory = false then creds else setCred creds (some d) (some cred)

inductive Request where
  | initCred (proc : Option Nat) (memory : Bool)
  | copyCred (dst src : Option Nat) (memory : Bool)
  | setuid (proc : Option Nat) (uid : UInt32)
  | setgid (proc : Option Nat) (gid : UInt32)
  deriving DecidableEq, Repr

/-- The credentials, and those that gave up user 0: a call made with effective user 0 set
    another user. A copy of a credential has its history, a new one has none. -/
structure State where
  creds : Creds
  dropped : Nat → Bool

/-- The call `security_setuid(p, uid)` gives up user 0. -/
def givesUp (creds : Creds) (p : Nat) (uid : UInt32) : Bool :=
  (creds p).any (fun cred => cred.euid = 0 ∧ uid ≠ 0)

def step (s : State) : Request → Option State
  | .initCred proc memory =>
    some ⟨securityInitCred proc memory s.creds,proc.elim s.dropped (fun p => update s.dropped p false)⟩
  | .copyCred dst src memory =>
    let creds := securityCopyCred dst src memory s.creds
    match dst, src with
    | some d, some c =>
      some ⟨creds,if (s.creds c).isSome ∧ ¬ (s.creds d = none ∧ memory = false) then
        update s.dropped d (s.dropped c) else s.dropped⟩
    | _, _ => some ⟨creds,s.dropped⟩
  | .setuid proc uid =>
    let creds := (securitySetuid proc uid s.creds).2
    match proc with
    | some p => some ⟨creds,if givesUp s.creds p uid then update s.dropped p true else s.dropped⟩
    | none => some ⟨creds,s.dropped⟩
  | .setgid proc gid => some { s with creds := (securitySetgid proc gid s.creds).2 }

def start : State := ⟨fun _ => none,fun _ => false⟩

/-- A process of another effective user does not ask for user 0. -/
def Meets (s : State) : Request → Prop
  | .setuid proc uid => (credOf s.creds proc).all (fun cred => cred.euid = 0 ∨ uid ≠ 0)
  | _ => True

instance (s : State) (a : Request) : Decidable (Meets s a) :=
  match a with
  | .setuid _ _ => inferInstanceAs (Decidable (_ = true))
  | .initCred _ _ | .copyCred _ _ _ | .setgid _ _ => inferInstanceAs (Decidable True)

/-- A process that gave up user 0 has another effective user, and no capability. -/
def Sound (s : State) : Prop :=
  ∀ p cred, s.dropped p = true → s.creds p = some cred →
    cred.euid ≠ 0 ∧ ∀ cap, securityCheckCap (some p) cap s.creds = -1

/-- Another effective user than 0, and no effective capability. -/
structure Powerless (cred : Cred) : Prop where
  euid : cred.euid ≠ 0
  effective : cred.effective = capClearAll

section
variable {s : State}

private theorem capTest_clearAll (cap : Int) : capTest capClearAll cap = false := by
  rw [capTest]
  split
  · rfl
  · simp [capClearAll]

theorem Powerless.checkCap {cred : Cred} (powerless : Powerless cred) {creds : Creds} {proc : Option Nat}
    (there : credOf creds proc = some cred) (cap : Int) : securityCheckCap proc cap creds = -1 := by
  rw [securityCheckCap,there]
  simp [if_neg powerless.euid,powerless.effective,capTest_clearAll]

def Inv (s : State) : Prop := ∀ p cred, s.dropped p = true → s.creds p = some cred → Powerless cred

section
variable (inv : Inv s)
include inv

theorem Inv.sound : Sound s := by
  intro p cred dropped there
  have powerless := inv p cred dropped there
  exact ⟨powerless.euid,powerless.checkCap there⟩

theorem Inv.put (p : Nat) (cred : Option Cred) {dropped : Nat → Bool}
    (others : ∀ q, q ≠ p → dropped q = s.dropped q)
    (powerless : ∀ c, cred = some c → dropped p = true → Powerless c) :
    Inv ⟨update s.creds p cred,dropped⟩ := by
  intro q
  dsimp only
  induction q using update_cases with
  | here => exact fun c gone there => powerless c there gone
  | others q other =>
    rw [others q other]
    exact inv q

theorem Inv.initCred (proc : Option Nat) (memory : Bool) :
    ∃ t, step s (.initCred proc memory) = some t ∧ Inv t := by
  refine ⟨_,rfl,?_⟩
  cases proc with
  | none => exact inv
  | some p =>
    refine inv.put p _ (fun q other => update_of_ne other ..) (fun _ _ gone => ?_)
    rw [Option.elim,update_self] at gone
    cases gone

theorem Inv.copyCred (dst src : Option Nat) (memory : Bool) :
    ∃ t, step s (.copyCred dst src memory) = some t ∧ Inv t := by
  cases dst with
  | none => exact ⟨s,rfl,inv⟩
  | some d =>
    cases src with
    | none => exact ⟨s,rfl,inv⟩
    | some c =>
      refine ⟨_,rfl,?_⟩
      cases there : s.creds c with
      | none =>
        have copied : securityCopyCred (some d) (some c) memory s.creds = s.creds := by
          simp [securityCopyCred,credOf,there]
        rw [copied]
        exact inv
      | some cred =>
        by_cases full : s.creds d = none ∧ memory = false
        · have copied : securityCopyCred (some d) (some c) memory s.creds = s.creds := by
            simp [securityCopyCred,credOf,there,full]
          rw [copied,if_neg (by simp [full])]
          exact inv
        · have copied : securityCopyCred (some d) (some c) memory s.creds = update s.creds d (some cred) := by
            simp [securityCopyCred,credOf,there,full,setCred]
          rw [copied,if_pos ⟨rfl,full⟩]
          refine inv.put d _ (fun q other => update_of_ne other ..) ?_
          rintro c' ⟨⟩ gone
          rw [update_self] at gone
          exact inv c cred gone there

theorem Inv.setgid (proc : Option Nat) (gid : UInt32) :
    ∃ t, step s (.setgid proc gid) = some t ∧ Inv t := by
  refine ⟨_,rfl,?_⟩
  cases there : credOf s.creds proc with
  | none =>
    simp only [securitySetgid,there]
    exact inv
  | some cred =>
    obtain ⟨p,rfl,here⟩ := Option.bind_eq_some_iff.mp there
    have kept : s.dropped p = true → Powerless cred := fun gone => inv p cred gone here
    simp only [securitySetgid,there]
    split
    · refine inv.put p _ (fun _ _ => rfl) ?_
      rintro c ⟨⟩ gone
      exact ⟨(kept gone).euid,(kept gone).effective⟩
    · split
      · refine inv.put p _ (fun _ _ => rfl) ?_
        rintro c ⟨⟩ gone
        exact ⟨(kept gone).euid,(kept gone).effective⟩
      · exact inv

theorem Inv.setuid (proc : Option Nat) (uid : UInt32) (meets : Meets s (.setuid proc uid)) :
    ∃ t, step s (.setuid proc uid) = some t ∧ Inv t := by
  cases proc with
  | none => exact ⟨s,rfl,inv⟩
  | some p =>
    refine ⟨_,rfl,?_⟩
    cases there : s.creds p with
    | none =>
      have unable : givesUp s.creds p uid = false := by simp [givesUp,there]
      have kept : (securitySetuid (some p) uid s.creds).2 = s.creds := by simp [securitySetuid,credOf,there]
      rw [unable,kept]
      exact inv
    | some cred =>
      have own : credOf s.creds (some p) = some cred := there
      have gives : givesUp s.creds p uid = decide (cred.euid = 0 ∧ uid ≠ 0) := by rw [givesUp,there,Option.any_some]
      rw [gives]
      simp only [securitySetuid,own]
      by_cases root : cred.euid = 0
      · rw [if_pos root]
        by_cases zero : uid = 0
        · -- A process of effective user 0 has not given it up.
          rw [if_neg (show ¬ decide (cred.euid = 0 ∧ uid ≠ 0) = true by simp [zero])]
          refine inv.put p _ (fun _ _ => rfl) (fun c _ gone => ?_)
          exact absurd root (inv p cred gone there).euid
        · rw [if_pos (show decide (cred.euid = 0 ∧ uid ≠ 0) = true by simp [root,zero]),if_pos zero]
          refine inv.put p _ (fun q other => update_of_ne other ..) ?_
          rintro c ⟨⟩ _
          exact ⟨zero,rfl⟩
      · have other : uid ≠ 0 := by
          rw [Meets,own] at meets
          simpa [root] using meets
        rw [if_neg root,if_neg (show ¬ decide (cred.euid = 0 ∧ uid ≠ 0) = true by simp [root])]
        split
        · refine inv.put p _ (fun _ _ => rfl) ?_
          rintro c ⟨⟩ gone
          exact ⟨other,(inv p cred gone there).effective⟩
        · exact inv

end

theorem inv_step (s : State) (a : Request) (inv : Inv s) (meets : Meets s a) : ∃ t, step s a = some t ∧ Inv t := by
  cases a with
  | initCred proc memory => exact inv.initCred proc memory
  | copyCred dst src memory => exact inv.copyCred dst src memory
  | setuid proc uid => exact inv.setuid proc uid meets
  | setgid proc gid => exact inv.setgid proc gid

end

/-- While no process without user 0 asks for it, one that gave it up has another effective user, and no capability. -/
theorem setuid_run_permanent (requests : List Request) (guarded : Guarded step Meets start requests) :
    ∃ s, run step start requests = some s ∧ Sound s := by
  obtain ⟨s,ran,inv⟩ := run_invariant inv_step requests start (fun _ _ gone => nomatch gone) guarded
  exact ⟨s,ran,inv.sound⟩

def surrender : List Request :=
  [.initCred (some 1) true,.setgid (some 1) 50,.setuid (some 1) 1000,.copyCred (some 2) (some 1) true,
    .setuid (some 2) 1001,.setgid (some 2) 0]

theorem setuid_run_permanent_of_surrender : Guarded step Meets start surrender ∧
    ∃ s, run step start surrender = some s ∧ Sound s := by
  have guarded : Guarded step Meets start surrender := by decide +kernel
  exact ⟨guarded,setuid_run_permanent surrender guarded⟩

theorem setuid_returns :
    (run step start [.initCred (some 1) true,.setuid (some 1) 1000,.setuid (some 1) 0]).map (fun s =>
        (s.dropped 1,(s.creds 1).map Cred.euid,securityCheckCap (some 1) 21 s.creds)) =
      some (true,some 0,0) := by
  decide +kernel

end Kenux.Credentials
