import Kenux.Runs
import Mathlib.Data.Fin.Tuple.Basic
import Mathlib.Algebra.Group.Nat.Defs

/-!
CUBIC congestion control, `tcp_cong.c`. The states of the sockets stand in 64 slots, which
are given out in turn and found again by the first match. An acknowledgement takes a
remainder by a quotient of `TCP_MSS`: `cubic_run_total` says in which runs that is never zero,
and `cubic_run_agrees` in which runs every live socket is served from a state of its own.
The search for the cubic root is right up to its bound (`cubic_root_spec`).
-/
namespace Kenux.Congestion
open Kenux.Runs
open Function (update update_of_ne)

def tcpMss : Nat := 1460
def tcpInitCwnd : UInt16 := 10
def tcpInitSsthresh : Nat := 0xffff
def tcpCubicC : Nat := 410
def tcpCubicBeta : UInt32 := 717
def tcpCubicScale : Nat := 100
def tcpCongEventRetrans : Nat := 2
def tcpCongEventLossTimeout : Nat := 4

/-- The fields of `cubic_state_t` that are read. -/
structure CubicState where
  sk : Option Nat := none
  wMax : UInt32 := 0
  epochStart : UInt32 := 0
  ackCnt : UInt32 := 0
  tcpJiffies : UInt32 := 0
  originPoint : UInt32 := 0
  k : UInt32 := 0
  delayedAck : UInt32 := 0
  lastWnd : UInt32 := 0
  found : Bool := false
  deriving DecidableEq

/-- The windows of the sockets and the slots of the states. -/
structure Net where
  sndWnd : Nat → UInt16
  cubicSlots : Fin 64 → CubicState
  slotNext : Nat

def cubicSearch (x lo hi : Nat) : Nat :=
  if lo < hi then
    let mid := (lo + hi + 1) / 2
    if mid * mid * mid ≤ x then cubicSearch x mid hi else cubicSearch x lo (mid - 1)
  else lo
termination_by hi - lo

def cubicRoot (x : Nat) : Nat := if x = 0 then 0 else cubicSearch x 0 2097152

def cubicFindState (s : Net) (sk : Nat) : Option (Fin 64) := Fin.find? (fun i => (s.cubicSlots i).sk = some sk)

def CubicState.fresh (sk : Nat) : CubicState := { sk := some sk, wMax := 0xffff, delayedAck := 2, lastWnd := 10 }

/-- `tcp_cubic_init`; the counter of the slots is an `int`, and must not overflow. -/
def tcpCubicInit (s : Net) (sk : Nat) : Option Net :=
  if s.slotNext = 2^31 - 1 then none
  else some { s with
    cubicSlots := update s.cubicSlots (Fin.ofNat 64 s.slotNext) (.fresh sk)
    slotNext := s.slotNext + 1 }

/-- The state and the window of a socket. -/
abbrev Own := CubicState × UInt16

def slowStart (wnd : UInt16) (acked : UInt32) : UInt16 :=
  UInt16.ofNat (min (wnd.toUInt32 + acked).toNat tcpInitSsthresh)

namespace CubicState
variable (ca : CubicState) (wnd : UInt16) (ack : UInt32)

/-- An epoch begins, or the acknowledgement counts in the one that runs. -/
def begin : CubicState :=
  if ca.epochStart = 0 then
    { ca with
      epochStart := ack
      originPoint := wnd.toUInt32
      k := if wnd.toUInt32 < ca.wMax then
          UInt32.ofNat (cubicRoot ((ca.wMax - wnd.toUInt32) * 1000000 * UInt32.ofNat tcpCubicScale / UInt32.ofNat tcpCubicC).toNat)
        else 0
      ackCnt := 1
      tcpJiffies := ack }
  else { ca with ackCnt := ca.ackCnt + 1 }

def rise : Nat :=
  let t := ack - ca.tcpJiffies + ca.k
  let t := if t < ca.tcpJiffies then ca.tcpJiffies + 1 else t
  tcpCubicC * (t - ca.tcpJiffies).toNat * (t - ca.tcpJiffies).toNat % 2^64 / 1000000

def delta : Nat :=
  let target := min (ca.originPoint.toNat + ca.rise ack) 0xffffffff
  let gap := if target < wnd.toNat then wnd.toNat - target else target - wnd.toNat
  max (gap * tcpCubicScale / ca.delayedAck.toNat / tcpMss) 1

/-- The part of `tcp_cubic_cong_avoid` behind the slow start: the state and the window, and
    `none` for a division by zero. A window of 16 bits is always below `TCP_CONG_MAX_CWND`. -/
def congAvoid : Option Own :=
  let ca := ca.begin wnd ack
  if ca.found then some ({ ca with found := false },(ca.lastWnd + 1).toUInt16)
  else if ca.delayedAck = 0 ∨ tcpMss / ca.delta wnd ack = 0 then none
  else
    let cnt := ca.ackCnt % UInt32.ofNat (tcpMss / ca.delta wnd ack)
    if cnt = 0 then some ({ ca with ackCnt := cnt, lastWnd := (wnd + 1).toUInt32 },wnd + 1)
    else some ({ ca with ackCnt := cnt },wnd)

/-- The part of `tcp_cubic_cwnd_event` behind the tests. -/
def loss : Own :=
  ({ ca with
    wMax := if wnd.toUInt32 < ca.wMax then wnd.toUInt32 * tcpCubicBeta / 1000 else wnd.toUInt32
    epochStart := 0 },tcpInitCwnd)

end CubicState

def Net.put (s : Net) (sk : Nat) (i : Fin 64) (new : Own) : Net :=
  { s with sndWnd := update s.sndWnd sk new.2, cubicSlots := update s.cubicSlots i new.1 }

def tcpCubicCongAvoid (s : Net) (sk : Nat) (ack acked : UInt32) : Option Net :=
  if (s.sndWnd sk).toNat < tcpInitSsthresh then
    some { s with sndWnd := update s.sndWnd sk (slowStart (s.sndWnd sk) acked) }
  else match cubicFindState s sk with
    | none => some s
    | some i => ((s.cubicSlots i).congAvoid (s.sndWnd sk) ack).map (s.put sk i)

def tcpCubicCwndEvent (s : Net) (sk event : Nat) : Net :=
  if event = tcpCongEventRetrans ∨ event = tcpCongEventLossTimeout then
    match cubicFindState s sk with
    | none => s
    | some i => s.put sk i ((s.cubicSlots i).loss (s.sndWnd sk))
  else s

/-- The calls of `tcp_cong_init_sock`, `tcp_cong_on_ack` and `tcp_cong_event` with CUBIC as the default. -/
inductive Call where
  | initSock (sk : Nat)
  | onAck (sk : Nat) (ack acked : UInt32)
  | event (sk event : Nat)

def call (s : Net) : Call → Option Net
  | .initSock sk => tcpCubicInit { s with sndWnd := update s.sndWnd sk tcpInitCwnd } sk
  | .onAck sk ack acked => tcpCubicCongAvoid s sk ack acked
  | .event sk event => some (tcpCubicCwndEvent s sk event)

def boot (windows : Nat → UInt16) : Net := ⟨windows,fun _ => {},0⟩

/-- Behind the slow start a running epoch does not let the target rise by more than 42661,
    as it does from an `ack` of `2 * tcp_jiffies + 10201` on. -/
def Near (s : Net) : Call → Prop
  | .initSock _ => s.slotNext < 2^31 - 1
  | .onAck sk ack _ => s.sndWnd sk = 0xffff →
      ∀ i ∈ cubicFindState s sk, (s.cubicSlots i).epochStart ≠ 0 → (s.cubicSlots i).rise ack ≤ 42661
  | .event .. => True

instance (s : Net) (c : Call) : Decidable (Near s c) := by cases c <;> dsimp only [Near] <;> infer_instance

/-- A state from `tcp_cubic_init` on. -/
structure Sound (ca : CubicState) : Prop where
  wMax : ca.wMax ≤ 0xffff
  delayedAck : ca.delayedAck = 2
  found : ca.found = false
  epoch : ca.epochStart ≠ 0 → ca.originPoint = 0xffff ∧ ca.k = 0

section
variable {ca : CubicState} {ack : UInt32}

variable (sound : Sound ca) (near : ca.epochStart ≠ 0 → ca.rise ack ≤ 42661)
include sound near

theorem Sound.begin : Sound (ca.begin 0xffff ack) ∧ (ca.begin 0xffff ack).originPoint = 0xffff ∧ (ca.begin 0xffff ack).rise ack ≤ 42661 := by
  have flat : ¬ (0xffff : UInt16).toUInt32 < ca.wMax := UInt32.not_lt.mpr sound.wMax
  unfold CubicState.begin
  by_cases first : ca.epochStart = 0
  · rw [if_pos first,if_neg flat]
    refine ⟨{ sound with epoch := fun _ => ⟨rfl,rfl⟩ },rfl,?_⟩
    unfold CubicState.rise
    by_cases zero : ack = 0
    · simp [zero,tcpCubicC]
    · have positive : 0 < ack := UInt32.pos_iff_ne_zero.mpr zero
      have one : ack + 1 - ack = 1 := by rw [UInt32.add_comm,UInt32.add_sub_cancel]
      simp [positive,one,tcpCubicC]
  · rw [if_neg first]
    exact ⟨{ sound with },(sound.epoch first).1,near first⟩

theorem Sound.congAvoid : ∃ new wnd, ca.congAvoid 0xffff ack = some (new,wnd) ∧ Sound new := by
  obtain ⟨begun,origin,low⟩ := sound.begin near
  have divides : tcpMss / (ca.begin 0xffff ack).delta 0xffff ack ≠ 0 := by
    simp only [CubicState.delta,origin,begun.delayedAck,tcpCubicScale,tcpMss,UInt32.reduceToNat,UInt16.reduceToNat]
    refine Nat.ne_of_gt (Nat.div_pos ?_ ?_)
    · split
      · omega
      · omega
    · omega
  have positive : (ca.begin 0xffff ack).delayedAck ≠ 0 := by simp [begun.delayedAck]
  dsimp only [CubicState.congAvoid]
  rw [if_neg (by simp [begun.found]),if_neg (by simp [positive,divides])]
  split
  · exact ⟨_,_,rfl,{ begun with }⟩
  · exact ⟨_,_,rfl,{ begun with }⟩

omit near in
theorem Sound.loss (wnd : UInt16) : Sound (ca.loss wnd).1 := by
  refine ⟨?_,sound.delayedAck,sound.found,fun running => absurd rfl running⟩
  have small := wnd.toNat_lt
  dsimp only [CubicState.loss]
  split
  · simp only [UInt32.le_iff_toNat_le,tcpCubicBeta,UInt32.toNat_div,UInt32.toNat_mul,UInt16.toNat_toUInt32,UInt32.reduceToNat]
    rw [Nat.mod_eq_of_lt (by omega)]
    omega
  · simp only [UInt32.le_iff_toNat_le,UInt16.toNat_toUInt32,UInt32.reduceToNat]
    omega

end

def Inv (s : Net) : Prop := ∀ i, (s.cubicSlots i).sk ≠ none → Sound (s.cubicSlots i)

section
variable {s : Net}

theorem Inv.change (inv : Inv s) {new : CubicState} (sound : Sound new) (windows : Nat → UInt16) (i : Fin 64) (next : Nat) :
    Inv ⟨windows,update s.cubicSlots i new,next⟩ := by
  intro j
  dsimp only
  cases j using update_cases with
  | here => exact fun _ => sound
  | others j different => exact inv j

theorem Inv.found {sk : Nat} {i : Fin 64} (inv : Inv s) (found : cubicFindState s sk = some i) : Sound (s.cubicSlots i) := by
  have used : (s.cubicSlots i).sk = some sk := by simpa using Fin.eq_true_of_find?_eq_some found
  exact inv i (by simp [used])

theorem Inv.call (inv : Inv s) (c : Call) (near : Near s c) : ∃ t, call s c = some t ∧ Inv t := by
  cases c with
  | initSock sk =>
    have below : s.slotNext ≠ 2^31 - 1 := Nat.ne_of_lt near
    exact ⟨_,if_neg below,inv.change ⟨UInt32.le_refl _,rfl,rfl,fun running => absurd rfl running⟩ _ _ _⟩
  | onAck sk ack acked =>
    dsimp only [Congestion.call,tcpCubicCongAvoid]
    split
    next => exact ⟨_,rfl,inv⟩
    next high =>
      split
      next => exact ⟨_,rfl,inv⟩
      next i found =>
        have full : s.sndWnd sk = 0xffff := by
          have small := (s.sndWnd sk).toNat_lt
          exact UInt16.toNat_inj.mp (by unfold tcpInitSsthresh at high; simp; omega)
        obtain ⟨new,wnd,ran,sound⟩ := (inv.found found).congAvoid (near full i found)
        rw [full,ran]
        exact ⟨_,rfl,inv.change sound _ _ _⟩
  | event sk event =>
    refine ⟨_,rfl,?_⟩
    unfold tcpCubicCwndEvent
    split
    · split
      next => exact inv
      next i found => exact inv.change ((inv.found found).loss _) _ _ _
    · exact inv

end

/-- While no target rises too far and the counter of slots does not overflow, no call divides by zero. -/
theorem cubic_run_total (windows : Nat → UInt16) (calls : List Call) (near : Guarded call Near (boot windows) calls) :
    ∃ t, run call (boot windows) calls = some t := by
  have first : Inv (boot windows) := fun i used => absurd rfl used
  obtain ⟨t,ran,_⟩ := run_invariant (fun s c inv near => Inv.call inv c near) calls _ first near
  exact ⟨t,ran⟩

theorem cubic_run_total_small : ∃ t, run call (boot fun _ => 0) [.initSock 1,.onAck 1 1 0xffff,.onAck 1 1 1,.onAck 1 10202 1] = some t := by
  exact cubic_run_total _ _ (by decide +kernel)

theorem cubic_run_divides : (run call (boot fun _ => 0) [.initSock 1,.onAck 1 1 0xffff,.onAck 1 1 1]).isSome ∧
    run call (boot fun _ => 0) [.initSock 1,.onAck 1 1 0xffff,.onAck 1 1 1,.onAck 1 10203 1] = none := by
  constructor
  · decide +kernel
  · rfl

/-- What a call makes of its socket's state and window, were they its own. -/
def own (x : Option Own) : Call → Option Own
  | .initSock sk => some (.fresh sk,tcpInitCwnd)
  | .onAck _ ack acked => x.bind fun x =>
    if x.2.toNat < tcpInitSsthresh then some (x.1,slowStart x.2 acked) else x.1.congAvoid x.2 ack
  | .event _ event => x.bind fun x =>
    if event = tcpCongEventRetrans ∨ event = tcpCongEventLossTimeout then some (x.1.loss x.2) else some x

def Call.sk : Call → Nat
  | .initSock sk | .onAck sk _ _ | .event sk _ => sk

/-- The slots, and beside them the live sockets with states of their own. -/
structure Joint where
  net : Net
  live : Nat → Option Own

/-- A call, or the end of a socket. -/
inductive Request where
  | call (c : Call)
  | close (sk : Nat)

def serve (s : Joint) : Request → Option Joint
  | .call c => (call s.net c).map (⟨·,update s.live c.sk (own (s.live c.sk) c)⟩)
  | .close sk => some { s with live := update s.live sk none }

/-- An initialisation does not take the slot of another live socket, and no slot before it is its socket's. -/
def Apart (s : Joint) : Request → Prop
  | .call (.initSock sk) =>
    let next := Fin.ofNat 64 s.net.slotNext
    (∀ o ∈ (s.net.cubicSlots next).sk, (s.live o).isSome → cubicFindState s.net o = some next → o = sk) ∧
    ∀ i < next, (s.net.cubicSlots i).sk ≠ some sk
  | _ => True

instance (s : Joint) (r : Request) : Decidable (Apart s r) := by
  rcases r with (_ | _ | _) | _ <;> dsimp only [Apart] <;> infer_instance

/-- The state that is found for a live socket is its own. -/
def Agrees (s : Joint) : Prop :=
  ∀ sk x, s.live sk = some x → ∃ i, cubicFindState s.net sk = some i ∧ x = (s.net.cubicSlots i,s.net.sndWnd sk)

private theorem find_iff {s : Net} {sk : Nat} {i : Fin 64} : cubicFindState s sk = some i ↔
    (s.cubicSlots i).sk = some sk ∧ ∀ j < i, (s.cubicSlots j).sk ≠ some sk := by
  simp [cubicFindState]

theorem congAvoid_sk {ca : CubicState} {wnd : UInt16} {ack : UInt32} {new : Own}
    (ran : ca.congAvoid wnd ack = some new) : new.1.sk = ca.sk := by
  have begun : (ca.begin wnd ack).sk = ca.sk := by
    unfold CubicState.begin
    split <;> rfl
  rw [← begun]
  dsimp only [CubicState.congAvoid] at ran
  split_ifs at ran <;> cases ran <;> rfl

section
variable {s : Joint} {sk : Nat}

theorem Agrees.put (agrees : Agrees s) {x : Option Own} {new : Own} {i : Fin 64} {next : Nat}
    (owner : new.1.sk = some sk) (free : ∀ o ∈ (s.net.cubicSlots i).sk, (s.live o).isSome → cubicFindState s.net o = some i → o = sk)
    (first : ∀ j < i, (s.net.cubicSlots j).sk ≠ some sk) (mine : ∀ y ∈ x, y = new) :
    Agrees ⟨⟨update s.net.sndWnd sk new.2,update s.net.cubicSlots i new.1,next⟩,update s.live sk x⟩ := by
  intro o y
  dsimp only
  cases o using update_cases with
  | here =>
    refine fun here => ⟨i,find_iff.mpr ⟨?_,fun j before => ?_⟩,?_⟩
    · simpa using owner
    · simpa [Fin.ne_of_lt before] using first j before
    · simp [mine y here]
  | others o different =>
    intro lives
    obtain ⟨k,found,rfl⟩ := agrees o y lives
    obtain ⟨held,least⟩ := find_iff.mp found
    have apart : k ≠ i := by
      rintro rfl
      exact different (free o held (by simp [lives]) found)
    refine ⟨k,find_iff.mpr ⟨?_,fun j before => ?_⟩,?_⟩
    · simpa [apart] using held
    · dsimp only
      cases j using update_cases with
      | here => simpa [owner] using different.symm
      | others j _ => exact least j before
    · simp [apart,different]

variable {f : Own → Option Own}

theorem Agrees.own (agrees : Agrees s) {y : Own} (here : (s.live sk).bind f = some y) :
    ∃ i, cubicFindState s.net sk = some i ∧ f (s.net.cubicSlots i,s.net.sndWnd sk) = some y := by
  obtain ⟨x,lives,grown⟩ := Option.bind_eq_some_iff.mp here
  obtain ⟨i,found,rfl⟩ := agrees sk x lives
  exact ⟨i,found,grown⟩

theorem Agrees.putBack (agrees : Agrees s) {i : Fin 64} {new : Own} (found : cubicFindState s.net sk = some i)
    (kept : new.1.sk = (s.net.cubicSlots i).sk) (mine : f (s.net.cubicSlots i,s.net.sndWnd sk) = some new) :
    Agrees ⟨s.net.put sk i new,update s.live sk ((s.live sk).bind f)⟩ := by
  obtain ⟨held,first⟩ := find_iff.mp found
  refine agrees.put (kept.trans held) (fun o here _ _ => Option.some.inj (here.symm.trans held)) first fun y here => ?_
  obtain ⟨j,again,grown⟩ := agrees.own here
  cases found.symm.trans again
  exact Option.some.inj (grown.symm.trans mine)

theorem Agrees.window (agrees : Agrees s) {windows : Nat → UInt16} (others : ∀ o ≠ sk, windows o = s.net.sndWnd o)
    (mine : ∀ i, cubicFindState s.net sk = some i → ∀ y ∈ f (s.net.cubicSlots i,s.net.sndWnd sk), y = (s.net.cubicSlots i,windows sk)) :
    Agrees ⟨{ s.net with sndWnd := windows },update s.live sk ((s.live sk).bind f)⟩ := by
  intro o y
  dsimp only
  cases o using update_cases with
  | here =>
    intro lives
    obtain ⟨i,found,grown⟩ := agrees.own lives
    exact ⟨i,found,mine i found y grown⟩
  | others o different =>
    rw [others o different]
    exact agrees o y

end

theorem Agrees.serve {s t : Joint} {r : Request} (agrees : Agrees s) (apart : Apart s r) (served : serve s r = some t) : Agrees t := by
  cases r with
  | close sk =>
    cases served
    intro o y
    dsimp only
    cases o using update_cases with
    | here => exact nofun
    | others o _ => exact agrees o y
  | call c =>
    obtain ⟨net,called,rfl⟩ := Option.map_eq_some_iff.mp served
    cases c with
    | initSock sk =>
      dsimp only [Congestion.call,tcpCubicInit] at called
      split at called
      · cases called
      · cases called
        exact @Agrees.put _ _ agrees _ (.fresh sk,tcpInitCwnd) _ _ rfl apart.1 apart.2 (fun y here => (Option.some.inj here).symm)
    | onAck sk ack acked =>
      dsimp only [Congestion.call,tcpCubicCongAvoid] at called
      split at called
      next low =>
        cases called
        exact agrees.window (fun o different => update_of_ne different _ _) (by simp [low,Call.sk,eq_comm])
      next high =>
        split at called
        next free =>
          cases called
          exact agrees.window (fun _ _ => rfl) (by simp [free,Call.sk])
        next i found =>
          obtain ⟨new,ran,rfl⟩ := Option.map_eq_some_iff.mp called
          exact agrees.putBack found (congAvoid_sk ran) ((if_neg high).trans ran)
    | event sk event =>
      cases called
      unfold tcpCubicCwndEvent
      split
      next lost =>
        split
        next free => exact agrees.window (fun _ _ => rfl) (by simp [free,Call.sk])
        next i found => exact agrees.putBack found rfl (if_pos lost)
      next kept => exact agrees.window (fun _ _ => rfl) (by simp [kept,Call.sk,eq_comm])

/-- While slots are handed out apart, each live socket reads and writes the state of its own last initialisation. -/
theorem cubic_run_agrees (windows : Nat → UInt16) (requests : List Request) (t : Joint)
    (apart : Guarded serve Apart ⟨boot windows,fun _ => none⟩ requests)
    (reached : run serve ⟨boot windows,fun _ => none⟩ requests = some t) : Agrees t := by
  exact run_safe (fun s r t agrees apart served => agrees.serve apart served) requests _ t (by rintro _ _ ⟨⟩) apart reached

theorem cubic_run_agrees_three : ∃ t, run serve ⟨boot fun _ => 0,fun _ => none⟩
    [.call (.initSock 1),.call (.initSock 2),.close 1,.call (.initSock 3),.call (.onAck 2 1 5),.call (.event 3 2)] = some t ∧ Agrees t := by
  exact Exists.imp (fun t ran => ⟨ran,cubic_run_agrees _ _ t (by decide +kernel) ran⟩) ⟨_,rfl⟩

/-- A socket that is initialised twice is served from its first state. -/
theorem cubic_run_stale : ∃ t, run serve ⟨boot fun _ => 0,fun _ => none⟩
    [.call (.initSock 1),.call (.event 1 2),.call (.initSock 1)] = some t ∧ ¬ Agrees t := by
  exact ⟨_,rfl,fun agrees => absurd (agrees 1 _ rfl) (by decide +kernel)⟩

/-! ### The cubic root -/

/-- The loop of `cubic_root`, `none` if a sum or a product has no room in 64 bits or it has not ended after `n` rounds. -/
def cubicLoop (x : Nat) : Nat → Nat → Nat → Option Nat
  | 0, _, _ => none
  | n+1, lo, hi =>
    if lo < hi then
      let mid := (lo + hi + 1) / 2
      if 2^64 ≤ lo + hi + 1 ∨ 2^64 ≤ mid * mid * mid then none
      else if mid * mid * mid ≤ x then cubicLoop x n mid hi else cubicLoop x n lo (mid - 1)
    else some lo

theorem cubicLoop_spec {x n lo hi : Nat} (order : lo ≤ hi) (top : hi ≤ 2^21) (low : lo^3 ≤ x) (high : x < (hi + 1)^3)
    (enough : hi - lo < 2^n) : cubicLoop x (n+1) lo hi = some (cubicSearch x lo hi) ∧ cubicSearch x lo hi ^ 3 ≤ x ∧
      x < (cubicSearch x lo hi + 1)^3 := by
  induction n generalizing lo hi with
  | zero =>
    obtain rfl : lo = hi := by omega
    rw [cubicLoop,cubicSearch,if_neg (by omega),if_neg (by omega)]
    exact ⟨rfl,low,high⟩
  | succ n ih =>
    rw [cubicLoop,cubicSearch]
    by_cases more : lo < hi
    · have bound : ((lo + hi + 1) / 2)^3 ≤ (2^21)^3 := Nat.pow_le_pow_left (by omega) 3
      rw [if_pos more,if_pos more]
      simp only [← pow_three']
      rw [if_neg (by omega)]
      split
      · exact ih (by omega) top (by assumption) high (by omega)
      · have above : x < ((lo + hi + 1) / 2 - 1 + 1)^3 := by
          rw [Nat.sub_add_cancel (by omega)]
          omega
        exact ih (by omega) (by omega) low above (by omega)
    · obtain rfl : lo = hi := by omega
      rw [if_neg more,if_neg more]
      exact ⟨rfl,low,high⟩

/-- The bisection ends within its rounds, at the one root of the argument, rounded down. -/
theorem cubic_root_spec (x : Nat) (small : x < (2^21 + 1)^3) :
    cubicLoop x 23 0 2097152 = some (cubicRoot x) ∧ cubicRoot x ^ 3 ≤ x ∧ x < (cubicRoot x + 1)^3 ∧
      ∀ r, r^3 ≤ x → x < (r + 1)^3 → r = cubicRoot x := by
  obtain ⟨ends,low,high⟩ := cubicLoop_spec (n := 22) (Nat.zero_le 2097152) (by decide) (Nat.zero_le x) small (by decide)
  have same : cubicRoot x = cubicSearch x 0 2097152 := by
    rw [cubicRoot]
    split
    next zero => simpa [zero,eq_comm] using low
    next => rfl
  rw [same]
  refine ⟨ends,low,high,fun r low' high' => ?_⟩
  have below := (Nat.pow_lt_pow_iff_left (by decide)).mp (low'.trans_lt high)
  have above := (Nat.pow_lt_pow_iff_left (by decide)).mp (low.trans_lt high')
  omega

theorem cubic_root_spec_top : cubicRoot ((2^21 + 1)^3 - 1) = 2^21 :=
  ((cubic_root_spec ((2^21 + 1)^3 - 1) (by decide)).2.2.2 (2^21) (by decide) (by decide)).symm

end Kenux.Congestion
