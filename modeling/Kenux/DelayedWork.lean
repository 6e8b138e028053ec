import Kenux.TimerWheel
import Kenux.Workqueue

/-!
Delayed works (`queue_delayed_work` of `workqueue.c`). A work with a delay gets a wrapper with
a timer, whose callback queues the work and frees the wrapper. `timer_add` makes a timer that
repeats: the wheel files it again in the memory that was just freed, and calls back at every
tick (`delayed_work_repeats`). A repeating timer never leaves the wheel (`timerTick_keeps`), so
the work is passed on once and the wrapper let go if and only if there is no delay
(`delayed_work_once`).
-/
namespace Kenux.DelayedWork
open Kenux.TimerWheel Kenux.Runs
open Kenux.Workqueue (queueWork)

/-- The wheel, the works, and what became of a call: the timer of its wrapper, the number of calls of
    `queue_work` that it has led to, and if the wrapper was freed. -/
structure State (Work Queue : Type) where
  wheel : Wheel
  works : Workqueue.State Work Queue
  timer : Option Nat
  passed : Nat
  freed : Bool

/-- The wheel does not lead to the wrapper if it was freed. -/
def Released {Work Queue : Type} (s : State Work Queue) : Prop :=
  s.freed = true → ∀ t, s.timer = some t → (∀ slot, s.wheel.lists slot ≠ some t) ∧ ∀ a, s.wheel.next a ≠ some t

variable {Work Queue : Type} [DecidableEq Work] [DecidableEq Queue] (wq : Option Queue) (work : Option Work)

def delayedWorkCallback (s : State Work Queue) : State Work Queue :=
  { s with works := (queueWork wq work s.works).2, passed := s.passed + 1, freed := true }

/-- `dw` is the timer of what `kzalloc` returns. -/
def queueDelayedWork (delayMs : BitVec 64) (dw : Option Nat) (wheel : Wheel) (works : Workqueue.State Work Queue) :
    Option (Int × State Work Queue) :=
  if wq = none ∨ work = none then some (-1,⟨wheel,works,none,0,false⟩)
  else if delayMs = 0 then
    let (ret,works) := queueWork wq work works
    some (ret,⟨wheel,works,none,1,false⟩)
  else match dw with
    | none => some (-1,⟨wheel,works,none,0,false⟩)
    | some t => do
      let (_,wheel) ← timerAdd t delayMs true wheel
      some (0,⟨wheel,works,some t,0,false⟩)

/-- A tick, and the callbacks of the wrapper among those that it runs; they do not look at the wheel. -/
def tick (fuel : Nat) (s : State Work Queue) (_ : Unit) : Option (State Work Queue) := do
  let (wheel,calls) ← timerTick fuel s.wheel
  some ((calls.filter (fun c => some c.1 = s.timer)).foldl (fun s _ => delayedWorkCallback wq work s) { s with wheel })

/-- After every number of ticks the work was passed on at most once and the wrapper is let go, and
    some number of ticks can be made after which it was passed on exactly once. -/
def Once (fuel : Nat) (s : State Work Queue) : Prop :=
  (∀ ticks t, run (tick wq work fuel) s ticks = some t → t.passed ≤ 1 ∧ Released t) ∧
    ∃ n, (run (tick wq work fuel) s (List.replicate n ())).isSome ∧
      ∀ ticks t, n ≤ ticks.length → run (tick wq work fuel) s ticks = some t → t.passed = 1

section
variable {fuel : Nat} {w w' : Wheel} {filed : Nat × Nat → List Nat} {head : Option Nat} {cells rest : List Nat} {t a : Nat}

/-- The timer is in some list of the wheel, and repeats. -/
def Held (w : Wheel) (t : Nat) : Prop := ∃ filed, Filed w filed ∧ (∃ j, t ∈ filed j) ∧ (w.timers t).oneshot = false

/-- A pass over timers that were taken out of the wheel: those still to come, linked from `head`, are
    in no list, and the repeating timer `t` is one of them or in a list. -/
structure Passing (w : Wheel) (filed : Nat × Nat → List Nat) (t : Nat) (head : Option Nat) (cells : List Nat) : Prop where
  lists : Filed w filed
  chain : Links.Chain w.next head cells
  distinct : cells.Nodup
  fresh : ∀ a ∈ cells, ∀ j, a ∉ filed j
  kept : t ∈ cells ∨ ∃ j, t ∈ filed j
  repeats : (w.timers t).oneshot = false

theorem Passing.held (passing : Passing w filed t none []) : Held w t :=
  ⟨filed,passing.lists,passing.kept.resolve_left List.not_mem_nil,passing.repeats⟩

/-- Taking the timers of a slot out of the wheel begins a pass over them. -/
theorem Filed.passing (lists : Filed w filed) (member : ∃ j, t ∈ filed j) (repeats : (w.timers t).oneshot = false)
    (slot : Nat × Nat) :
    Passing (w.setList slot none) (Function.update filed slot []) t (w.lists slot) (filed slot) where
  lists := Links.Queues.detach lists slot
  chain := Links.linked_chain (lists.linked slot)
  distinct := lists.distinct slot
  fresh := fun a inside j outside => ((lists.parted.mem_emptied slot j a).mp outside).2 inside
  kept := by
    obtain ⟨j,here⟩ := member
    by_cases inside : t ∈ filed slot
    · exact .inl inside
    · exact .inr ⟨j,(lists.parted.mem_emptied slot j t).mpr ⟨here,inside⟩⟩
  repeats := repeats

/-- A one-shot timer is not put back. -/
theorem Passing.drop (passing : Passing w filed t (some a) (a :: rest)) (f : Entry → Entry)
    (oneshot : (w.timers a).oneshot = true) :
    Passing (w.change a f) filed t (w.next a) rest := by
  have other : t ≠ a := by
    rintro rfl
    rw [passing.repeats] at oneshot
    cases oneshot
  obtain ⟨absent,distinct⟩ := List.nodup_cons.mp passing.distinct
  refine ⟨passing.lists.change (passing.fresh a List.mem_cons_self) f,?_,distinct,
    fun b inside => passing.fresh b (List.mem_cons_of_mem a inside),?_,?_⟩
  · refine Links.chain_congr passing.chain.2 ?_
    intro b inside
    rw [Wheel.next,change_timers,if_neg (ne_of_mem_of_not_mem inside absent)]
    rfl
  · exact passing.kept.imp_left (fun inside => (List.mem_cons.mp inside).resolve_left other)
  · rw [change_timers,if_neg other]
    exact passing.repeats

/-- A timer is put back in the list of its slot. -/
theorem Passing.refile (passing : Passing w filed t (some a) (a :: rest)) {f : Entry → Entry}
    (keeps : (f (w.timers a)).oneshot = (w.timers a).oneshot) (ran : timerEnqueue a (w.change a f) = some w') :
    ∃ filed', Passing w' filed' t (w.next a) rest := by
  have outside := passing.fresh a List.mem_cons_self
  obtain ⟨absent,distinct⟩ := List.nodup_cons.mp passing.distinct
  obtain ⟨v,ran',enqueued⟩ := timerEnqueue_spec (passing.lists.change outside f) outside rfl
  obtain rfl : v = w' := Option.some.inj (ran'.symm.trans ran)
  have same : ∀ b ∈ rest, v.timers b = w.timers b := by
    intro b inside
    have other := ne_of_mem_of_not_mem inside absent
    rw [enqueued.others b other (passing.fresh b (List.mem_cons_of_mem a inside) _),change_timers,if_neg other]
  refine ⟨_,enqueued.lists,?_,distinct,?_,?_,?_⟩
  · refine Links.chain_congr passing.chain.2 ?_
    intro b inside
    rw [Wheel.next,same b inside]
    rfl
  · intro b inside j member
    rcases (mem_snoc b j).mp member with old | ⟨-,new⟩
    · exact passing.fresh b (List.mem_cons_of_mem a inside) j old
    · exact absent (new ▸ inside)
  · rcases passing.kept with inside | member
    · rcases List.mem_cons.mp inside with rfl | later
      · exact .inr ((exists_snoc t).mpr (.inl rfl))
      · exact .inl later
    · exact .inr ((exists_snoc t).mpr (.inr member))
  · rw [(enqueued.fields t).oneshot,change_timers]
    split
    · next same => rw [keeps,← same,passing.repeats]
    · exact passing.repeats

theorem cascadeLoop_keeps (passing : Passing w filed t head cells) (ran : cascadeLoop fuel head w = some w') : Held w' t := by
  induction cells generalizing fuel head w filed with
  | nil =>
    obtain rfl : head = none := passing.chain
    unfold cascadeLoop at ran
    cases ran
    exact passing.held
  | cons a rest ih =>
    obtain rfl := passing.chain.1
    cases fuel with
    | zero => cases ran
    | succ fuel =>
      obtain ⟨v,put,later⟩ := Option.bind_eq_some_iff.mp ran
      obtain ⟨filed',next⟩ := passing.refile rfl put
      exact ih next later

private theorem cascade_keeps (held : Held w t) {level : Nat} (ran : cascade fuel level w = some w') : Held w' t := by
  unfold cascade at ran
  split at ran
  · cases ran
    exact held
  · obtain ⟨filed,lists,member,repeats⟩ := held
    exact cascadeLoop_keeps (Filed.passing lists member repeats _) ran

theorem expireLoop_keeps {calls calls' : List (Nat × BitVec 64)} (passing : Passing w filed t head cells)
    (ran : expireLoop fuel head w calls = some (w',calls')) : Held w' t := by
  induction cells generalizing fuel head w filed calls with
  | nil =>
    obtain rfl : head = none := passing.chain
    unfold expireLoop at ran
    cases ran
    exact passing.held
  | cons a rest ih =>
    obtain rfl := passing.chain.1
    cases fuel with
    | zero => cases ran
    | succ fuel =>
      have once : ∀ f g, ((w.change a f).change a g) = w.change a (g ∘ f) := by
        intro f g
        simp [Wheel.change,Function.update_idem]
      rw [expireLoop] at ran
      split at ran
      · next oneshot => exact ih (passing.drop _ (by simpa [change_timers] using oneshot)) ran
      · rw [once] at ran
        obtain ⟨v,put,later⟩ := Option.bind_eq_some_iff.mp ran
        obtain ⟨filed',next⟩ := passing.refile rfl put
        exact ih next later

/-- A repeating timer that is in the wheel stays in it. -/
theorem timerTick_keeps {calls : List (Nat × BitVec 64)} (held : Held w t) (ran : timerTick fuel w = some (w',calls)) :
    Held w' t := by
  obtain ⟨⟨v,calls'⟩,expired,final⟩ := Option.bind_eq_some_iff.mp ran
  cases final
  obtain ⟨⟨u,ran'⟩,looped,cascaded⟩ := Option.bind_eq_some_iff.mp expired
  obtain ⟨filed,lists,member,repeats⟩ := held
  have kept : Held u t := expireLoop_keeps (Filed.passing (w := { w with jiffies := w.jiffies + 1 }) lists member repeats _) looped
  dsimp only at cascaded
  split at cascaded
  · obtain ⟨z,moved,same⟩ := Option.bind_eq_some_iff.mp cascaded
    cases same
    have moved' : Held v t := cascade_keeps kept moved
    exact moved'
  · cases cascaded
    exact kept

theorem Held.referenced (held : Held w t) : (∃ slot, w.lists slot = some t) ∨ ∃ a, w.next a = some t := by
  obtain ⟨filed,lists,⟨j,member⟩,-⟩ := held
  obtain ⟨left,right,cells⟩ := List.append_of_mem member
  have linked := lists.linked j
  rw [cells] at linked
  rcases List.eq_nil_or_concat left with rfl | ⟨front,a,rfl⟩
  · exact .inl ⟨j,linked.1⟩
  · rw [List.concat_eq_append,List.append_assoc] at linked
    exact .inr ⟨a,Links.linked_next_at linked⟩

theorem timerAdd_held (lists : Filed w filed) (fresh : ∀ j, t ∉ filed j) {ms : BitVec 64} {ret : Int}
    (added : timerAdd t ms true w = some (ret,w')) : Held w' t := by
  obtain ⟨v,put,final⟩ := Option.bind_eq_some_iff.mp added
  obtain ⟨u,put',enqueued⟩ := timerEnqueue_spec (lists.change fresh _) fresh rfl
  obtain rfl : u = v := Option.some.inj (put'.symm.trans put)
  cases final
  refine ⟨_,enqueued.lists,(exists_snoc t).mpr (.inl rfl),?_⟩
  rw [(enqueued.fields t).oneshot,change_timers,if_pos rfl]

end

section
variable {wq work} {fuel : Nat} {s s' : State Work Queue} {t : Nat}

/-- The wrapper's timer is in the wheel, and repeats; the wrapper is freed once the work was passed on. -/
structure Waiting (s : State Work Queue) (t : Nat) : Prop where
  timer : s.timer = some t
  held : Held s.wheel t
  freed : 0 < s.passed → s.freed = true

theorem Waiting.called (waiting : Waiting s t) (calls : List (Nat × BitVec 64)) :
    Waiting (calls.foldl (fun s _ => delayedWorkCallback wq work s) s) t := by
  induction calls generalizing s with
  | nil => exact waiting
  | cons c rest ih => exact ih ⟨waiting.timer,waiting.held,fun _ => rfl⟩

theorem tick_waiting {u : Unit} (waiting : Waiting s t) (ticked : tick wq work fuel s u = some s') : Waiting s' t := by
  obtain ⟨⟨wheel,calls⟩,passed,final⟩ := Option.bind_eq_some_iff.mp ticked
  have later : Waiting { s with wheel } t := ⟨waiting.timer,timerTick_keeps waiting.held passed,waiting.freed⟩
  cases final
  exact later.called _

private theorem run_waiting (waiting : Waiting s t) (ticks : List Unit) (ran : run (tick wq work fuel) s ticks = some s') :
    Waiting s' t :=
  run_keeps (fun _ _ _ => tick_waiting) ticks waiting ran

omit [DecidableEq Work] [DecidableEq Queue] in
/-- A wrapper that was freed is still in the wheel. -/
theorem Waiting.not_released (waiting : Waiting s t) (passed : 0 < s.passed) : ¬ Released s := by
  intro released
  obtain ⟨noHead,noNext⟩ := released (waiting.freed passed) t waiting.timer
  rcases waiting.held.referenced with ⟨slot,first⟩ | ⟨a,behind⟩
  · exact noHead slot first
  · exact noNext a behind

end

section
variable {wq work} {fuel : Nat} {s t : State Work Queue} (idle : s.timer = none)
include idle

theorem tick_idle {u : Unit} (ticked : tick wq work fuel s u = some t) : t.timer = none ∧ t.passed = s.passed := by
  obtain ⟨⟨wheel,calls⟩,-,final⟩ := Option.bind_eq_some_iff.mp ticked
  simp only [idle,reduceCtorEq,decide_false,List.filter_false,List.foldl_nil,Option.some.injEq] at final
  subst final
  exact ⟨rfl,rfl⟩

theorem run_idle (ticks : List Unit) (ran : run (tick wq work fuel) s ticks = some t) :
    t.timer = none ∧ t.passed = s.passed := by
  have keeps : ∀ u a v, (u.timer = none ∧ u.passed = s.passed) → tick wq work fuel u a = some v →
      v.timer = none ∧ v.passed = s.passed := by
    intro u _ v still ticked
    obtain ⟨none,same⟩ := tick_idle still.1 ticked
    exact ⟨none,same.trans still.2⟩
  exact run_keeps keeps ticks ⟨idle,rfl⟩ ran

end

/-- What a call that returns 0 leaves behind: without a delay the work passed on, else a wrapper in the wheel. -/
theorem queueDelayedWork_cases {delayMs : BitVec 64} {dw : Option Nat} {wheel : Wheel} {works : Workqueue.State Work Queue}
    {s : State Work Queue} {filed : Nat × Nat → List Nat} (lists : Filed wheel filed) (fresh : ∀ t, dw = some t → ∀ j, t ∉ filed j)
    (called : queueDelayedWork wq work delayMs dw wheel works = some (0,s)) :
    (delayMs = 0 ∧ s.timer = none ∧ s.passed = 1 ∧ s.freed = false) ∨ (delayMs ≠ 0 ∧ ∃ t, Waiting s t) := by
  unfold queueDelayedWork at called
  split at called
  · cases called
  · split at called
    · next now =>
      obtain ⟨-,rfl⟩ := Prod.mk.inj (Option.some.inj called)
      exact .inl ⟨now,rfl,rfl,rfl⟩
    · next later =>
      cases dw with
      | none => cases called
      | some t =>
        obtain ⟨⟨ret,w⟩,added,final⟩ := Option.bind_eq_some_iff.mp called
        cases final
        exact .inr ⟨later,t,rfl,timerAdd_held lists (fresh t rfl) added,fun passed => absurd passed (Nat.lt_irrefl 0)⟩

/-- A call that returns 0, with a wrapper whose timer is not in the wheel: the work is passed on once and
    the wrapper let go if and only if there is no delay. -/
theorem delayed_work_once {delayMs : BitVec 64} {dw : Option Nat} {wheel : Wheel} {works : Workqueue.State Work Queue}
    {s : State Work Queue} {filed : Nat × Nat → List Nat} (lists : Filed wheel filed) (fresh : ∀ t, dw = some t → ∀ j, t ∉ filed j)
    (called : queueDelayedWork wq work delayMs dw wheel works = some (0,s)) (fuel : Nat) :
    Once wq work fuel s ↔ delayMs = 0 := by
  rcases queueDelayedWork_cases wq work lists fresh called with ⟨now,idle,passed,-⟩ | ⟨later,t,waiting⟩
  · refine iff_of_true ⟨fun ticks u ran => ?_,0,rfl,fun ticks u _ ran => (run_idle idle ticks ran).2.trans passed⟩ now
    obtain ⟨none,same⟩ := run_idle idle ticks ran
    refine ⟨(same.trans passed).le,fun _ timer here => ?_⟩
    rw [none] at here
    cases here
  · refine iff_of_false ?_ later
    rintro ⟨always,n,some,passed⟩
    obtain ⟨u,ran⟩ := Option.isSome_iff_exists.mp some
    have once := passed _ u List.length_replicate.ge ran
    exact (run_waiting waiting _ ran).not_released (by omega) (always _ u ran).2

def emptyWheel : Wheel := ⟨fun _ => ⟨none,none,0,false,.inactive,false⟩,fun _ => none,0,BitVec.allOnes 64⟩

def oneWork : Workqueue.State Unit Unit := Workqueue.start fun _ => true

def queuedNow : State Unit Unit := ⟨emptyWheel,(queueWork (some ()) (some ()) oneWork).2,none,1,false⟩

private theorem emptyWheel_filed : Filed emptyWheel (fun _ => []) := ⟨fun _ => rfl,fun _ => List.nodup_nil,nofun⟩

theorem delayed_work_once_now : queueDelayedWork (some ()) (some ()) 0 none emptyWheel oneWork = some (0,queuedNow) ∧
    Once (some ()) (some ()) 1 queuedNow := by
  have called : queueDelayedWork (some ()) (some ()) 0 none emptyWheel oneWork = some (0,queuedNow) := rfl
  exact ⟨called,(delayed_work_once _ _ emptyWheel_filed nofun called 1).mpr rfl⟩

theorem delayed_work_repeats :
    let queued := queueDelayedWork (some ()) (some ()) 1 (some 7) emptyWheel oneWork
    (queued.bind fun r => (tick (some ()) (some ()) 1 r.2 ()).map fun s => (r.1,s.passed,s.freed,s.timer,s.wheel.lists (0,2))) =
      some (0,1,true,some 7,some 7) ∧
    (queued.bind fun r => (run (tick (some ()) (some ()) 1) r.2 [(),()]).map (·.passed)) = some 2 := by
  decide +kernel

end Kenux.DelayedWork
