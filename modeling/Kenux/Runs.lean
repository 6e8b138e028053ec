import Mathlib.Algebra.Ring.Int.Defs
import Mathlib.Algebra.Ring.Nat
import Mathlib.Data.List.Basic
import Mathlib.Logic.Function.Basic

/-!
Runs of a machine whose step may fail: a step that returns `none` reads or writes memory that
is not there, or never returns. `Guarded` says that every request meets a condition in the
state in which it is taken, and `run_invariant` carries an invariant along every guarded run:
the run does not fail, and ends in the invariant. `update_cases` follows a table through the
change of one entry, `prefix_update` is for histories that a run only adds to, and `Grant` is
what a machine can get from an allocator that it does not model.
-/
namespace Kenux.Runs

-- the literals of small `Fin` types name these
instance neZeroTwo : NeZero 2 := ⟨by decide⟩
instance neZeroThree : NeZero 3 := ⟨by decide⟩
instance neZeroSixtyFour : NeZero 64 := ⟨by decide⟩
instance neZeroByte : NeZero 256 := ⟨by decide⟩

section
variable {State Request : Type*}

def run (step : State → Request → Option State) : State → List Request → Option State
  | s, [] => some s
  | s, a :: rest => (step s a).bind (fun t => run step t rest)

/-- Every request meets the condition in the state in which it is taken. -/
def Guarded (step : State → Request → Option State) (ok : State → Request → Prop) :
    State → List Request → Prop
  | _, [] => True
  | s, a :: rest => ok s a ∧ ∀ t, step s a = some t → Guarded step ok t rest

instance Guarded.decidable (step : State → Request → Option State) (ok : State → Request → Prop)
    [∀ s a, Decidable (ok s a)] : ∀ s requests, Decidable (Guarded step ok s requests)
  | _, [] => .isTrue trivial
  | s, a :: rest =>
    match stepped : step s a with
    | none => decidable_of_iff (ok s a) ⟨fun here => ⟨here,fun t same => by rw [stepped] at same; cases same⟩,And.left⟩
    | some t =>
      have := Guarded.decidable step ok t rest
      decidable_of_iff (ok s a ∧ Guarded step ok t rest)
        ⟨fun both => ⟨both.1,fun u same => by rw [stepped] at same; cases same; exact both.2⟩,
          fun both => ⟨both.1,both.2 t stepped⟩⟩

variable {step : State → Request → Option State} {ok : State → Request → Prop} {Inv : State → Prop}

theorem run_cons (s : State) (a : Request) (rest : List Request) :
    run step s (a :: rest) = (step s a).bind (fun t => run step t rest) := rfl

theorem run_append {before after : List Request} {s t u : State} (ran : run step s before = some t)
    (later : run step t after = some u) : run step s (before ++ after) = some u := by
  induction before generalizing s with
  | nil =>
    cases ran
    exact later
  | cons a rest ih =>
    obtain ⟨v,stepped,rest⟩ := Option.bind_eq_some_iff.mp ran
    rw [List.cons_append,run_cons,stepped]
    exact ih rest

/-- A run of given requests, by what is seen of the state it ends in. -/
theorem run_shows {α : Type*} (see : State → α) (value : α) {P : State → Prop} {s : State} {requests : List Request}
    (seen : (run step s requests).map see = some value) (means : ∀ t, see t = value → P t) :
    ∃ t, run step s requests = some t ∧ P t := by
  obtain ⟨t,ran,same⟩ := Option.map_eq_some_iff.mp seen
  exact ⟨t,ran,means t same⟩

/-- A guarded run is guarded up to any point and from there on. -/
theorem Guarded.split (before after : List Request) : ∀ {s : State}, Guarded step ok s (before ++ after) →
    Guarded step ok s before ∧ ∀ t, run step s before = some t → Guarded step ok t after := by
  induction before with
  | nil =>
    rintro s guarded
    exact ⟨trivial,by rintro t ⟨⟩; exact guarded⟩
  | cons a rest ih =>
    rintro s ⟨here,later⟩
    refine ⟨⟨here,fun t stepped => (ih (later t stepped)).1⟩,fun u ran => ?_⟩
    obtain ⟨t,stepped,final⟩ := Option.bind_eq_some_iff.mp ran
    exact (ih (later t stepped)).2 u final

/-- The rule of invariants, for an invariant that counts the steps up to a limit:
    every guarded run of at most so many steps succeeds and keeps it. -/
theorem run_counted {Inv : Nat → State → Prop} {limit : Nat}
    (keeps : ∀ n s a, n < limit → Inv n s → ok s a → ∃ t, step s a = some t ∧ Inv (n+1) t)
    (requests : List Request) (n : Nat) (s : State) (enough : n + requests.length ≤ limit) (inv : Inv n s)
    (guarded : Guarded step ok s requests) : ∃ t, run step s requests = some t ∧ Inv (n + requests.length) t := by
  induction requests generalizing n s with
  | nil => exact ⟨s,rfl,inv⟩
  | cons a rest ih =>
    rw [List.length_cons] at enough ⊢
    obtain ⟨t,stepped,kept⟩ := keeps n s a (by omega) inv guarded.1
    obtain ⟨u,ran,final⟩ := ih (n+1) t (by omega) kept (guarded.2 t stepped)
    rw [show n + 1 + rest.length = n + (rest.length + 1) by omega] at final
    exact ⟨u,by rw [run_cons,stepped]; exact ran,final⟩

/-- The rule of invariants: a step that meets the condition succeeds and keeps
    the invariant, so every guarded run succeeds and keeps it. -/
theorem run_invariant (keeps : ∀ s a, Inv s → ok s a → ∃ t, step s a = some t ∧ Inv t) (requests : List Request)
    (s : State) (inv : Inv s) (guarded : Guarded step ok s requests) : ∃ t, run step s requests = some t ∧ Inv t := by
  have counted : ∀ n s a, n < requests.length → Inv s → ok s a → ∃ t, step s a = some t ∧ Inv t :=
    fun _ s a _ => keeps s a
  exact @run_counted State Request step ok (fun _ => Inv) requests.length counted requests 0 s (by omega) inv guarded

/-- The rule of invariants for steps that may fail: every state that a guarded run reaches
    has the invariant. -/
theorem run_safe (keeps : ∀ s a t, Inv s → ok s a → step s a = some t → Inv t) (requests : List Request) (s t : State)
    (inv : Inv s) (guarded : Guarded step ok s requests) (ran : run step s requests = some t) : Inv t := by
  induction requests generalizing s with
  | nil =>
    cases ran
    exact inv
  | cons a rest ih =>
    obtain ⟨u,stepped,final⟩ := Option.bind_eq_some_iff.mp ran
    exact ih u (keeps s a u inv guarded.1 stepped) (guarded.2 u stepped) final

theorem guarded_of_forall (holds : ∀ s a, ok s a) (requests : List Request) (s : State) : Guarded step ok s requests := by
  induction requests generalizing s with
  | nil => trivial
  | cons a rest ih => exact ⟨holds s a,fun t _ => ih t⟩

/-- The rule of invariants for a machine whose every step that succeeds keeps the invariant. -/
theorem run_keeps (keeps : ∀ s a t, Inv s → step s a = some t → Inv t) (requests : List Request) {s t : State}
    (inv : Inv s) (ran : run step s requests = some t) : Inv t :=
  run_safe (fun s a t inv _ => keeps s a t inv) requests s t inv (guarded_of_forall (fun _ _ => trivial) requests s) ran

/-- The rule of invariants for a machine whose every step succeeds and keeps the invariant. -/
theorem run_always (keeps : ∀ s a, Inv s → ∃ t, step s a = some t ∧ Inv t) (requests : List Request) (s : State)
    (inv : Inv s) : ∃ t, run step s requests = some t ∧ Inv t :=
  run_invariant (fun s a inv _ => keeps s a inv) requests s inv (guarded_of_forall (fun _ _ => trivial) requests s)

end

/-- What an allocator hands out: nothing, memory apart from all that is in use, or memory that overlaps
    some of it. -/
inductive Grant where
  | null
  | apart
  | overlapping
  deriving DecidableEq, Repr

def Grant.found : Grant → Bool
  | .null => false
  | .apart | .overlapping => true

section
variable {Key Item : Type*} [DecidableEq Key]

/-- What is said of every key after one gets a new value. -/
@[elab_as_elim]
theorem update_cases {f : Key → Item} {key : Key} {value : Item} {motive : Key → Item → Prop} (here : motive key value)
    (others : ∀ k, k ≠ key → motive k (f k)) (k : Key) : motive k (Function.update f key value k) := by
  by_cases same : k = key
  · rw [same,Function.update_self]
    exact here
  · rw [Function.update_of_ne same]
    exact others k same

/-- Of the histories that are kept by key, one gets a new last item. -/
theorem prefix_update {lists : Key → List Item} (key : Key) (item : Item) (other : Key) :
    lists other <+: Function.update lists key (lists key ++ [item]) other :=
  update_cases (List.prefix_append ..) (fun _ _ => List.prefix_rfl) other

end

end Kenux.Runs
