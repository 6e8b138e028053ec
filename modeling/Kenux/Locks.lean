import Mathlib.Data.List.Basic

/-!
Programs that take and release locks. A command runs over a machine: the locks
that are held, and the data of the program. Taking a lock that is held already
never comes back (`none`); everything else a program does is a function of the
data, and leaves the locks alone. `Triple` is total correctness, and the rules
after it follow a program from statement to statement with the locks that are
held on the way.
-/
namespace Kenux.Locks

section
variable {Lock σ α β : Type}

structure Machine (Lock σ : Type) where
  held : Lock → Bool
  data : σ

/-- A program; `none` when it does not come back. -/
abbrev Command (Lock σ α : Type) := StateT (Machine Lock σ) Option α

/-- A step that computes with the data, and takes no lock. -/
def act (f : σ → α × σ) : Command Lock σ α :=
  fun m => some ((f m.data).1,{ m with data := (f m.data).2 })

def look (f : σ → α) : Command Lock σ α := act (fun d => (f d,d))

def change (f : σ → σ) : Command Lock σ Unit := act (fun d => ((),f d))

def spinLock [DecidableEq Lock] (l : Lock) : Command Lock σ Unit :=
  fun m => if m.held l then none else some ((),{ m with held := fun k => if k = l then true else m.held k })

def spinUnlock [DecidableEq Lock] (l : Lock) : Command Lock σ Unit :=
  fun m => some ((),{ m with held := fun k => if k = l then false else m.held k })

/-- From a state with the first property the program comes back, in a state with the second. -/
def Triple (pre : Machine Lock σ → Prop) (c : Command Lock σ α) (post : α → Machine Lock σ → Prop) : Prop :=
  ∀ m, pre m → ∃ a n, c m = some (a,n) ∧ post a n

/-- The locks of the list are held and no others, and the data have the property. -/
def At (locks : List Lock) (P : σ → Prop) (m : Machine Lock σ) : Prop :=
  (∀ l, m.held l = true ↔ l ∈ locks) ∧ P m.data

/-- The locks of the list are held and no others. -/
def Holding (locks : List Lock) : Machine Lock σ → Prop := At locks (fun _ => True)

variable {pre : Machine Lock σ → Prop} {post : β → Machine Lock σ → Prop} {locks : List Lock} {P : σ → Prop}

variable {m : Machine Lock σ} {Q : σ → Prop} {b : β} {k : α → Command Lock σ β} {c : Command Lock σ β} {f : σ → α × σ}
  {l : Lock}

theorem At.holding (at_ : At locks P m) : Holding locks m := ⟨at_.1,trivial⟩

theorem At.imp (at_ : At locks P m) (implies : ∀ d, P d → Q d) : At locks Q m :=
  ⟨at_.1,implies m.data at_.2⟩

theorem Triple.pure (here : ∀ m, pre m → post b m) : Triple pre (Pure.pure b) post :=
  fun m holds => ⟨b,m,rfl,here m holds⟩

theorem Triple.returns : Triple pre (Pure.pure b) (fun _ => pre) := Triple.pure (fun _ here => here)

section
variable {test : Prop} [Decidable test] {yes no : Command Lock σ β}

theorem Triple.ite (ifTrue : test → Triple pre yes post) (ifFalse : ¬ test → Triple pre no post) :
    Triple pre (if test then yes else no) post := by
  split
  · exact ifTrue ‹test›
  · exact ifFalse ‹¬ test›

theorem Triple.branch (first : Triple pre yes post) (second : Triple pre no post) :
    Triple pre (if test then yes else no) post :=
  Triple.ite (fun _ => first) (fun _ => second)

end

theorem Triple.bind {mid : α → Machine Lock σ → Prop} {c : Command Lock σ α}
    (first : Triple pre c mid) (rest : ∀ a, Triple (mid a) (k a) post) : Triple pre (c >>= k) post := by
  intro m holds
  obtain ⟨a,n,ran,between⟩ := first m holds
  obtain ⟨b,o,continued,final⟩ := rest a n between
  refine ⟨b,o,?_,final⟩
  change (c m).bind (fun p => k p.1 p.2) = some (b,o)
  rw [ran]
  exact continued

theorem Triple.dropped {post : Machine Lock σ → Prop} {c : Command Lock σ α} (triple : Triple pre c (fun _ => post)) :
    Triple pre (do let _ ← c) (fun _ => post) :=
  triple.bind (fun _ => Triple.returns)

theorem Triple.weaken {weaker : Machine Lock σ → Prop} (triple : Triple weaker c post)
    (implies : ∀ m, pre m → weaker m) : Triple pre c post :=
  fun m holds => triple m (implies m holds)

theorem Triple.imp (triple : Triple (At locks Q) c post) (implies : ∀ d, P d → Q d) : Triple (At locks P) c post :=
  triple.weaken (fun _ at_ => at_.imp implies)

/-- The data at the beginning get a name. -/
theorem Triple.each (each : ∀ d, P d → Triple (At locks (fun e => e = d)) c post) : Triple (At locks P) c post :=
  fun m at_ => each m.data at_.2 m ⟨at_.1,rfl⟩

theorem act_bind (Q : α → σ → Prop)
    (effect : ∀ d, P d → Q (f d).1 (f d).2) (rest : ∀ a, Triple (At locks (Q a)) (k a) post) :
    Triple (At locks P) (act f >>= k) post :=
  Triple.bind (fun _ at_ => ⟨_,_,rfl,at_.1,effect _ at_.2⟩) rest

theorem look_bind {f : σ → α} (rest : ∀ a, Triple (At locks (fun d => P d ∧ f d = a)) (k a) post) :
    Triple (At locks P) (look f >>= k) post :=
  act_bind (fun a d => P d ∧ f d = a) (fun _ here => ⟨here,rfl⟩) rest

section
variable [DecidableEq Lock]

theorem lock_bind {k : Unit → Command Lock σ β} (free : l ∉ locks)
    (rest : Triple (At (l :: locks) P) (k ()) post) : Triple (At locks P) (spinLock l >>= k) post := by
  refine Triple.bind (fun m at_ => ?_) (fun _ => rest)
  have open_ : ¬ m.held l = true := fun closed => free ((at_.1 l).mp closed)
  refine ⟨(),_,if_neg open_,?_,at_.2⟩
  intro l'
  by_cases same : l' = l
  · simp [same]
  · simpa [same] using at_.1 l'

theorem unlock_bind {k : Unit → Command Lock σ β} (left : List Lock)
    (others : ∀ l', l' ∈ left ↔ l' ∈ locks ∧ l' ≠ l) (rest : Triple (At left P) (k ()) post) :
    Triple (At locks P) (spinUnlock l >>= k) post := by
  refine Triple.bind (fun m at_ => ⟨(),_,rfl,?_,at_.2⟩) (fun _ => rest)
  intro l'
  by_cases same : l' = l
  · simp [same,others]
  · simpa [same,others] using at_.1 l'

end

/-! The same rules where nothing is said of the data. -/

theorem act_holding (rest : ∀ a, Triple (Holding locks) (k a) post) : Triple (Holding locks) (act f >>= k) post :=
  act_bind (fun _ _ => True) (fun _ _ => trivial) rest

theorem look_holding {f : σ → α} (rest : ∀ a, Triple (Holding locks) (k a) post) :
    Triple (Holding locks) (look f >>= k) post :=
  act_holding rest

theorem change_holding {f : σ → σ} {k : Unit → Command Lock σ β} (rest : Triple (Holding locks) (k ()) post) :
    Triple (Holding locks) (change f >>= k) post :=
  act_holding (fun _ => rest)

end
end Kenux.Locks
