import Mathlib.Data.List.TakeWhile

/-!
Path resolution in the directory tree (`vfs_find_path` of `fs.c`, and once more in
`kapi_fs.c`): a copy of the path is cut at its slashes, and each node on the way is
asked for the next name. In every tree a path leads to the node that its non-empty
components name, exactly if it has no slash after the first one and the copy, of 255
bytes, has all of its components (`vfs_find_path_resolves`).
-/
namespace Kenux.Vfs

abbrev Text := List {c : UInt8 // c ≠ 0}

def slash : {c : UInt8 // c ≠ 0} := ⟨47,by decide⟩

def token (p : Text) : Text := p.takeWhile (· ≠ slash)

/-- What is left after the token, the slash that ends it and the slashes after that. -/
def rest (p : Text) : Text := (p.dropWhile (· ≠ slash)).tail.dropWhile (· = slash)

private theorem rest_length {p : Text} (more : p ≠ []) : (rest p).length < p.length := by
  have skipped := List.length_dropWhile_le (· = slash) (p.dropWhile (· ≠ slash)).tail
  have cut := List.length_dropWhile_le (· ≠ slash) p
  have present := List.length_pos_iff.mpr more
  rw [List.length_tail] at skipped
  rw [rest]
  omega

section
variable {Node : Type} (finddir : Node → Option (Text → Option Node))

/-- The loop of `vfs_find_path`; a node may have no `finddir`. -/
def findLoop (node : Node) (p : Text) : Option Node :=
  if p ≠ [] then do
    let node ← (← finddir node) (token p)
    findLoop node (rest p)
  else some node
termination_by p.length
decreasing_by exact rest_length (by assumption)

def vfsFindPath (root : Option Node) (path : Option Text) : Option Node := do
  let path ← path
  let root ← root
  if path.head? ≠ some slash then none
  else if path = [slash] then some root
  else findLoop finddir root (path.take 255).tail

def components (path : Text) : List Text := (path.splitOnP (· = slash)).filter (· ≠ [])

/-- The node that the names lead to. -/
def resolve (node : Node) (names : List Text) : Option Node :=
  names.foldlM (fun node name => (finddir node).bind (· name)) node

private theorem components_slash (p : Text) : components (slash :: p) = components p := by
  simp [components,List.splitOnP_cons_eq_if_modifyHead]

private theorem components_skip (p : Text) : components (p.dropWhile (· = slash)) = components p := by
  induction p with
  | nil => rfl
  | cons c p ih =>
    by_cases same : c = slash
    · subst same
      simpa [components_slash] using ih
    · simp [same]

theorem components_token {p : Text} (more : p ≠ []) (first : p.head? ≠ some slash) :
    components p = token p :: components (rest p) := by
  have whole : token p ++ p.dropWhile (· ≠ slash) = p := List.takeWhile_append_dropWhile
  have inside : ∀ c ∈ token p, decide (c = slash) = false := by
    intro c member
    simpa using List.mem_takeWhile_imp member
  have some : token p ≠ [] := by
    cases p with
    | nil => exact absurd rfl more
    | cons c q => simp_all [token]
  rw [rest,components_skip]
  have stop := List.head?_dropWhile_not (· ≠ slash) p
  cases left : p.dropWhile (· ≠ slash) with
  | nil =>
    rw [left,List.append_nil] at whole
    rw [components,← whole,List.splitOnP_eq_singleton (whole ▸ inside)]
    simp [components,whole,more]
  | cons c q =>
    rw [left] at whole stop
    obtain rfl : c = slash := by simpa using stop
    have split := List.splitOnP_append_cons_of_forall_mem inside slash (by simp) q
    rw [whole] at split
    simp [components,split,some]

private theorem rest_head (p : Text) : (rest p).head? ≠ some slash := by
  intro same
  have stop := List.head?_dropWhile_not (· = slash) (p.dropWhile (· ≠ slash)).tail
  rw [← rest,same] at stop
  simp at stop

theorem findLoop_eq (node : Node) (p : Text) (first : p.head? ≠ some slash) :
    findLoop finddir node p = resolve finddir node (components p) := by
  rw [findLoop]
  split
  next more =>
    have shorter := rest_length more
    rw [components_token more first]
    simp only [resolve,List.foldlM_cons]
    cases finddir node with
    | none => rfl
    | some find =>
      cases step : find (token p) with
      | none => simp [step]
      | some next => simpa [step,resolve] using findLoop_eq next (rest p) (rest_head p)
  next none =>
    obtain rfl : p = [] := not_not.mp none
    rfl
termination_by p.length

/-- The names that are asked for: a second slash gives an empty one. -/
def walked (path : Text) : List Text :=
  (if path.tail.head? = some slash then [[]] else []) ++ components (path.take 255)

theorem findLoop_slash (node : Node) {p : Text} (first : p.head? = some slash) :
    findLoop finddir node p = resolve finddir node ([] :: components p) := by
  obtain ⟨q,rfl⟩ := List.head?_eq_some_iff.mp first
  have empty : token (slash :: q) = [] := by simp [token]
  have skipped : components (rest (slash :: q)) = components (slash :: q) := by
    simp [rest,components_skip,components_slash]
  rw [findLoop,if_pos (List.cons_ne_nil _ _),empty,← skipped]
  simp only [resolve,List.foldlM_cons]
  cases finddir node with
  | none => rfl
  | some find =>
    cases step : find [] with
    | none => simp [step]
    | some next => simpa [step,resolve] using findLoop_eq finddir next (rest (slash :: q)) (rest_head _)

theorem vfsFindPath_eq (root : Node) {path : Text} (absolute : path.head? = some slash) :
    vfsFindPath finddir (some root) (some path) = resolve finddir root (walked path) := by
  obtain ⟨p,rfl⟩ := List.head?_eq_some_iff.mp absolute
  have head : (p.take 254).head? = p.head? := by cases p <;> rfl
  have names : components ((slash :: p).take 255) = components (p.take 254) := components_slash _
  have code : vfsFindPath finddir (some root) (some (slash :: p)) =
      if p = [] then some root else findLoop finddir root (p.take 254) := by
    simp [vfsFindPath]
  rw [code,walked,names]
  by_cases second : (slash :: p).tail.head? = some slash
  · rw [if_pos second,if_neg (fun only => by simp [only] at second)]
    exact findLoop_slash finddir root (head.trans second)
  · rw [if_neg second,List.nil_append,← findLoop_eq finddir root _ (head ▸ second)]
    split
    next only => rw [only,List.take_nil,findLoop,if_neg (not_not.mpr rfl)]
    next => rfl

private theorem resolve_none (root : Node) {first names : List Text} (begins : first <+: names)
    (lost : resolve finddir root first = none) : resolve finddir root names = none := by
  obtain ⟨later,rfl⟩ := begins
  rw [resolve,List.foldlM_append,← resolve,lost]
  rfl

end

/-- The tree whose nodes are all lists of names. -/
def record (node : List Text) : Option (Text → Option (List Text)) := some fun name => some (node ++ [name])

private theorem resolve_record (node names : List Text) : resolve record node names = some (node ++ names) := by
  induction names generalizing node with
  | nil => simp [resolve]
  | cons name names ih => simpa [resolve,record] using ih (node ++ [name])

/-- An absolute path resolves in every tree as its components say exactly if its second byte is no slash and
    its first 255 bytes have the same components. In one tree it also does so if a common beginning of the names
    that are asked for and of the components leads nowhere. -/
theorem vfs_find_path_resolves (path : Text) (absolute : path.head? = some slash) :
    ((∀ (Node : Type) (finddir : Node → Option (Text → Option Node)) (root : Node),
        vfsFindPath finddir (some root) (some path) = resolve finddir root (components path)) ↔
      path.tail.head? ≠ some slash ∧ components (path.take 255) = components path) ∧
    ∀ (Node : Type) (finddir : Node → Option (Text → Option Node)) (root : Node) (first : List Text),
      first <+: walked path → first <+: components path → resolve finddir root first = none →
        vfsFindPath finddir (some root) (some path) = resolve finddir root (components path) := by
  refine ⟨⟨fun right => ?_,?_⟩,?_⟩
  · have same := right _ record []
    rw [vfsFindPath_eq record [] absolute,resolve_record,resolve_record] at same
    have names : walked path = components path := by simpa using same
    by_cases second : path.tail.head? = some slash
    · have empty : [] ∈ components path := by rw [← names,walked,if_pos second]; exact List.mem_cons_self
      simp [components] at empty
    · rw [walked,if_neg second,List.nil_append] at names
      exact ⟨second,names⟩
  · rintro ⟨single,whole⟩ Node finddir root
    rw [vfsFindPath_eq finddir root absolute,walked,if_neg single,whole,List.nil_append]
  · intro Node finddir root first asked named lost
    rw [vfsFindPath_eq finddir root absolute,resolve_none finddir root asked lost,resolve_none finddir root named lost]

/-- A chain of directories, in which a name of length `n` leads `n` levels down. -/
def chain (node : Nat) : Option (Text → Option Nat) :=
  some fun name => if name = [] then none else some (node + name.length)

def letter : {c : UInt8 // c ≠ 0} := ⟨97,by decide⟩

theorem vfs_find_path_resolves_two :
    vfsFindPath chain (some 0) (some [slash,letter,slash,slash,letter,slash]) =
      resolve chain 0 (components [slash,letter,slash,slash,letter,slash]) :=
  (vfs_find_path_resolves _ rfl).1.mpr ⟨by decide,by decide⟩ _ chain 0

theorem vfs_find_path_differs :
    vfsFindPath chain (some 0) (some [slash,slash,letter]) = none ∧
    resolve chain 0 (components [slash,slash,letter]) = some 1 ∧
    vfsFindPath chain (some 0) (some (slash :: List.replicate 300 letter)) = some 254 ∧
    resolve chain 0 (components (slash :: List.replicate 300 letter)) = some 300 := by
  decide +kernel

end Kenux.Vfs
