import Kenux.Runs
import Kenux.Vfs

/-!
The directories of `tmpfs.c`. `tmpfs_mkdir` and `tmpfs_create_file` put a node into the list of
children; `tmpfs_finddir`, `tmpfs_readdir` and `tmpfs_unlink` walk the entries behind
`impl_data`, where nothing is ever put, so that a name that was created is not found
(`tmpfs_mkdir_lost`). While nothing is created, the names that are found and enumerated are
those of the entries that were there and are not unlinked (`tmpfs_run_names`).
-/
namespace Kenux.TmpfsDir
open Kenux.Runs
open Kenux.Vfs (Text letter slash)

/-- An entry or a child: a name that fits in `FS_MAX_NAME` bytes, and the node. -/
structure Entry where
  name : Text
  node : Nat
  short : name.length ≤ 255

/-- The list behind `impl_data`, and the list `children`. -/
structure Dir where
  entries : List Entry
  children : List Entry

variable (d : Dir) (name : Text) (node : Option Nat)

def tmpfsFinddir : Option Nat := (d.entries.find? (·.name == name)).map Entry.node

/-- The buffer holds `room` bytes and a NUL. -/
def tmpfsReaddir (index : Int) (room : Nat) : Option Text :=
  if index < 0 then none else d.entries[index.toNat]?.map (·.name.take room)

def vfsAddChild (node : Nat) : Dir := { d with children := ⟨name.take 255,node,List.length_take_le ..⟩ :: d.children }

/-- `node` is what `vfs_create_node` gets from `kzalloc`. -/
def tmpfsMkdir : Int × Dir :=
  match node with
  | none => (-1,d)
  | some node => (0,vfsAddChild d name node)

def tmpfsCreateFile (memory : Bool) : Option Nat × Dir :=
  match node with
  | none => (none,d)
  | some node => if memory then (some node,vfsAddChild d name node) else (none,d)

def tmpfsUnlink : Int × Dir :=
  (if d.entries.any (·.name == name) then 0 else -1,{ d with entries := d.entries.eraseP (·.name == name) })

inductive Request where
  | mkdir (name : Text) (node : Option Nat)
  | createFile (name : Text) (node : Option Nat) (memory : Bool)
  | unlink (name : Text)

/-- The directory, and the names that were created and not unlinked since. -/
structure State where
  dir : Dir
  names : List Text

def start (entries : List Entry) : State := ⟨⟨entries,[]⟩,entries.map Entry.name⟩

def step (s : State) : Request → Option State
  | .mkdir name node =>
    let (code,dir) := tmpfsMkdir s.dir name node
    some ⟨dir,if code = 0 then name :: s.names else s.names⟩
  | .createFile name node memory =>
    let (made,dir) := tmpfsCreateFile s.dir name node memory
    some ⟨dir,if made.isSome then name :: s.names else s.names⟩
  | .unlink name => some ⟨(tmpfsUnlink s.dir name).2,s.names.filter (· != name)⟩

/-- No node is made. -/
def Meets (_ : State) : Request → Prop
  | .mkdir _ node => node = none
  | .createFile _ node memory => node = none ∨ memory = false
  | .unlink _ => True

/-- The names that are found, listed and unlinked are those that were created and not unlinked since. -/
structure Sound (s : State) : Prop where
  found : ∀ name, (tmpfsFinddir s.dir name).isSome ↔ name ∈ s.names
  listed : ∀ name, (∃ index, tmpfsReaddir s.dir index 255 = some name) ↔ name ∈ s.names
  unlinks : ∀ name ∈ s.names, ∃ e early late, e.name = name ∧ s.dir.entries = early ++ e :: late ∧
    (tmpfsUnlink s.dir name).2.entries = early ++ late

/-- The names are those of the entries, which are all different. -/
def Inv (s : State) : Prop := s.names = s.dir.entries.map Entry.name ∧ s.names.Nodup

theorem Inv.sound {s : State} (inv : Inv s) : Sound s where
  found name := by simp [inv.1,tmpfsFinddir]
  listed name := by
    rw [inv.1,List.mem_map]
    constructor
    · rintro ⟨index,read⟩
      obtain ⟨e,there,rfl⟩ := Option.map_eq_some_iff.mp (Option.ite_none_left_eq_some.mp read).2
      exact ⟨e,List.mem_of_getElem? there,(List.take_of_length_le e.short).symm⟩
    · rintro ⟨e,member,rfl⟩
      obtain ⟨i,there⟩ := List.mem_iff_getElem?.mp member
      exact ⟨i,by simp [tmpfsReaddir,there,List.take_of_length_le e.short]⟩
  unlinks name member := by
    rw [inv.1] at member
    obtain ⟨a,inside,rfl⟩ := List.mem_map.mp member
    obtain ⟨e,early,late,-,is,split,erased⟩ := List.exists_of_eraseP (p := (·.name == a.name)) inside (by simp)
    exact ⟨e,early,late,by simpa using is,split,erased⟩

theorem inv_step (s : State) (r : Request) (inv : Inv s) (meets : Meets s r) : ∃ t, step s r = some t ∧ Inv t := by
  cases r with
  | mkdir name node =>
    cases meets
    exact ⟨s,rfl,inv⟩
  | createFile name node memory =>
    refine ⟨s,?_,inv⟩
    rcases meets with rfl | rfl
    · rfl
    · cases node <;> rfl
  | unlink name =>
    refine ⟨_,rfl,?_,inv.2.filter _⟩
    rw [← inv.2.erase_eq_filter,inv.1,List.erase_eq_eraseP',List.eraseP_map]
    rfl

/-- While no node is made, the names found and listed are those that were there and are not unlinked. -/
theorem tmpfs_run_names (entries : List Entry) (distinct : (entries.map Entry.name).Nodup) (requests : List Request)
    (guarded : Guarded step Meets (start entries) requests) : ∃ s, run step (start entries) requests = some s ∧ Sound s := by
  obtain ⟨s,ran,inv⟩ := run_invariant inv_step requests _ ⟨rfl,distinct⟩ guarded
  exact ⟨s,ran,inv.sound⟩

theorem tmpfs_run_names_unlink : ∃ s, run step (start [⟨[letter],1,by decide⟩,⟨[slash],2,by decide⟩])
    [.unlink [letter],.mkdir [letter] none] = some s ∧ Sound s :=
  tmpfs_run_names _ (by decide) _ ⟨trivial,fun _ _ => ⟨rfl,fun _ _ => trivial⟩⟩

/-- A directory that starts empty never gets an entry: the promises fail in every state in which a name is there. -/
theorem empty_run_sound_iff (requests : List Request) :
    ∃ s, run step (start []) requests = some s ∧ (Sound s ↔ s.names = []) := by
  have keeps : ∀ s a, s.dir.entries = [] → ∃ t, step s a = some t ∧ t.dir.entries = [] := by
    intro s a empty
    cases a with
    | mkdir name node => cases node <;> exact ⟨_,rfl,empty⟩
    | createFile name node memory =>
      cases node with
      | none => exact ⟨_,rfl,empty⟩
      | some node => cases memory <;> exact ⟨_,rfl,empty⟩
    | unlink name => exact ⟨_,rfl,by simp [tmpfsUnlink,empty]⟩
  obtain ⟨s,ran,empty⟩ := run_always keeps requests (start []) rfl
  refine ⟨s,ran,fun sound => List.eq_nil_iff_forall_not_mem.mpr (fun name there => ?_),fun none => ?_⟩
  · have found := (sound.found name).mpr there
    simp [tmpfsFinddir,empty] at found
  · exact Inv.sound ⟨by rw [none,empty]; rfl,by rw [none]; exact List.nodup_nil⟩

theorem tmpfs_mkdir_lost : ∃ s, run step (start []) [.mkdir [letter] (some 1)] = some s ∧ ¬ Sound s :=
  ⟨_,rfl,fun sound => absurd ((sound.found [letter]).mpr (by decide)) (by decide)⟩

end Kenux.TmpfsDir
