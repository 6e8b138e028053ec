import Kenux.Pmap
import Kenux.Slots

/-!
The page maps of `memory.c` beside each other. `pmap_create` copies all 512 entries of the
current map, so a new map shares its tables for user addresses (`pmap_create_shares`). In
all runs in which no call goes through a top-level entry whose table another map links to,
the calls on other maps leave the translation of every user address of a map as it is
(`pmap_run_isolated`). The invariant labels each table that a call has made with the table
of the top-level entry it hangs below.
-/
namespace Kenux.PmapIsolation
open Kenux.Pmap Kenux.Radix Kenux.Runs
open Function (update update_self update_of_ne)

def copyPage (words : Nat → Nat) (dst src : Nat) : Nat → Nat :=
  fun a => if dst ≤ a ∧ a < dst + pageSize then words (src + (a - dst)) else words a

/-- `pmap_create`, 0 for `NULL`. -/
def pmapCreate (m : Machine) (currentPml4 : Nat) : Machine × Nat :=
  match m.pages with
  | [] => (m,0)
  | pml4 :: rest =>
    let words := clearPage m.words pml4
    (⟨if currentPml4 ≠ 0 then copyPage words pml4 currentPml4 else words,rest⟩,pml4)

/-- The memory and `current_pml4`; the maps that `pmap_create` has made, and the pages that the allocator has
    given for tables. -/
structure State where
  words : Nat → Nat
  currentPml4 : Nat
  maps : List Nat
  given : List Nat

def start (words : Nat → Nat) (currentPml4 : Nat) : State := ⟨words,currentPml4,[],[]⟩

/-- A call, with the pages that `memory_alloc_aligned` returns during it; after them it returns `NULL`. -/
inductive Request where
  | create (pages : List Nat)
  | switch (pml4 : Nat)
  | map (pml4 vaddr paddr flags : Nat) (pages : List Nat)
  | unmap (pml4 vaddr : Nat)

def next (s : State) : Request → State
  | .create pages =>
    let out := pmapCreate ⟨s.words,pages⟩ s.currentPml4
    { s with words := out.1.words, maps := if out.2 = 0 then s.maps else out.2 :: s.maps, given := pages ++ s.given }
  | .switch pml4 => if pml4 = 0 then s else { s with currentPml4 := pml4 }
  | .map pml4 vaddr paddr flags pages =>
    { s with words := (pmapMapPage ⟨s.words,pages⟩ pml4 vaddr paddr flags).1.words, given := pages ++ s.given }
  | .unmap pml4 vaddr => { s with words := pmapUnmapPage s.words pml4 vaddr }

def step (s : State) (request : Request) : Option State := some (next s request)

/-- The call maps or unmaps in the map. -/
def Request.On (pml4 : Nat) : Request → Prop
  | .map p .. => p = pml4
  | .unmap p _ => p = pml4
  | _ => False

/-- The lower half of the top-level entries is for user addresses. -/
def UserEntry (i : Index) : Prop := i.val < 256

def User (vaddr : Nat) : Prop := UserEntry (index vaddr 39)

instance (i : Index) : Decidable (UserEntry i) := inferInstanceAs (Decidable (_ < _))
instance (vaddr : Nat) : Decidable (User vaddr) := inferInstanceAs (Decidable (UserEntry _))

def headOf (words : Nat → Nat) (pml4 : Nat) (i : Index) : Option Nat := format.next (words (entryAddr pml4 i))

section
variable (others reserved : List Nat)

/-- The pages can be tables, and are not in use as tables. -/
def Unused (s : State) (pages : List Nat) : Prop :=
  pages.Nodup ∧ ∀ t ∈ pages, (t % pageSize = 0 ∧ t ≠ 0 ∧ t < 2^52) ∧ t ∉ s.given ∧ t ∉ reserved

/-- No other map links to the table of the address's top-level entry. -/
def Unshared (s : State) (pml4 vaddr : Nat) : Prop :=
  ∀ head ∈ headOf s.words pml4 (index vaddr 39), ∀ other ∈ others ++ s.maps, other ≠ pml4 →
    ∀ i : Index, UserEntry i → headOf s.words other i ≠ some head

/-- The call is for a user address of a map, and goes through an entry that is not shared. -/
def Separate (s : State) (pml4 vaddr : Nat) : Prop :=
  User vaddr ∧ (pml4 = 0 ∨ pml4 ∈ s.maps ∧ Unshared others s pml4 vaddr)

/-- `others` are the maps that were not made by `pmap_create`, `reserved` their tables. -/
def Meets (s : State) : Request → Prop
  | .create pages => Unused reserved s pages
  | .switch pml4 => pml4 = 0 ∨ pml4 ∈ others ∨ pml4 ∈ s.maps
  | .map pml4 vaddr _ _ pages => Unused reserved s pages ∧ Separate others s pml4 vaddr
  | .unmap pml4 vaddr => Separate others s pml4 vaddr

/-- The maps that are there before the first call, and the tables that they have for user addresses. -/
structure Boot (words : Nat → Nat) (currentPml4 : Nat) : Prop where
  current : currentPml4 = 0 ∨ currentPml4 ∈ others
  root : ∀ other ∈ others, other ∈ reserved
  tables : ∀ other ∈ others, ∀ (i : Index) (path : List Index) (t : Nat), UserEntry i → path.length ≤ 2 →
    descend format words other (i :: path) = some t → t ∈ reserved
  aligned : ∀ t ∈ reserved, t % pageSize = 0

end

variable {t pml4 vaddr current : Nat} {words : Nat → Nat}

theorem copyPage_entryAddr (words : Nat → Nat) {dst : Nat} (src : Nat) (i : Index) (aligned : dst % pageSize = 0)
    (isTable : t % pageSize = 0) :
    copyPage words dst src (entryAddr t i) = if t = dst then words (entryAddr src i) else words (entryAddr t i) := by
  unfold copyPage
  by_cases same : t = dst
  · rw [if_pos same,if_pos]
    · unfold entryAddr
      congr 1
      omega
    · unfold pageSize entryAddr
      omega
  · rw [if_neg same,if_neg]
    unfold pageSize entryAddr at *
    omega

theorem pmapCreate_entryAddr (words : Nat → Nat) (rest : List Nat) (currentPml4 : Nat) (i : Index)
    (aligned : pml4 % pageSize = 0) (isTable : t % pageSize = 0) (isCurrent : currentPml4 % pageSize = 0)
    (different : currentPml4 ≠ pml4) :
    (pmapCreate ⟨words,pml4 :: rest⟩ currentPml4).1.words (entryAddr t i) =
      if t = pml4 then (if currentPml4 = 0 then 0 else words (entryAddr currentPml4 i)) else words (entryAddr t i) := by
  have cleared := @clearPage_entryAddr words pml4 t i aligned isTable
  simp only [pmapCreate]
  by_cases null : currentPml4 = 0
  · rw [if_neg (not_not.mpr null),if_pos null,cleared]
  · rw [if_pos null,copyPage_entryAddr _ _ _ aligned isTable,cleared,clearPage_entryAddr words i aligned isCurrent]
    split <;> rfl

private theorem descend_cons {head : Nat} {i : Index} (linked : headOf words pml4 i = some head)
    (path : List Index) : descend format words pml4 (i :: path) = descend format words head path := by
  show (headOf words pml4 i).bind _ = _
  rw [linked]
  rfl

theorem pmapTranslate_congr {words' : Nat → Nat}
    (root : words' (entryAddr pml4 (index vaddr 39)) = words (entryAddr pml4 (index vaddr 39)))
    (below : ∀ path t, path.length ≤ 2 → descend format words pml4 (index vaddr 39 :: path) = some t →
      ∀ i, words' (entryAddr t i) = words (entryAddr t i)) :
    pmapTranslate words' pml4 vaddr = pmapTranslate words pml4 vaddr := by
  unfold pmapTranslate
  simp only [root]
  split
  · rfl
  split
  · rfl
  rename_i first
  have one := below [] _ (by simp) (descend_cons_of_present _ first)
  simp only [one]
  split
  · rfl
  rename_i second
  have two := below [index vaddr 30] _ (by simp) ((descend_cons_of_present _ first).trans (descend_cons_of_present _ second))
  simp only [two]
  split
  · rfl
  rename_i third
  have three := below [index vaddr 30,index vaddr 21] _ (by simp)
    ((descend_cons_of_present _ first).trans ((descend_cons_of_present _ second).trans (descend_cons_of_present _ third)))
  simp only [three]

/-! ### What a call writes -/

/-- The owner of a table is the table of the top-level entry above it; the levels count from there. -/
abbrev Own : Type := Nat → Option (Nat × Nat)

/-- The pages of the allocator can be tables, and neither have an owner nor are one. -/
structure Stock (m : Machine) (own : Own) : Prop where
  distinct : m.pages.Nodup
  page : ∀ t ∈ m.pages, t % pageSize = 0 ∧ t ≠ 0 ∧ t < 2^52
  free : ∀ t ∈ m.pages, own t = none
  owners : ∀ {t head k}, own t = some (head,k) → head ∉ m.pages

/-- Tables are added below a head, and of the tables in use only those of that head are written. -/
structure Grows (head : Nat) (m n : Machine) (own own' : Own) : Prop where
  owned : Owned format n.words own' 3
  stock : Stock n own'
  pages : ∀ t ∈ n.pages, t ∈ m.pages
  old : ∀ t ∉ m.pages, own' t = own t
  labels : ∀ {t h k}, own' t = some (h,k) → own t = some (h,k) ∨ t ∈ m.pages ∧ h = head
  frame : ∀ t i, t % pageSize = 0 → t ∉ m.pages → (∀ k, own t ≠ some (head,k)) →
    n.words (entryAddr t i) = m.words (entryAddr t i)

variable {m n o : Machine} {own own' own'' : Own} {head t u k : Nat} {i : Index}

theorem Grows.refl (owned : Owned format m.words own 3) (stock : Stock m own) : Grows head m m own own :=
  ⟨owned,stock,fun _ member => member,fun _ _ => rfl,.inl,fun _ _ _ _ _ => rfl⟩

theorem Grows.trans (first : Grows head m n own own') (second : Grows head n o own' own'') : Grows head m o own own'' := by
  refine ⟨second.owned,second.stock,fun t member => first.pages t (second.pages t member),?_,?_,?_⟩
  · intro t outside
    rw [second.old t (fun member => outside (first.pages t member)),first.old t outside]
  · intro t h k label
    rcases second.labels label with label | ⟨member,is⟩
    · exact first.labels label
    · exact .inr ⟨first.pages t member,is⟩
  · intro t i isTable outside other
    have same := first.old t outside
    rw [second.frame t i isTable (fun member => outside (first.pages t member)) (by simpa only [same] using other),
      first.frame t i isTable outside other]

theorem Stock.take {table : Nat} {rest : List Nat} (stock : Stock m own) (pages : m.pages = table :: rest)
    (notPage : head = table ∨ head ∉ m.pages) : Stock ⟨words,rest⟩ (update own table (some (head,k))) := by
  have distinct := stock.distinct
  rw [pages] at distinct
  have later : ∀ t ∈ rest, t ∈ m.pages := fun t member => by simp [pages,member]
  have apart := (List.nodup_cons.mp distinct).1
  refine ⟨distinct.of_cons,fun t member => stock.page t (later t member),?_,?_⟩
  · intro t member
    rw [update_of_ne (fun same : t = table => apart (same ▸ member))]
    exact stock.free t (later t member)
  · intro t h j label member
    rcases Slots.of_put label with ⟨rfl,same⟩ | ⟨_,old⟩
    · cases same
      rcases notPage with same | outside
      · exact apart (same ▸ member)
      · exact outside (later _ member)
    · exact stock.owners old (later _ member)

private theorem label_update {pages : List Nat} {v h h₀ k₀ : Nat} (member : u ∈ pages)
    (is : update own u (some (h₀,k₀)) v = some (h,k)) : own v = some (h,k) ∨ v ∈ pages ∧ h = h₀ := by
  rcases Slots.of_put is with ⟨rfl,same⟩ | ⟨_,old⟩
  · cases same
    exact .inr ⟨member,rfl⟩
  · exact .inl old

theorem pmapGetOrAllocTable_owned (got : pmapGetOrAllocTable m (entryAddr t i) = (n,u)) (owned : Owned format m.words own 3)
    (stock : Stock m own) (label : own t = some (head,k)) (low : k < 3) :
    ∃ own', Grows head m n own own' ∧ (u ≠ 0 → own' u = some (head,k + 1)) := by
  cases pmapGetOrAllocTable_got got with
  | linked next => exact ⟨own,Grows.refl owned stock,fun _ => owned.down label low next⟩
  | failed => exact ⟨own,Grows.refl owned stock,fun nonzero => absurd rfl nonzero⟩
  | new absent pages =>
    have member : u ∈ m.pages := by simp [pages]
    have free := stock.free u member
    obtain ⟨aligned,_,bound⟩ := stock.page u member
    have other : t ≠ u := ne_of_apply_ne own (by simp [free,label])
    have grown := grown_of_page aligned bound (owned.isTable label) other absent
    refine ⟨update own u (some (head,k + 1)),⟨?_,?_,?_,?_,label_update member,?_⟩,fun _ => update_self ..⟩
    · refine owned.grow grown free ?_
      intro h j same
      rw [label] at same
      cases same
      rfl
    · exact stock.take pages (.inr (stock.owners label))
    · exact fun v member => by simp [pages,member]
    · exact fun v outside => update_of_ne (fun same : v = u => outside (same ▸ member)) ..
    · intro v j isTable outside foreign
      refine grown.same isTable (fun same => outside (same ▸ member)) ?_
      rintro ⟨rfl,_⟩
      exact foreign k label

theorem Grows.write (owned : Owned format m.words own 3) (stock : Stock m own) (label : own t = some (head,3)) (i : Index) (w : Nat) :
    Grows head m ⟨update m.words (entryAddr t i) w,m.pages⟩ own own := by
  refine ⟨owned.write label i w,{ stock with },fun _ member => member,fun _ _ => rfl,.inl,?_⟩
  intro u j isTable _ foreign
  refine update_of_ne (fun same => ?_) ..
  obtain ⟨rfl,_⟩ := format.slot_inj isTable (owned.isTable label) same
  exact foreign 3 label

/-- What a call through a top-level entry does: it may fill the entry, and writes new tables and those below the entry. -/
structure Wrote (words : Nat → Nat) (own : Own) (pml4 : Nat) (i : Index) (pages : List Nat) (words' : Nat → Nat)
    (own' : Own) : Prop where
  owned : Owned format words' own' 3
  old : ∀ t ∉ pages, own' t = own t
  labels : ∀ {t h k}, own' t = some (h,k) → own t = some (h,k) ∨ t ∈ pages ∧ (h ∈ pages ∨ headOf words pml4 i = some h)
  root : ∀ j, j ≠ i → words' (entryAddr pml4 j) = words (entryAddr pml4 j)
  head : ∀ head ∈ headOf words' pml4 i, own' head = some (head,1)
  frame : ∀ t j, t % pageSize = 0 → t ∉ pages → t ≠ pml4 → (∀ head ∈ headOf words pml4 i, ∀ k, own t ≠ some (head,k)) →
    words' (entryAddr t j) = words (entryAddr t j)

variable {words words' : Nat → Nat} {pml4 : Nat} {pages : List Nat}

theorem Wrote.nothing (owned : Owned format words own 3) (mine : ∀ head ∈ headOf words pml4 i, own head = some (head,1)) :
    Wrote words own pml4 i pages words own :=
  ⟨owned,fun _ _ => rfl,.inl,fun _ _ => rfl,mine,fun _ _ _ _ _ _ => rfl⟩

structure Root (own : Own) (pml4 : Nat) (pages : List Nat) : Prop where
  isTable : pml4 % pageSize = 0
  plain : own pml4 = none
  outside : pml4 ∉ pages

theorem pmapGetOrAllocTable_root (got : pmapGetOrAllocTable m (entryAddr pml4 i) = (n,u)) (owned : Owned format m.words own 3)
    (stock : Stock m own) (root : Root own pml4 m.pages) (mine : ∀ head ∈ headOf m.words pml4 i, own head = some (head,1)) :
    ∃ own', Wrote m.words own pml4 i m.pages n.words own' ∧ Stock n own' ∧ (∀ t ∈ n.pages, t ∈ m.pages) ∧
      (u ≠ 0 → headOf n.words pml4 i = some u ∧ (u ∈ m.pages ∨ headOf m.words pml4 i = some u)) := by
  cases pmapGetOrAllocTable_got got with
  | linked next => exact ⟨own,Wrote.nothing owned mine,stock,fun _ member => member,fun _ => ⟨next,.inr next⟩⟩
  | failed => exact ⟨own,Wrote.nothing owned mine,stock,fun _ member => member,fun nonzero => absurd rfl nonzero⟩
  | new absent pages =>
    have member : u ∈ m.pages := by simp [pages]
    have free := stock.free u member
    obtain ⟨aligned,_,bound⟩ := stock.page u member
    have other : pml4 ≠ u := fun same => root.outside (same ▸ member)
    have grown := grown_of_page aligned bound root.isTable other absent
    refine ⟨update own u (some (u,1)),⟨?_,?_,?_,?_,?_,?_⟩,stock.take pages (.inl rfl),?_,fun _ => ⟨grown.link,.inl member⟩⟩
    · refine owned.grow grown free ?_
      intro h j same
      rw [root.plain] at same
      cases same
    · exact fun v outside => update_of_ne (fun same : v = u => outside (same ▸ member)) ..
    · intro v h j is
      rcases label_update member is with old | ⟨page,rfl⟩
      · exact .inl old
      · exact .inr ⟨page,.inl member⟩
    · intro j away
      exact grown.same root.isTable other (fun same => away same.2)
    · intro head linked
      cases grown.link.symm.trans linked
      exact update_self ..
    · intro v j isTable outside away _
      exact grown.same isTable (fun same => outside (same ▸ member)) (fun same => away same.1)
    · exact fun v member => by simp [pages,member]

theorem Wrote.grows (wrote : Wrote m.words own pml4 i m.pages n.words own') (grows : Grows u n o own' own'')
    (stock : Stock m own) (stock' : Stock n own') (root : Root own pml4 m.pages) (fewer : ∀ t ∈ n.pages, t ∈ m.pages)
    (linked : headOf n.words pml4 i = some u) (source : u ∈ m.pages ∨ headOf m.words pml4 i = some u) :
    Wrote m.words own pml4 i m.pages o.words own'' := by
  have plain : own' pml4 = none := (wrote.old pml4 root.outside).trans root.plain
  have same : ∀ j, o.words (entryAddr pml4 j) = n.words (entryAddr pml4 j) := fun j =>
    grows.frame pml4 j root.isTable (fun member => root.outside (fewer _ member)) (by simp [plain])
  refine ⟨grows.owned,?_,?_,?_,?_,?_⟩
  · intro t outside
    rw [grows.old t (fun member => outside (fewer t member)),wrote.old t outside]
  · intro t h k label
    rcases grows.labels label with label | ⟨member,rfl⟩
    · exact wrote.labels label
    · exact .inr ⟨fewer t member,source⟩
  · intro j away
    rw [same,wrote.root j away]
  · intro head there
    rw [headOf,same] at there
    cases linked.symm.trans there
    have label := wrote.head u linked
    rw [grows.old u,label]
    intro member
    rw [stock'.free u member] at label
    cases label
  · intro t j isTable outside away foreign
    rw [grows.frame t j isTable (fun member => outside (fewer t member)),wrote.frame t j isTable outside away foreign]
    intro k label
    rw [wrote.old t outside] at label
    rcases source with new | there
    · exact stock.owners label new
    · exact foreign u there k label

theorem pmapMapPage_wrote (vaddr paddr flags : Nat) (owned : Owned format m.words own 3) (stock : Stock m own)
    (root : Root own pml4 m.pages) (mine : ∀ head ∈ headOf m.words pml4 (index vaddr 39), own head = some (head,1)) :
    ∃ own', Wrote m.words own pml4 (index vaddr 39) m.pages (pmapMapPage m pml4 vaddr paddr flags).1.words own' := by
  unfold pmapMapPage
  split
  · exact ⟨own,Wrote.nothing owned mine⟩
  rename_i null
  rcases got₁ : pmapGetOrAllocTable m (entryAddr pml4 (index vaddr 39)) with ⟨m₁,pdpt⟩
  obtain ⟨own₁,wrote,stock₁,fewer,linked⟩ := pmapGetOrAllocTable_root got₁ owned stock root mine
  dsimp only
  split
  · exact ⟨own₁,wrote⟩
  rename_i null₁
  obtain ⟨linked,source⟩ := linked null₁
  have label₁ := wrote.head pdpt linked
  rcases got₂ : pmapGetOrAllocTable m₁ (entryAddr pdpt (index vaddr 30)) with ⟨m₂,pd⟩
  obtain ⟨own₂,grows₂,label₂⟩ := pmapGetOrAllocTable_owned got₂ wrote.owned stock₁ label₁ (by decide)
  split
  · exact ⟨own₂,wrote.grows grows₂ stock stock₁ root fewer linked source⟩
  rename_i null₂
  rcases got₃ : pmapGetOrAllocTable m₂ (entryAddr pd (index vaddr 21)) with ⟨m₃,pt⟩
  obtain ⟨own₃,grows₃,label₃⟩ := pmapGetOrAllocTable_owned got₃ grows₂.owned grows₂.stock (label₂ null₂) (by decide)
  have both := grows₂.trans grows₃
  split
  · exact ⟨own₃,wrote.grows both stock stock₁ root fewer linked source⟩
  rename_i null₃
  exact ⟨own₃,wrote.grows (both.trans (Grows.write both.owned both.stock (label₃ null₃) _ _)) stock stock₁ root fewer linked source⟩

theorem pmapUnmapPage_wrote (vaddr : Nat) (owned : Owned format words own 3) (root : Root own pml4 [])
    (mine : ∀ head ∈ headOf words pml4 (index vaddr 39), own head = some (head,1)) :
    Wrote words own pml4 (index vaddr 39) [] (pmapUnmapPage words pml4 vaddr) own := by
  have nothing : Wrote words own pml4 (index vaddr 39) [] words own := Wrote.nothing owned mine
  have stock : Stock ⟨words,[]⟩ own := ⟨List.nodup_nil,nofun,nofun,fun _ => List.not_mem_nil⟩
  by_cases null : pml4 = 0
  · rwa [pmapUnmapPage,if_pos null]
  rcases pmapUnmapPage_cases vaddr words null with ⟨_,same⟩ | ⟨pt,reached,cleared⟩
  · rwa [same]
  · obtain ⟨head,linked,below⟩ := Option.bind_eq_some_iff.mp reached
    have label := owned.descend (mine head linked) (by simp) below
    rw [cleared]
    exact Wrote.grows (m := ⟨words,[]⟩) (n := ⟨words,[]⟩) nothing (Grows.write owned stock label _ 0) stock stock root
      (fun _ member => member) linked (.inr linked)

variable {others reserved : List Nat} {s : State}

/-- The tables in use have their owners, the maps have none, and below a user entry of a map there are the
    tables of one owner, or those of a map that was there before. -/
structure Inv (others reserved : List Nat) (words : Nat → Nat) (s : State) (own : Own) : Prop where
  owned : Owned format s.words own 3
  labels : ∀ {t head k}, own t = some (head,k) → t ∈ s.given ∧ head ∈ s.given
  maps : ∀ r ∈ s.maps, r ∈ s.given ∧ own r = none
  given : ∀ t ∈ s.given, t % pageSize = 0 ∧ t ≠ 0 ∧ t ∉ reserved
  kept : ∀ t ∈ reserved, ∀ i, s.words (entryAddr t i) = words (entryAddr t i)
  heads : ∀ r ∈ s.maps, ∀ i, UserEntry i → ∀ head ∈ headOf s.words r i,
    own head = some (head,1) ∨ ∃ other ∈ others, ∃ j, UserEntry j ∧ headOf words other j = some head
  current : s.currentPml4 = 0 ∨ s.currentPml4 ∈ others ∨ s.currentPml4 ∈ s.maps

theorem start_inv (boot : Boot others reserved words current) :
    Inv others reserved words (start words current) (fun _ => none) :=
  ⟨⟨nofun,nofun⟩,nofun,nofun,nofun,fun _ _ _ => rfl,nofun,boot.current.imp id .inl⟩

def Same (before after : State) (pml4 : Nat) : Prop :=
  ∀ vaddr, User vaddr → pmapTranslate after.words pml4 vaddr = pmapTranslate before.words pml4 vaddr

section
variable (inv : Inv others reserved words s own)
include inv

section
variable (unused : Unused reserved s pages)
include unused

theorem Inv.root (made : pml4 ∈ s.maps) : Root own pml4 pages := by
  obtain ⟨given,plain⟩ := inv.maps pml4 made
  exact ⟨(inv.given pml4 given).1,plain,fun member => (unused.2 pml4 member).2.1 given⟩

theorem Inv.stock : Stock ⟨s.words,pages⟩ own := by
  refine ⟨unused.1,fun t member => (unused.2 t member).1,?_,?_⟩
  · intro t member
    cases label : own t with
    | none => rfl
    | some label' => exact absurd (inv.labels label).1 (unused.2 t member).2.1
  · exact fun label member => (unused.2 _ member).2.1 (inv.labels label).2

theorem Inv.used :
    ∀ t ∈ pages ++ s.given, t % pageSize = 0 ∧ t ≠ 0 ∧ t ∉ reserved := by
  refine List.forall_mem_append.mpr ⟨fun t page => ?_,inv.given⟩
  obtain ⟨⟨aligned,nonzero,_⟩,_,apart⟩ := unused.2 t page
  exact ⟨aligned,nonzero,apart⟩

theorem Inv.give :
    Inv others reserved words { s with given := pages ++ s.given } own :=
  ⟨inv.owned,fun label => ⟨List.mem_append_right _ (inv.labels label).1,List.mem_append_right _ (inv.labels label).2⟩,
    fun r member => ⟨List.mem_append_right _ (inv.maps r member).1,(inv.maps r member).2⟩,inv.used unused,inv.kept,inv.heads,
    inv.current⟩

end

variable (boot : Boot others reserved words current)
include boot

theorem Inv.mine (made : pml4 ∈ s.maps) (user : User vaddr) (unshared : Unshared others s pml4 vaddr) :
    ∀ head ∈ headOf s.words pml4 (index vaddr 39), own head = some (head,1) := by
  intro head linked
  rcases inv.heads pml4 made _ user head linked with label | ⟨other,member,j,userJ,link⟩
  · exact label
  · have there := boot.root other member
    have different : other ≠ pml4 := by
      rintro rfl
      exact (inv.given other (inv.maps other made).1).2.2 there
    refine absurd ?_ (unshared head linked other (List.mem_append_left _ member) different j userJ)
    rwa [headOf,inv.kept other there]

theorem Inv.reaches (made : pml4 ∈ s.maps) (user : UserEntry i) {path : List Index} (short : path.length ≤ 2)
    (reached : descend format s.words pml4 (i :: path) = some t) :
    ∃ head, headOf s.words pml4 i = some head ∧ ((∃ k, own t = some (head,k)) ∨ t ∈ reserved) := by
  obtain ⟨head,linked,below⟩ := Option.bind_eq_some_iff.mp reached
  refine ⟨head,linked,?_⟩
  rcases inv.heads pml4 made i user head linked with label | ⟨other,member,j,userJ,link⟩
  · exact .inl ⟨_,inv.owned.descend label (by omega) below⟩
  · have same : ∀ p v l, p.length < 2 → descend format words head p = some v →
        s.words (entryAddr v l) = words (entryAddr v l) := by
      intro p v l low there
      refine inv.kept v (boot.tables other member j p v userJ (Nat.le_of_lt low) ?_) l
      rw [descend_cons link]
      exact there
    refine .inr (boot.tables other member j path t userJ short ?_)
    rw [descend_cons link,←descend_congr same path short]
    exact below

theorem Inv.same {other : Nat} {after : State} (made : other ∈ s.maps)
    (mapKept : ∀ j, after.words (entryAddr other j) = s.words (entryAddr other j))
    (reservedKept : ∀ t ∈ reserved, ∀ j, after.words (entryAddr t j) = s.words (entryAddr t j))
    (ownKept : ∀ i, UserEntry i → ∀ head ∈ headOf s.words other i, ∀ t k, own t = some (head,k) →
      ∀ j, after.words (entryAddr t j) = s.words (entryAddr t j)) : Same s after other := by
  intro vaddr user
  refine pmapTranslate_congr (mapKept _) ?_
  intro path t short reached
  obtain ⟨head,linked,⟨k,label⟩ | there⟩ := inv.reaches boot made user short reached
  · exact ownKept _ user head linked t k label
  · exact reservedKept t there

variable (unused : Unused reserved s pages)
include unused

theorem Inv.wrote (made : pml4 ∈ s.maps) (user : User vaddr) (unshared : Unshared others s pml4 vaddr)
    (wrote : Wrote s.words own pml4 (index vaddr 39) pages words' own') :
    Inv others reserved words { s with words := words', given := pages ++ s.given } own' ∧
      ∀ other ∈ s.maps, other ≠ pml4 → Same s { s with words := words', given := pages ++ s.given } other := by
  have inUse : ∀ t ∈ s.given, t ∉ pages := fun t given member => (unused.2 t member).2.1 given
  have root := inv.root unused made
  have notReserved := (inv.given pml4 (inv.maps pml4 made).1).2.2
  have reservedKept : ∀ t ∈ reserved, ∀ j, words' (entryAddr t j) = s.words (entryAddr t j) := by
    intro t member j
    have away : t ∉ s.given := fun given => (inv.given t given).2.2 member
    exact wrote.frame t j (boot.aligned t member) (fun page => (unused.2 t page).2.2 member)
      (fun same => notReserved (same ▸ member)) (fun head _ k label => away (inv.labels label).1)
  have mapKept : ∀ other ∈ s.maps, other ≠ pml4 → ∀ j, words' (entryAddr other j) = s.words (entryAddr other j) := by
    intro other member different j
    obtain ⟨given,plain⟩ := inv.maps other member
    exact wrote.frame other j (inv.given other given).1 (inUse other given) different (by simp [plain])
  constructor
  · refine ⟨wrote.owned,?_,?_,inv.used unused,?_,?_,inv.current⟩
    · intro t head k label
      rcases wrote.labels label with label | ⟨page,owner⟩
      · exact (inv.give unused).labels label
      · refine ⟨List.mem_append_left _ page,?_⟩
        rcases owner with page | linked
        · exact List.mem_append_left _ page
        · exact List.mem_append_right _ (inv.labels (inv.mine boot made user unshared head linked)).1
    · intro r member
      obtain ⟨given,plain⟩ := inv.maps r member
      exact ⟨List.mem_append_right _ given,(wrote.old r (inUse r given)).trans plain⟩
    · exact fun t member j => (reservedKept t member j).trans (inv.kept t member j)
    · intro r member j userJ head linked
      by_cases here : r = pml4 ∧ j = index vaddr 39
      · obtain ⟨rfl,rfl⟩ := here
        exact .inl (wrote.head head linked)
      · have same : words' (entryAddr r j) = s.words (entryAddr r j) := by
          by_cases this : r = pml4
          · subst this
            exact wrote.root j (fun equal => here ⟨rfl,equal⟩)
          · exact mapKept r member this j
        simp only [headOf,same] at linked
        refine (inv.heads r member j userJ head linked).imp (fun label => ?_) id
        rw [wrote.old head (inUse head (inv.labels label).1),label]
  · intro other member different
    refine inv.same boot member (mapKept other member different) reservedKept ?_
    intro i userI head linked t k label j
    have given := (inv.labels label).1
    refine wrote.frame t j (inv.given t given).1 (inUse t given) ?_ ?_
    · exact ne_of_apply_ne own (by simp [label,root.plain])
    · intro head' there j' label'
      rw [label] at label'
      cases label'
      exact unshared head there other (List.mem_append_right _ member) different i userI linked

theorem Inv.create :
    Inv others reserved words (next s (.create pages)) own ∧ ∀ other ∈ s.maps, Same s (next s (.create pages)) other := by
  cases pages with
  | nil =>
    exact ⟨{ inv with },fun _ _ _ _ => rfl⟩
  | cons pml4 rest =>
    obtain ⟨⟨aligned,nonzero,_⟩,new,notReserved⟩ := unused.2 pml4 List.mem_cons_self
    have plain : own pml4 = none := (inv.stock unused).free pml4 List.mem_cons_self
    have made : (next s (.create (pml4 :: rest))).maps = pml4 :: s.maps := if_neg nonzero
    have isCurrent : s.currentPml4 % pageSize = 0 ∧ s.currentPml4 ≠ pml4 := by
      rcases inv.current with null | member | member
      · rw [null]
        exact ⟨rfl,Ne.symm nonzero⟩
      · have there := boot.root _ member
        exact ⟨boot.aligned _ there,fun same => notReserved (same ▸ there)⟩
      · have given := (inv.maps _ member).1
        exact ⟨(inv.given _ given).1,fun same => new (same ▸ given)⟩
    have read : ∀ t j, t % pageSize = 0 → (next s (.create (pml4 :: rest))).words (entryAddr t j) = if t = pml4 then
        (if s.currentPml4 = 0 then 0 else s.words (entryAddr s.currentPml4 j)) else s.words (entryAddr t j) :=
      fun t j isTable => pmapCreate_entryAddr s.words rest s.currentPml4 j aligned isTable isCurrent.1 isCurrent.2
    have reservedKept : ∀ t ∈ reserved, ∀ j, (next s (.create (pml4 :: rest))).words (entryAddr t j) = s.words (entryAddr t j) := by
      intro t member j
      rw [read t j (boot.aligned t member),if_neg (fun same : t = pml4 => notReserved (same ▸ member))]
    have givenKept : ∀ t ∈ s.given, ∀ j, (next s (.create (pml4 :: rest))).words (entryAddr t j) = s.words (entryAddr t j) := by
      intro t member j
      rw [read t j (inv.given t member).1,if_neg (fun same : t = pml4 => new (same ▸ member))]
    constructor
    · refine ⟨inv.owned.congr (fun label => givenKept _ (inv.labels label).1),?_,?_,inv.used unused,?_,?_,?_⟩
      · exact (inv.give unused).labels
      · rw [made]
        exact List.forall_mem_cons.mpr ⟨⟨List.mem_append_left _ List.mem_cons_self,plain⟩,(inv.give unused).maps⟩
      · exact fun t member j => (reservedKept t member j).trans (inv.kept t member j)
      · intro r member j user head linked
        rw [made] at member
        rcases List.mem_cons.mp member with rfl | member
        · rw [headOf,read r j aligned,if_pos rfl] at linked
          split at linked
          · cases linked
          next null =>
            rcases inv.current with zero | other | member
            · exact absurd zero null
            · refine .inr ⟨_,other,j,user,?_⟩
              rw [headOf,←inv.kept _ (boot.root _ other)]
              exact linked
            · exact inv.heads _ member j user head linked
        · rw [headOf,givenKept r (inv.maps r member).1] at linked
          exact inv.heads r member j user head linked
      · rw [made]
        exact inv.current.imp id (.imp id (List.mem_cons_of_mem _))
    · intro other member
      exact inv.same boot member (givenKept other (inv.maps other member).1) reservedKept
        (fun i _ head _ t k label => givenKept t (inv.labels label).1)

end

theorem Inv.step (inv : Inv others reserved words s own) (boot : Boot others reserved words current)
    (request : Request) (meets : Meets others reserved s request) :
    (∃ own', Inv others reserved words (next s request) own') ∧ (∀ other ∈ s.maps, other ∈ (next s request).maps) ∧
      ∀ other ∈ s.maps, ¬ request.On other → Same s (next s request) other := by
  cases request with
  | create pages =>
    obtain ⟨kept,same⟩ := inv.create boot meets
    refine ⟨⟨own,kept⟩,?_,fun other member _ => same other member⟩
    intro other member
    simp only [next]
    split
    · exact member
    · exact List.mem_cons_of_mem _ member
  | switch pml4 =>
    simp only [next]
    split
    case isTrue => exact ⟨⟨own,inv⟩,fun _ member => member,fun _ _ _ _ _ => rfl⟩
    case isFalse =>
      exact ⟨⟨own,{ inv with current := meets }⟩,fun _ member => member,fun _ _ _ _ _ => rfl⟩
  | map pml4 vaddr paddr flags pages =>
    obtain ⟨unused,user,null | ⟨made,unshared⟩⟩ := meets
    · have nothing : (pmapMapPage ⟨s.words,pages⟩ pml4 vaddr paddr flags).1.words = s.words := by
        rw [pmapMapPage,if_pos null]
      simp only [next,nothing]
      exact ⟨⟨own,inv.give unused⟩,fun _ member => member,fun _ _ _ _ _ => rfl⟩
    · obtain ⟨own',wrote⟩ := pmapMapPage_wrote vaddr paddr flags inv.owned (inv.stock unused) (inv.root unused made)
        (inv.mine boot made user unshared)
      obtain ⟨kept,same⟩ := inv.wrote boot unused made user unshared wrote
      exact ⟨⟨own',kept⟩,fun _ member => member,fun other member away => same other member (Ne.symm away)⟩
  | unmap pml4 vaddr =>
    obtain ⟨user,null | ⟨made,unshared⟩⟩ := meets
    · have nothing : pmapUnmapPage s.words pml4 vaddr = s.words := if_pos null
      simp only [next,nothing]
      exact ⟨⟨own,inv⟩,fun _ member => member,fun _ _ _ _ _ => rfl⟩
    · have unused : Unused reserved s [] := ⟨List.nodup_nil,nofun⟩
      obtain ⟨kept,same⟩ := inv.wrote boot unused made user unshared
        (pmapUnmapPage_wrote vaddr inv.owned (inv.root unused made) (inv.mine boot made user unshared))
      exact ⟨⟨own,kept⟩,fun _ member => member,fun other member away => same other member (Ne.symm away)⟩

theorem inv_run (boot : Boot others reserved words current) (requests : List Request) : ∀ s,
    (∃ own, Inv others reserved words s own) → Guarded step (Meets others reserved) s requests →
    ∃ t, run step s requests = some t ∧ (∃ own, Inv others reserved words t own) ∧
      ∀ other ∈ s.maps, (∀ request ∈ requests, ¬ request.On other) → Same s t other := by
  induction requests with
  | nil => exact fun s inv _ => ⟨s,rfl,inv,fun _ _ _ _ _ => rfl⟩
  | cons request rest ih =>
    rintro s ⟨own,inv⟩ guarded
    obtain ⟨kept,still,same⟩ := inv.step boot request guarded.1
    obtain ⟨t,ran,final,later⟩ := ih _ kept (guarded.2 _ rfl)
    refine ⟨t,ran,final,fun other member away vaddr user => ?_⟩
    rw [later other (still other member) (fun r inside => away r (List.mem_cons_of_mem _ inside)) vaddr user,
      same other member (away request List.mem_cons_self) vaddr user]

/-- What other address spaces do leaves the user translations of an address space alone, in every run that meets the condition. -/
theorem pmap_run_isolated {current : Nat} (boot : Boot others reserved words current) (before after : List Request)
    (guarded : Guarded step (Meets others reserved) (start words current) (before ++ after)) :
    ∃ s t, run step (start words current) before = some s ∧ run step s after = some t ∧
      ∀ pml4 ∈ s.maps, (∀ request ∈ after, ¬ request.On pml4) →
        ∀ vaddr, User vaddr → pmapTranslate t.words pml4 vaddr = pmapTranslate s.words pml4 vaddr := by
  obtain ⟨early,late⟩ := guarded.split before after
  obtain ⟨s,ran,inv,_⟩ := inv_run boot before _ ⟨_,start_inv boot⟩ early
  obtain ⟨t,more,_,same⟩ := inv_run boot after s inv (late s ran)
  exact ⟨s,t,ran,more,same⟩

section
variable (others reserved : List Nat) (s : State)

instance (pages : List Nat) : Decidable (Unused reserved s pages) := inferInstanceAs (Decidable (_ ∧ _))

instance (pml4 vaddr : Nat) : Decidable (Unshared others s pml4 vaddr) :=
  inferInstanceAs (Decidable (∀ head ∈ headOf s.words pml4 (index vaddr 39), ∀ other ∈ others ++ s.maps, _ → ∀ _ : Index, _ → _))

instance (pml4 vaddr : Nat) : Decidable (Separate others s pml4 vaddr) := inferInstanceAs (Decidable (_ ∧ _))

instance : ∀ request, Decidable (Meets others reserved s request)
  | .create _ => inferInstanceAs (Decidable (Unused ..))
  | .switch _ => inferInstanceAs (Decidable (_ ∨ _))
  | .map .. => inferInstanceAs (Decidable (_ ∧ _))
  | .unmap .. => inferInstanceAs (Decidable (Separate ..))

end

def lowWords : Nat → Nat := fun a => if a = 0x1000 then 0x2003 else 0

theorem lowWords_boot : Boot [0x1000] [0x1000,0x2000] lowWords 0x1000 := by
  constructor
  · decide
  · decide
  · intro other member i path t _ _ reached
    cases List.mem_singleton.mp member
    obtain ⟨head,linked,below⟩ := Option.bind_eq_some_iff.mp reached
    have absent : ∀ j, lowWords (entryAddr 0x2000 j) = 0 := by
      intro j
      refine if_neg ?_
      unfold entryAddr
      omega
    have low : head = 0x2000 := by
      have entry : lowWords (format.slot 0x1000 i) = 0x2003 ∨ lowWords (format.slot 0x1000 i) = 0 := by
        unfold lowWords
        split
        · exact .inl rfl
        · exact .inr rfl
      rcases entry with entry | entry
      · rw [entry] at linked
        cases linked
        decide
      · rw [entry] at linked
        cases linked
    subst low
    cases path with
    | nil =>
      cases below
      decide
    | cons j rest =>
      rw [descend_cons_of_absent rest (by rw [absent]; rfl)] at below
      cases below
  · decide

def someRun : List Request :=
  [.create [0x4000],.create [0x5000],.map 0x4000 0x8000000000 0xa000 6 [0x6000,0x7000,0x8000],
    .map 0x5000 0x8000000000 0xb000 6 [0xc000,0xd000,0xe000]]

def someCalls : List Request := [.map 0x4000 0x8000001000 0xf000 6 [],.unmap 0x4000 0x8000000000,.switch 0x4000,.create [0x10000]]

theorem pmap_run_isolated_of_two :
    ∃ s t, run step (start lowWords 0x1000) someRun = some s ∧ run step s someCalls = some t ∧
      ∀ pml4 ∈ s.maps, (∀ request ∈ someCalls, ¬ request.On pml4) →
        ∀ vaddr, User vaddr → pmapTranslate t.words pml4 vaddr = pmapTranslate s.words pml4 vaddr :=
  pmap_run_isolated lowWords_boot someRun someCalls (by decide +kernel)

def translations (words : Nat → Nat) (current vaddr : Nat) (requests : List Request) : Option (List (Option Nat)) :=
  (run step (start words current) requests).map (fun s => [pmapTranslate s.words 0x4000 vaddr,pmapTranslate s.words 0x5000 vaddr])

/-- Two maps share the table of the map that was current, and a map made while another is current shares the
    tables of that one: in both cases a page mapped in one of them is mapped in the other. -/
theorem pmap_create_shares :
    translations lowWords 0x1000 0x400000 [.create [0x4000],.create [0x5000]] = some [none,none] ∧
      translations lowWords 0x1000 0x400000 [.create [0x4000],.create [0x5000],.map 0x4000 0x400000 0xa000 6 [0x6000,0x7000]] =
        some [some 0xa000,some 0xa000] ∧
      translations (fun _ => 0) 0x1000 0x401000 [.create [0x4000],.map 0x4000 0x400000 0xa000 6 [0x6000,0x7000,0x8000],
        .switch 0x4000,.create [0x5000]] = some [none,none] ∧
      translations (fun _ => 0) 0x1000 0x401000 [.create [0x4000],.map 0x4000 0x400000 0xa000 6 [0x6000,0x7000,0x8000],
        .switch 0x4000,.create [0x5000],.map 0x4000 0x401000 0xb000 6 []] = some [some 0xb000,some 0xb000] := by
  decide +kernel

end Kenux.PmapIsolation
