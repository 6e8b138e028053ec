import Kenux.Runs
import Kenux.Words

/-!
The dynamic linker (`ldso.c`): a table of loaded libraries, a search for a symbol
through their hash tables, and a cache of 256 results in front of it. The entries go
stale when a library is loaded or unloaded and when the buffer of a name is used again
(`ldso_cache_stale`). `ldso_run_coherent` proves that the cache makes no difference, and
that every address is one of a loaded library, for all runs in which the cache is empty
when a library comes or goes, up to the entries of the library that goes, and neither a cached
name nor a table is overwritten. Loads return, and are nested at most `LDSO_MAX_LIBS` deep
(`ldso_load_nested`), if the hash chains of the libraries end; a lookup on a chain that is a
circle does not return (`ldso_load_circles`).
-/
namespace Kenux.Ldso
open Kenux.Runs Kenux.Words
open Function (update update_self update_of_ne)

abbrev Name : Type := List (BitVec 8)

structure Sym where
  stName : Nat
  stInfo : BitVec 8
  stShndx : Nat
  stValue : Nat
  deriving DecidableEq

structure Rela where
  rOffset : Nat
  rInfo : Nat
  rAddend : Nat

/-- What there is at an address: a string, a 32-bit word, a symbol, a relocation; and if a word that begins there
    overlaps one of these that is in use. -/
structure Memory where
  text : Nat → Name
  word : Nat → Nat
  sym : Nat → Sym
  rela : Nat → Rela
  tables : Nat → Bool

structure Dyn where
  dTag : Int
  dVal : Nat

structure Klib where
  baseAddr : Nat
  name : Name
  symtab : Nat
  symCount : Nat
  strtab : Nat
  hash : Nat
  hashNbucket : Nat
  pltRels : Nat
  pltRelsz : Nat
  rels : Nat
  relsz : Nat
  refCount : Int

/-- `sym_cache_entry_t`; 0 is `NULL`, and the owner is a place in the table. -/
structure CacheEntry where
  name : Nat
  addr : Nat
  owner : Option Nat
  hits : Nat

/-- The memory that lookups read, the words that relocations write, and `ldso_state_t`. -/
structure State where
  mem : Memory
  cells : Nat → Nat
  libs : Nat → Klib
  libCount : Nat
  symCache : Fin 256 → CacheEntry
  totalRelocs : Nat
  totalLookups : Nat
  cacheHits : Nat

/-! ### Lookups -/

/-- The body of the loop of `ldso_elf_hash`: `high` is a `uint8_t`. -/
def elfHashStep (h : BitVec 32) (c : BitVec 8) : BitVec 32 :=
  let h := (h <<< 4) + c.setWidth 32
  let high : BitVec 8 := (h &&& 0xF0000000).setWidth 8
  let h := if high ≠ 0 then h ^^^ (high.setWidth 32 >>> 24) else h
  h &&& ~~~(high.setWidth 32)

def ldsoElfHash (name : Name) : Nat := (name.foldl elfHashStep 0).toNat

def cacheIdx (name : Name) : Fin 256 := ⟨ldsoElfHash name % 256,Nat.mod_lt _ (by decide)⟩

def stbGlobal : BitVec 8 := 1
def stbWeak : BitVec 8 := 2

def symAddr (lib : Klib) (i : Nat) : Nat := add64 lib.symtab (24 * i)

def bucketAddr (lib : Klib) (i : Nat) : Nat := add64 lib.hash (8 + 4 * i)
def chainAddr (lib : Klib) (i : Nat) : Nat := add64 lib.hash (8 + 4 * lib.hashNbucket + 4 * i)

/-- What a search has found: an address and its library. -/
abbrev Found : Type := Nat × Option Nat

/-- The walk along a chain of the hash table of the library at place `i`. The second result is the jump to `found`;
    `none` if the walk has not ended after `n` symbols. -/
def walkChain (mem : Memory) (lib : Klib) (i : Nat) (name : Name) : Nat → Nat → Found → Option (Found × Bool)
  | 0, _, _ => none
  | n+1, symIdx, found =>
    if symIdx = 0 ∨ symIdx ≥ lib.symCount then some (found,false)
    else
      let sym := mem.sym (symAddr lib symIdx)
      let addr := add64 lib.baseAddr sym.stValue
      let rest := walkChain mem lib i name n (mem.word (chainAddr lib symIdx))
      if sym.stShndx ≠ 0 ∧ sym.stName ≠ 0 ∧ mem.text (add64 lib.strtab sym.stName) = name then
        let bind := sym.stInfo >>> 4
        if bind = stbGlobal then some ((addr,some i),true)
        else if bind = stbWeak ∧ found.1 = 0 then rest (addr,some i)
        else rest found
      else rest found

def searchLibs (n : Nat) (mem : Memory) (libs : Nat → Klib) (name : Name) : List Nat → Found → Option Found
  | [], found => some found
  | i :: rest, found =>
    let lib := libs i
    if lib.symtab = 0 ∨ lib.hash = 0 ∨ lib.hashNbucket = 0 then searchLibs n mem libs name rest found
    else
      let bucket := mem.word (bucketAddr lib (ldsoElfHash name % lib.hashNbucket))
      (walkChain mem lib i name n bucket found).bind (fun out =>
        if out.2 then some out.1 else searchLibs n mem libs name rest out.1)

def search (n : Nat) (s : State) (name : Name) : Option Found :=
  searchLibs n s.mem s.libs name (List.range s.libCount) (0,none)

/-- `ldso_lookup_symbol` of the string at an address; `none` if the search does not end. -/
def ldsoLookupSymbol (n : Nat) (name : Nat) (s : State) : Option (Nat × State) :=
  let text := s.mem.text name
  if name = 0 ∨ text = [] then some (0,s)
  else
    let s := { s with totalLookups := add64 s.totalLookups 1 }
    let cached := s.symCache (cacheIdx text)
    if cached.name ≠ 0 ∧ cached.addr ≠ 0 ∧ s.mem.text cached.name = text then
      some (cached.addr,{ s with
        symCache := update s.symCache (cacheIdx text) { cached with hits := (cached.hits + 1) % 2^32 }
        cacheHits := add64 s.cacheHits 1 })
    else
      (search n s text).map (fun found =>
        if found.1 ≠ 0 then
          (found.1,{ s with symCache := update s.symCache (cacheIdx text) ⟨name,found.1,found.2,1⟩ })
        else (found.1,s))

/-- The lookup without the cache. -/
def cacheFree (n : Nat) (name : Nat) (s : State) : Option Nat :=
  if name = 0 ∨ s.mem.text name = [] then some 0 else (search n s (s.mem.text name)).map Prod.fst

/-! ### Loading -/

def ldsoMaxLibs : Nat := 64
def ldsoMaxRels : Nat := 8192

def fileName (path : Name) : Name := path.foldl (fun front c => if c = 47 then [] else front ++ [c]) []

def ldsoFindLoaded (path : Name) (s : State) : Option Nat :=
  (List.range s.libCount).find? (fun i => fileName (s.libs i).name = fileName path)

def dtNeeded : Int := 1

/-- The `switch` of `ldso_parse_dynamic`, for the tags that the lookups and relocations use. -/
def parseEntry (mem : Memory) (dyn : Dyn) (lib : Klib) : Klib :=
  let ptr := add64 lib.baseAddr dyn.dVal
  if dyn.dTag = 6 then { lib with symtab := ptr }
  else if dyn.dTag = 5 then { lib with strtab := ptr }
  else if dyn.dTag = 4 then { lib with hash := ptr, hashNbucket := mem.word ptr, symCount := mem.word (add64 ptr 4) }
  else if dyn.dTag = 23 then { lib with pltRels := ptr }
  else if dyn.dTag = 2 then { lib with pltRelsz := dyn.dVal }
  else if dyn.dTag = 17 then { lib with rels := ptr }
  else if dyn.dTag = 18 then { lib with relsz := dyn.dVal }
  else lib

/-- The entries of a dynamic section up to `DT_NULL`. -/
def dynEntries (entries : List Dyn) : List Dyn := entries.takeWhile (fun dyn => dyn.dTag ≠ 0)

def ldsoParseDynamic (mem : Memory) (entries : List Dyn) (lib : Klib) : Klib :=
  (dynEntries entries).foldl (fun lib dyn => parseEntry mem dyn lib) lib

/-- The path of a library that is needed, if it is not too long. -/
def depPath (depName : Name) : Option Name :=
  if depName = [] then none
  else
    let path := if depName.head? = some 47 then depName else "/lib/".toList.map (fun c => BitVec.ofNat 8 c.toNat) ++ depName
    if path.length ≥ 512 then none else some path

def State.addRef (i : Nat) (delta : Int) (s : State) : State :=
  { s with libs := update s.libs i { s.libs i with refCount := (s.libs i).refCount + delta } }

/-- `ldso_load_dependencies` of the library at a place, with `ldso_load_library` as `load`. -/
def ldsoLoadDependencies (load : Name → State → Option State) (slot : Nat) : List Dyn → State → Option State
  | [], s => some s
  | dyn :: rest, s =>
    if dyn.dTag ≠ dtNeeded then ldsoLoadDependencies load slot rest s
    else match depPath (s.mem.text (add64 (s.libs slot).strtab dyn.dVal)) with
      | none => ldsoLoadDependencies load slot rest s
      | some path =>
        match ldsoFindLoaded path s with
        | some i => ldsoLoadDependencies load slot rest (s.addRef i 1)
        | none => (load path s).bind (ldsoLoadDependencies load slot rest)

/-- A store to a relocated word. It changes none of the strings and tables that lookups read; the model ends where it
    would. -/
def State.store (target value : Nat) (s : State) : Option State :=
  if s.mem.tables target then none
  else some { s with cells := update s.cells target value, totalRelocs := add64 s.totalRelocs 1 }

/-- One relocation, from the table of the procedure linkage or from the other one. -/
def relocateOne (n : Nat) (plt : Bool) (lib : Klib) (rel : Rela) (s : State) : Option State :=
  let type := rel.rInfo % 2^32
  let target := add64 lib.baseAddr rel.rOffset
  let name := add64 lib.strtab (s.mem.sym (symAddr lib (rel.rInfo / 2^32))).stName
  if type = 3 ∨ type = 4 ∧ plt then (ldsoLookupSymbol n name s).bind (fun out => out.2.store target out.1)
  else if type = 5 then s.store target (add64 lib.baseAddr rel.rAddend)
  else if type = 1 then (ldsoLookupSymbol n name s).bind (fun out => out.2.store target (add64 out.1 rel.rAddend))
  else if type = 2 then
    (ldsoLookupSymbol n name s).bind (fun out =>
      let old := out.2.cells target
      out.2.store target (old / 2^32 * 2^32 + sub64 (add64 out.1 rel.rAddend) target % 2^32))
  else some s

/-- The addresses of the entries of a relocation table. -/
def relaEntries (table size : Nat) : List Nat :=
  if table ≠ 0 ∧ size > 0 then (List.range (min (size / 24) ldsoMaxRels)).map (fun i => add64 table (24 * i)) else []

def relocateTable (n : Nat) (plt : Bool) (lib : Klib) : List Nat → State → Option State
  | [], s => some s
  | rel :: rest, s => (relocateOne n plt lib (s.mem.rela rel) s).bind (relocateTable n plt lib rest)

def ldsoRelocate (n : Nat) (slot : Nat) (s : State) : Option State :=
  let lib := s.libs slot
  (relocateTable n true lib (relaEntries lib.pltRels lib.pltRelsz) s).bind
    (relocateTable n false lib (relaEntries lib.rels lib.relsz))

/-- What the file system gives for a path with a valid ELF header: whether the program headers can be read and have a
    segment, what reading the segments makes of the memory and whether it succeeds, and the entries of the dynamic
    section, if it can be read. Without a dynamic section there are none. -/
structure Image where
  phdrs : Bool
  segments : Memory → Memory × Bool
  dynamic : Option (List Dyn)

/-- The first range of a new `vma_t`, which every library gets. -/
def mapBase : Nat := 0xFFFFFFFF80100000

def newLib (path : Name) : Klib := ⟨0,path.take 255,0,0,0,0,0,0,0,0,0,1⟩

/-- The new library in the table, after its segments and its dynamic section were read. -/
def placed (path : Name) (image : Image) (entries : List Dyn) (s : State) : State :=
  let mem := (image.segments s.mem).1
  let lib := ldsoParseDynamic mem entries { newLib path with baseAddr := mapBase }
  { s with mem, libs := update s.libs s.libCount lib, libCount := s.libCount + 1 }

/-- `ldso_load_library`: the place of the library. Each level of dependencies takes a place of the table, so 65 levels
    are never used up. -/
def loadLibrary (n : Nat) (files : Name → Option Image) : Nat → Name → State → Option (Option Nat × State)
  | 0, _, _ => none
  | levels+1, path, s =>
    match files path with
    | none => some (none,s)
    | some image =>
      if s.libCount ≥ ldsoMaxLibs then some (none,s)
      else match ldsoFindLoaded path s with
        | some i => some (some i,s.addRef i 1)
        | none =>
          let slot := s.libCount
          if image.phdrs = false then some (none,{ s with libs := update s.libs slot (newLib path) })
          else
            let failed := { s with
              mem := (image.segments s.mem).1
              libs := update s.libs slot { newLib path with baseAddr := mapBase } }
            if (image.segments s.mem).2 = false then some (none,failed)
            else match image.dynamic with
              | none => some (none,failed)
              | some entries =>
                (ldsoLoadDependencies (fun path s => (loadLibrary n files levels path s).map Prod.snd) slot (dynEntries entries)
                  (placed path image entries s)).bind (fun s => (ldsoRelocate n slot s).map (Prod.mk (some slot)))

def ldsoLoadLibrary (n : Nat) (files : Name → Option Image) (path : Name) (s : State) : Option (Option Nat × State) :=
  loadLibrary n files (ldsoMaxLibs + 1) path s

def noEntry : CacheEntry := ⟨0,0,none,0⟩

/-- `ldso_unload_library` of the library at a place. `mem` is the memory after its pages were unmapped and freed. -/
def ldsoUnloadLibrary (slot : Nat) (mem : Memory) (s : State) : State :=
  let s := s.addRef slot (-1)
  if (s.libs slot).refCount > 0 then s
  else
    let last := (s.libCount + (2^32 - 1)) % 2^32
    { s with
      mem
      libs := if slot < last then update s.libs slot (s.libs last) else s.libs
      libCount := last
      symCache := fun i => if (s.symCache i).owner = some slot then noEntry else s.symCache i }

inductive Request where
  | load (files : Name → Option Image) (path : Name)
  | unload (slot : Nat) (mem : Memory)
  | lookup (name : Nat)
  | write (mem : Memory)

/-- One call, or a write to memory by other code; `n` bounds the length of the chains. -/
def step (n : Nat) (s : State) : Request → Option State
  | .load files path => (ldsoLoadLibrary n files path s).map Prod.snd
  | .unload slot mem => some (ldsoUnloadLibrary slot mem s)
  | .lookup name => (ldsoLookupSymbol n name s).map Prod.snd
  | .write mem => some { s with mem }

/-- `ldso_init_state`. -/
def start (mem : Memory) (cells : Nat → Nat) : State :=
  ⟨mem,cells,fun _ => ⟨0,[],0,0,0,0,0,0,0,0,0,0⟩,0,fun _ => noEntry,0,0,0⟩

def Live (entry : CacheEntry) : Prop := entry.name ≠ 0 ∧ entry.addr ≠ 0

/-- The relocations of a library change nothing that lookups read. -/
def Apart (mem : Memory) (lib : Klib) : Prop :=
  ∀ rel ∈ relaEntries lib.pltRels lib.pltRelsz ++ relaEntries lib.rels lib.relsz,
    mem.tables (add64 lib.baseAddr (mem.rela rel).rOffset) = false

/-- The libraries that a new one needs are loaded, or cannot be. -/
def Settled (files : Name → Option Image) (path : Name) (image : Image) (entries : List Dyn) (s : State) : Prop :=
  ∀ dyn ∈ dynEntries entries, dyn.dTag = dtNeeded →
    ∀ dep ∈ depPath ((placed path image entries s).mem.text (add64 ((placed path image entries s).libs s.libCount).strtab dyn.dVal)),
      files dep = none ∨ ldsoFindLoaded dep (placed path image entries s) ≠ none

/-- Two memories have the same symbol and hash tables for a library. -/
@[mk_iff] structure SameTables (lib : Klib) (mem mem' : Memory) : Prop where
  bucket : ∀ i < lib.hashNbucket, mem'.word (bucketAddr lib i) = mem.word (bucketAddr lib i)
  chain : ∀ i < lib.symCount, mem'.word (chainAddr lib i) = mem.word (chainAddr lib i)
  sym : ∀ i < lib.symCount, mem'.sym (symAddr lib i) = mem.sym (symAddr lib i)
  text : ∀ i < lib.symCount, mem'.text (add64 lib.strtab (mem.sym (symAddr lib i)).stName) =
    mem.text (add64 lib.strtab (mem.sym (symAddr lib i)).stName)

/-- A library comes when the cache is empty and its own libraries are there, and goes when all entries are its own; writes,
    and the relocations of a library that comes, change neither the tables nor a name in the cache. -/
def Meets (s : State) : Request → Prop
  | .load files path => ∀ image ∈ files path, s.libCount < ldsoMaxLibs → ldsoFindLoaded path s = none →
      (∀ i, ¬ Live (s.symCache i)) ∧ ∀ entries ∈ image.dynamic, Settled files path image entries s ∧
        Apart (placed path image entries s).mem ((placed path image entries s).libs s.libCount)
  | .unload slot _ => slot < s.libCount ∧
      ((s.libs slot).refCount ≤ 1 → ∀ i, Live (s.symCache i) → (s.symCache i).owner = some slot)
  | .lookup _ => True
  | .write mem => (∀ i < s.libCount, SameTables (s.libs i) s.mem mem) ∧
      ∀ i, Live (s.symCache i) → mem.text (s.symCache i).name = s.mem.text (s.symCache i).name

def Defines (mem : Memory) (lib : Klib) (name : Name) (addr : Nat) : Prop :=
  ∃ i < lib.symCount, let sym := mem.sym (symAddr lib i)
    sym.stShndx ≠ 0 ∧ mem.text (add64 lib.strtab sym.stName) = name ∧ addr = add64 lib.baseAddr sym.stValue

variable {n : Nat} {mem mem' : Memory} {lib : Klib} {libs libs' : Nat → Klib} {name : Name} {s t : State}

theorem walkChain_defines {i : Nat} : ∀ {n symIdx : Nat} {found out : Found} {stop : Bool},
    walkChain mem lib i name n symIdx found = some (out,stop) → out = found ∨ Defines mem lib name out.1
  | 0, _, _, _, _, walked => nomatch walked
  | n+1, symIdx, found, out, stop, walked => by
    simp only [walkChain] at walked
    split_ifs at walked with ended named global weak
    · cases walked
      exact .inl rfl
    all_goals
      have inside : symIdx < lib.symCount := Nat.lt_of_not_ge (fun out => ended (.inr out))
    · cases walked
      exact .inr ⟨symIdx,inside,named.1,named.2.2,rfl⟩
    · rcases walkChain_defines walked with rfl | defines
      · exact .inr ⟨symIdx,inside,named.1,named.2.2,rfl⟩
      · exact .inr defines
    · exact walkChain_defines walked
    · exact walkChain_defines walked

theorem searchLibs_defines : ∀ {places : List Nat} {found out : Found}, searchLibs n mem libs name places found = some out →
    out = found ∨ ∃ i ∈ places, Defines mem (libs i) name out.1
  | [], found, out, searched => by
    cases searched
    exact .inl rfl
  | i :: rest, found, out, searched => by
    have later : ∀ {early : Found}, searchLibs n mem libs name rest early = some out →
        out = early ∨ ∃ j ∈ i :: rest, Defines mem (libs j) name out.1 := by
      intro early searched
      exact (searchLibs_defines searched).imp id (fun ⟨j,member,defines⟩ => ⟨j,List.mem_cons_of_mem _ member,defines⟩)
    rw [searchLibs] at searched
    split_ifs at searched with skipped
    · exact later searched
    · obtain ⟨⟨mid,stop⟩,walked,searched⟩ := Option.bind_eq_some_iff.mp searched
      have here := walkChain_defines walked
      cases stop with
      | true =>
        cases searched
        exact here.imp id (fun defines => ⟨i,List.mem_cons_self,defines⟩)
      | false =>
        rcases later searched with rfl | defines
        · exact here.imp id (fun defines => ⟨i,List.mem_cons_self,defines⟩)
        · exact .inr defines

theorem SameTables.refl (lib : Klib) (mem : Memory) : SameTables lib mem mem :=
  ⟨fun _ _ => rfl,fun _ _ => rfl,fun _ _ => rfl,fun _ _ => rfl⟩

theorem walkChain_congr (same : SameTables lib mem mem') (count : Int) (i n symIdx : Nat) (found : Found) :
    walkChain mem' { lib with refCount := count } i name n symIdx found = walkChain mem lib i name n symIdx found := by
  induction n generalizing symIdx found with
  | zero => rfl
  | succ n ih =>
    rw [walkChain,walkChain]
    by_cases ended : symIdx = 0 ∨ symIdx ≥ lib.symCount
    · rw [if_pos ended,if_pos ended]
    · have inside : symIdx < lib.symCount := Nat.lt_of_not_ge (fun out => ended (.inr out))
      have sym : mem'.sym (symAddr { lib with refCount := count } symIdx) = mem.sym (symAddr lib symIdx) := same.sym symIdx inside
      have chain : mem'.word (chainAddr { lib with refCount := count } symIdx) = mem.word (chainAddr lib symIdx) :=
        same.chain symIdx inside
      simp only [sym,chain,same.text symIdx inside,ih]

theorem searchLibs_congr : ∀ (places : List Nat) (found : Found),
    (∀ i ∈ places, SameTables (libs i) mem mem' ∧ ∃ count, libs' i = { libs i with refCount := count }) →
    searchLibs n mem' libs' name places found = searchLibs n mem libs name places found
  | [], _, _ => rfl
  | i :: rest, found, same => by
    have later : ∀ found, searchLibs n mem' libs' name rest found = searchLibs n mem libs name rest found :=
      fun found => searchLibs_congr rest found (fun j member => same j (List.mem_cons_of_mem _ member))
    obtain ⟨tables,count,is⟩ := same i List.mem_cons_self
    simp only [searchLibs,is,later]
    by_cases skipped : (libs i).symtab = 0 ∨ (libs i).hash = 0 ∨ (libs i).hashNbucket = 0
    · rw [if_pos skipped,if_pos skipped]
    · have inside : ldsoElfHash name % (libs i).hashNbucket < (libs i).hashNbucket :=
        Nat.mod_lt _ (Nat.pos_of_ne_zero (fun zero => skipped (.inr (.inr zero))))
      have bucket : ∀ b < (libs i).hashNbucket, mem'.word (bucketAddr { libs i with refCount := count } b) =
          mem.word (bucketAddr (libs i) b) := tables.bucket
      rw [bucket _ inside,walkChain_congr tables]

private theorem addRef_libs (i : Nat) (delta : Int) (s : State) (j : Nat) :
    ∃ count, (s.addRef i delta).libs j = { s.libs j with refCount := count } := by
  dsimp only [State.addRef]
  exact update_cases ⟨_,rfl⟩ (fun _ _ => ⟨_,rfl⟩) j

private theorem search_addRef (i : Nat) (delta : Int) (name : Name) : search n (s.addRef i delta) name = search n s name :=
  searchLibs_congr _ _ (fun j _ => ⟨SameTables.refl _ _,addRef_libs i delta s j⟩)

/-- Every entry has the address that a search for its name gives. -/
def Coherent (n : Nat) (s : State) : Prop :=
  ∀ i, Live (s.symCache i) → (search n s (s.mem.text (s.symCache i).name)).map Prod.fst = some (s.symCache i).addr

private theorem coherent_of_empty (empty : ∀ i, ¬ Live (s.symCache i)) : Coherent n s :=
  fun i live => absurd live (empty i)

theorem Coherent.congr (coherent : Coherent n s) (cache : t.symCache = s.symCache) (mem : t.mem = s.mem)
    (same : ∀ name, search n t name = search n s name) : Coherent n t := by
  intro i live
  rw [cache] at live ⊢
  rw [mem,same]
  exact coherent i live

theorem Coherent.put {entry : CacheEntry} (coherent : Coherent n s)
    (right : Live entry → (search n s (s.mem.text entry.name)).map Prod.fst = some entry.addr) (i : Fin 256) :
    Coherent n { s with symCache := update s.symCache i entry } := by
  intro j
  dsimp only
  cases j using update_cases with
  | here => exact right
  | others j _ => exact coherent j

theorem lookup_spec (coherent : Coherent n s) (name : Nat) :
    (ldsoLookupSymbol n name s).map Prod.fst = cacheFree n name s ∧
      ∀ out, ldsoLookupSymbol n name s = some out → Coherent n out.2 := by
  unfold ldsoLookupSymbol cacheFree
  dsimp only
  split
  · refine ⟨rfl,?_⟩
    rintro out ⟨⟩
    exact coherent
  split
  case isTrue hit =>
    have cached := coherent _ ⟨hit.1,hit.2.1⟩
    rw [hit.2.2] at cached
    refine ⟨cached.symm,?_⟩
    rintro out ⟨⟩
    refine (coherent.put ?_ _).congr rfl rfl (fun _ => rfl)
    exact fun live => coherent _ live
  case isFalse miss =>
    have same : search n { s with totalLookups := add64 s.totalLookups 1 } (s.mem.text name) = search n s (s.mem.text name) := rfl
    rw [same]
    cases found : search n s (s.mem.text name) with
    | none => exact ⟨rfl,nofun⟩
    | some found' =>
      rw [Option.map_some]
      split
      · refine ⟨rfl,?_⟩
        rintro out ⟨⟩
        have right : (search n s (s.mem.text name)).map Prod.fst = some found'.1 := by rw [found,Option.map_some]
        exact (coherent.put (fun _ => right) _).congr rfl rfl (fun _ => rfl)
      · refine ⟨rfl,?_⟩
        rintro out ⟨⟩
        exact coherent

private theorem store_coherent {target value : Nat} (coherent : Coherent n s) (stored : s.store target value = some t) : Coherent n t := by
  unfold State.store at stored
  split at stored
  · cases stored
  · cases stored
    exact coherent.congr rfl rfl (fun _ => rfl)

variable {plt : Bool} {slot : Nat} {files : Name → Option Image}

theorem relocateOne_coherent {rel : Rela} (coherent : Coherent n s)
    (relocated : relocateOne n plt lib rel s = some t) : Coherent n t := by
  have looked : ∀ {name : Nat} {value : Nat × State → Nat} {target : Nat},
      (ldsoLookupSymbol n name s).bind (fun out => out.2.store target (value out)) = some t → Coherent n t := by
    intro name value target done
    obtain ⟨out,lookup,stored⟩ := Option.bind_eq_some_iff.mp done
    exact store_coherent ((lookup_spec coherent name).2 out lookup) stored
  simp only [relocateOne] at relocated
  split_ifs at relocated
  · exact looked relocated
  · exact store_coherent coherent relocated
  · exact looked relocated
  · exact looked relocated
  · cases relocated
    exact coherent

theorem relocateTable_coherent : ∀ {entries : List Nat} {s : State}, Coherent n s →
    relocateTable n plt lib entries s = some t → Coherent n t
  | [], s, coherent, relocated => by
    cases relocated
    exact coherent
  | i :: rest, s, coherent, relocated => by
    obtain ⟨u,one,more⟩ := Option.bind_eq_some_iff.mp relocated
    exact relocateTable_coherent (relocateOne_coherent coherent one) more

private theorem ldsoRelocate_coherent (coherent : Coherent n s) (relocated : ldsoRelocate n slot s = some t) : Coherent n t := by
  obtain ⟨u,first,second⟩ := Option.bind_eq_some_iff.mp relocated
  exact relocateTable_coherent (relocateTable_coherent coherent first) second

theorem ldsoFindLoaded_addRef (i : Nat) (delta : Int) (path : Name) : ldsoFindLoaded path (s.addRef i delta) = ldsoFindLoaded path s := by
  have names : ∀ j, ((s.addRef i delta).libs j).name = (s.libs j).name := by
    intro j
    obtain ⟨count,is⟩ := addRef_libs i delta s j
    rw [is]
  simp only [ldsoFindLoaded,names]
  rfl

private theorem strtab_addRef (i : Nat) (delta : Int) (slot : Nat) : ((s.addRef i delta).libs slot).strtab = (s.libs slot).strtab := by
  obtain ⟨count,is⟩ := addRef_libs i delta s slot
  rw [is]

theorem loadDependencies_cache {load : Name → State → Option State}
    (absent : ∀ path s, files path = none → load path s = some s) : ∀ {entries : List Dyn} {s : State},
    (∀ dyn ∈ entries, dyn.dTag = dtNeeded → ∀ dep ∈ depPath (s.mem.text (add64 (s.libs slot).strtab dyn.dVal)),
      files dep = none ∨ ldsoFindLoaded dep s ≠ none) →
    ldsoLoadDependencies load slot entries s = some t → t.symCache = s.symCache
  | [], s, _, loaded => by
    cases loaded
    rfl
  | dyn :: rest, s, settled, loaded => by
    have later := fun d member => settled d (List.mem_cons_of_mem _ member)
    unfold ldsoLoadDependencies at loaded
    split_ifs at loaded with other
    · exact loadDependencies_cache absent later loaded
    split at loaded
    next => exact loadDependencies_cache absent later loaded
    next dep path =>
      have known := settled dyn List.mem_cons_self (not_not.mp other) dep path
      split at loaded
      next i found =>
        refine loadDependencies_cache (s := s.addRef i 1) absent ?_ loaded
        intro d member needed p there
        rw [strtab_addRef] at there
        rw [ldsoFindLoaded_addRef]
        exact later d member needed p there
      next found =>
        rw [absent dep s (known.resolve_right (not_not.mpr found))] at loaded
        exact loadDependencies_cache absent later loaded

theorem load_coherent {path : Name} {slot : Option Nat} (coherent : Coherent n s)
    (meets : Meets s (.load files path)) (loaded : ldsoLoadLibrary n files path s = some (slot,t)) : Coherent n t := by
  unfold ldsoLoadLibrary loadLibrary at loaded
  split at loaded
  next =>
    cases loaded
    exact coherent
  next image file =>
    split at loaded
    case isTrue =>
      cases loaded
      exact coherent
    rename_i full
    split at loaded
    next i found =>
      cases loaded
      exact coherent.congr rfl rfl (search_addRef i 1)
    next found =>
      obtain ⟨empty,settled⟩ := meets image file (Nat.lt_of_not_ge full) found
      split_ifs at loaded with phdrs segments
      · cases loaded
        exact coherent_of_empty empty
      · cases loaded
        exact coherent_of_empty empty
      split at loaded
      next =>
        cases loaded
        exact coherent_of_empty empty
      next entries dynamic =>
        obtain ⟨u,dependencies,rest⟩ := Option.bind_eq_some_iff.mp loaded
        obtain ⟨v,relocated,done⟩ := Option.map_eq_some_iff.mp rest
        cases done
        have absent : ∀ path s, files path = none →
            (loadLibrary n files ldsoMaxLibs path s).map Prod.snd = some s := by
          intro path s none
          unfold ldsoMaxLibs loadLibrary
          rw [none]
          rfl
        have cache := loadDependencies_cache absent (settled entries dynamic).1 dependencies
        refine ldsoRelocate_coherent (coherent_of_empty ?_) relocated
        rw [cache]
        exact empty

theorem unload_coherent (mem : Memory) (coherent : Coherent n s) (meets : Meets s (.unload slot mem)) :
    Coherent n (ldsoUnloadLibrary slot mem s) := by
  have count : ((s.addRef slot (-1)).libs slot).refCount = (s.libs slot).refCount + -1 := by simp [State.addRef]
  unfold ldsoUnloadLibrary
  dsimp only
  split
  case isTrue => exact coherent.congr rfl rfl (search_addRef slot (-1))
  case isFalse last =>
    have owned := meets.2 (by omega)
    refine coherent_of_empty (fun i => ?_)
    dsimp only
    split
    case isTrue => exact fun live => live.1 rfl
    case isFalse other => exact fun live => other (owned i live)

theorem write_coherent (coherent : Coherent n s) (meets : Meets s (.write mem)) : Coherent n { s with mem } := by
  intro i live
  have same : ∀ name, search n { s with mem } name = search n s name := fun name =>
    searchLibs_congr _ _ (fun j member => ⟨meets.1 j (List.mem_range.mp member),(s.libs j).refCount,rfl⟩)
  rw [same]
  exact (congrArg (fun text => (search n s text).map Prod.fst) (meets.2 i live)).trans (coherent i live)

theorem step_coherent (request : Request) (coherent : Coherent n s) (meets : Meets s request) (stepped : step n s request = some t) :
    Coherent n t := by
  cases request with
  | load files path =>
    obtain ⟨⟨slot,_⟩,loaded,rfl⟩ := Option.map_eq_some_iff.mp stepped
    exact load_coherent coherent meets loaded
  | unload slot mem =>
    cases stepped
    exact unload_coherent mem coherent meets
  | lookup name =>
    obtain ⟨out,looked,rfl⟩ := Option.map_eq_some_iff.mp stepped
    exact (lookup_spec coherent name).2 out looked
  | write mem =>
    cases stepped
    exact write_coherent coherent meets

instance (entry : CacheEntry) : Decidable (Live entry) := inferInstanceAs (Decidable (_ ∧ _))

instance (files : Name → Option Image) (path : Name) (image : Image) (entries : List Dyn) (s : State) :
    Decidable (Settled files path image entries s) := by
  unfold Settled
  infer_instance

instance (lib : Klib) (mem mem' : Memory) : Decidable (SameTables lib mem mem') := decidable_of_iff _ (sameTables_iff ..).symm

instance (mem : Memory) (lib : Klib) : Decidable (Apart mem lib) := by
  unfold Apart
  infer_instance

instance (s : State) : ∀ request, Decidable (Meets s request)
  | .load files path =>
    inferInstanceAs (Decidable (∀ image ∈ files path, _ → _ → _ ∧ ∀ entries ∈ image.dynamic, Settled .. ∧ Apart ..))
  | .unload .. | .write _ => inferInstanceAs (Decidable (_ ∧ _))
  | .lookup _ => .isTrue trivial

def bytes (text : String) : Name := text.toList.map (fun c => BitVec.ofNat 8 c.toNat)

def someMemory (info : BitVec 8) (value : Nat) (text : String) : Memory where
  text a := if a = mapBase + 0x201 then bytes "r" else if a = 0x5000 then bytes text else []
  word a := if a = mapBase + 0x300 ∨ a = mapBase + 0x308 then 1 else if a = mapBase + 0x304 then 2 else 0
  sym a := if a = mapBase + 0x118 then ⟨1,info,1,value⟩ else ⟨0,0,0,0⟩
  rela a := if a = mapBase + 0x400 then ⟨0x500,2^32 + 4,0⟩ else ⟨0,0,0⟩
  tables a := mapBase + 0xF8 < a ∧ a < mapBase + 0x418

def someFiles (path : Name) : Option Image :=
  let tables : List Dyn := [⟨6,0x100⟩,⟨5,0x200⟩,⟨4,0x300⟩]
  if path = bytes "/lib/weak" then some ⟨true,fun _ => (someMemory 0x20 0x10 "r",true),some tables⟩
  else if path = bytes "/lib/global" then some ⟨true,fun _ => (someMemory 0x10 0x20 "r",true),some (tables ++ [⟨23,0x400⟩,⟨2,24⟩])⟩
  else if path = bytes "/lib/empty" then some ⟨true,fun mem => (mem,true),some []⟩
  else none

def loads (name : String) : Request := .load someFiles (bytes ("/lib/" ++ name))

def initial : State := start (someMemory 0x10 0x20 "r") (fun _ => 0)

def someRun : List Request :=
  [loads "global",.lookup 0x5000,.write (someMemory 0x10 0x20 "r"),.unload 0 (someMemory 0 0 "r"),loads "weak",.lookup 0x5000]

def results (requests : List Request) : Option (Option Nat × Option Nat) :=
  (run (step 8) initial requests).map (fun s => ((ldsoLookupSymbol 8 0x5000 s).map Prod.fst,cacheFree 8 0x5000 s))

/-- The chain that begins with the symbol ends within so many symbols. -/
def chainEnds (mem : Memory) (lib : Klib) : Nat → Nat → Bool
  | 0, _ => false
  | n+1, symIdx => symIdx = 0 || symIdx ≥ lib.symCount || chainEnds mem lib n (mem.word (chainAddr lib symIdx))

/-- The memories that loading the segments of files, in any order, can make. -/
inductive Contents (files : Name → Option Image) (mem : Memory) : Memory → Prop where
  | same : Contents files mem mem
  | load {m : Memory} {path : Name} {image : Image} (before : Contents files mem m) (file : files path = some image) :
      Contents files mem (image.segments m).1

/-- The libraries in the table and those that a load can put there, with any number of references. -/
def Library (files : Name → Option Image) (s : State) (lib : Klib) : Prop :=
  ∃ count, (∃ i < s.libCount, lib = { s.libs i with refCount := count }) ∨
    ∃ path image entries m, files path = some image ∧ image.dynamic = some entries ∧ Contents files s.mem m ∧
      lib = { ldsoParseDynamic m entries { newLib path with baseAddr := mapBase } with refCount := count }

/-- Whatever has been loaded, the hash chains end, and relocations change nothing that lookups read. -/
structure Loadable (n : Nat) (files : Name → Option Image) (s : State) : Prop where
  ends : ∀ m, Contents files s.mem m → ∀ lib, Library files s lib → ∀ i, chainEnds m lib n i = true
  apart : ∀ m, Contents files s.mem m → ∀ lib, Library files s lib → Apart m lib

theorem walkChain_returns {i : Nat} : ∀ {n symIdx : Nat} {found : Found}, chainEnds mem lib n symIdx = true →
    ∃ out, walkChain mem lib i name n symIdx found = some out
  | n+1, symIdx, found, ends => by
    rw [walkChain]
    split_ifs with last
    · exact ⟨_,rfl⟩
    · simp only [chainEnds,Bool.or_eq_true,decide_eq_true_eq] at ends
      have more := ends.resolve_left last
      dsimp only
      split_ifs
      · exact ⟨_,rfl⟩
      all_goals exact walkChain_returns more

theorem searchLibs_returns : ∀ {places : List Nat} {found : Found}, (∀ j ∈ places, ∀ i, chainEnds mem (libs j) n i = true) →
    ∃ out, searchLibs n mem libs name places found = some out
  | [], found, _ => ⟨found,rfl⟩
  | j :: rest, found, ends => by
    obtain ⟨here,later⟩ := List.forall_mem_cons.mp ends
    rw [searchLibs]
    dsimp only
    split
    · exact searchLibs_returns later
    · obtain ⟨out,walked⟩ := @walkChain_returns mem (libs j) name j n _ found (here _)
      rw [walked,Option.bind_some]
      split
      · exact ⟨_,rfl⟩
      · exact searchLibs_returns later

/-- What lookups and relocations leave as it is. -/
structure SameLibs (s t : State) : Prop where
  mem : t.mem = s.mem
  libs : t.libs = s.libs
  libCount : t.libCount = s.libCount

theorem SameLibs.trans {u : State} (first : SameLibs s t) (second : SameLibs t u) : SameLibs s u :=
  ⟨second.mem.trans first.mem,second.libs.trans first.libs,second.libCount.trans first.libCount⟩

/-- The chains of all libraries in the table end. -/
def Ending (n : Nat) (s : State) : Prop := ∀ j < s.libCount, ∀ i, chainEnds s.mem (s.libs j) n i = true

theorem Ending.congr (ending : Ending n s) (same : SameLibs s t) : Ending n t := by
  rw [Ending,same.mem,same.libs,same.libCount]
  exact ending

theorem lookup_returns (ending : Ending n s) (name : Nat) : ∃ out, ldsoLookupSymbol n name s = some out ∧ SameLibs s out.2 := by
  unfold ldsoLookupSymbol
  dsimp only
  split
  · exact ⟨_,rfl,rfl,rfl,rfl⟩
  split
  · exact ⟨_,rfl,rfl,rfl,rfl⟩
  · obtain ⟨found,searched⟩ := @searchLibs_returns n s.mem s.libs (s.mem.text name) (List.range s.libCount) (0,none)
      (fun j member => ending j (List.mem_range.mp member))
    rw [search,searched,Option.map_some]
    refine ⟨_,rfl,?_⟩
    split <;> exact ⟨rfl,rfl,rfl⟩

theorem relocateOne_returns {rel : Rela} (ending : Ending n s) (apart : s.mem.tables (add64 lib.baseAddr rel.rOffset) = false) :
    ∃ t, relocateOne n plt lib rel s = some t ∧ SameLibs s t := by
  have stored : ∀ {u : State} (value : Nat), SameLibs s u →
      ∃ t, u.store (add64 lib.baseAddr rel.rOffset) value = some t ∧ SameLibs s t := by
    intro u value same
    rw [← same.mem] at apart
    rw [State.store,apart]
    exact ⟨_,rfl,same.trans ⟨rfl,rfl,rfl⟩⟩
  have looked : ∀ (name : Nat) (value : Nat × State → Nat), ∃ t, (ldsoLookupSymbol n name s).bind (fun out =>
      out.2.store (add64 lib.baseAddr rel.rOffset) (value out)) = some t ∧ SameLibs s t := by
    intro name value
    obtain ⟨out,lookup,same⟩ := lookup_returns ending name
    rw [lookup,Option.bind_some]
    exact stored _ same
  unfold relocateOne
  dsimp only
  split_ifs
  · exact looked _ _
  · exact stored _ ⟨rfl,rfl,rfl⟩
  · exact looked _ (fun out => add64 out.1 rel.rAddend)
  · exact looked _ (fun out => out.2.cells (add64 lib.baseAddr rel.rOffset) / 2^32 * 2^32 +
      sub64 (add64 out.1 rel.rAddend) (add64 lib.baseAddr rel.rOffset) % 2^32)
  · exact ⟨s,rfl,rfl,rfl,rfl⟩

theorem relocateTable_returns : ∀ {entries : List Nat} {s : State}, Ending n s →
    (∀ rel ∈ entries, s.mem.tables (add64 lib.baseAddr (s.mem.rela rel).rOffset) = false) →
    ∃ t, relocateTable n plt lib entries s = some t ∧ SameLibs s t
  | [], s, _, _ => ⟨s,rfl,rfl,rfl,rfl⟩
  | rel :: rest, s, ending, apart => by
    obtain ⟨here,later⟩ := List.forall_mem_cons.mp apart
    obtain ⟨u,one,same⟩ := @relocateOne_returns n lib s plt _ ending here
    rw [← same.mem] at later
    obtain ⟨t,more,same'⟩ := relocateTable_returns (ending.congr same) later
    exact ⟨t,by rw [relocateTable,one]; exact more,same.trans same'⟩

theorem ldsoRelocate_returns (ending : Ending n s) (apart : Apart s.mem (s.libs slot)) :
    ∃ t, ldsoRelocate n slot s = some t ∧ SameLibs s t := by
  obtain ⟨plt,other⟩ := List.forall_mem_append.mp apart
  obtain ⟨u,one,same⟩ := @relocateTable_returns n (s.libs slot) true _ s ending plt
  rw [← same.mem] at other
  obtain ⟨t,more,same'⟩ := @relocateTable_returns n (s.libs slot) false _ u (ending.congr same) other
  exact ⟨t,by rw [ldsoRelocate,one]; exact more,same.trans same'⟩

/-- The memory and the table are what loads can make of those of `origin`. -/
structure Loaded (files : Name → Option Image) (origin s : State) : Prop where
  contents : Contents files origin.mem s.mem
  libs : ∀ i < s.libCount, Library files origin (s.libs i)

section
variable {origin : State}

theorem Loaded.addRef (loaded : Loaded files origin s) (i : Nat) (delta : Int) : Loaded files origin (s.addRef i delta) := by
  refine ⟨loaded.contents,fun j inside => ?_⟩
  obtain ⟨count,is⟩ := addRef_libs i delta s j
  rw [is]
  obtain ⟨_,⟨k,below,known⟩ | ⟨path,image,entries,m,file,dynamic,contents,known⟩⟩ := loaded.libs j inside
  · exact ⟨count,.inl ⟨k,below,by rw [known]⟩⟩
  · exact ⟨count,.inr ⟨path,image,entries,m,file,dynamic,contents,by rw [known]⟩⟩

/-- What stands behind the last library is not looked at. -/
theorem Loaded.spare {m : Memory} {lib : Klib} (loaded : Loaded files origin s) (contents : Contents files origin.mem m) :
    Loaded files origin { s with mem := m, libs := update s.libs s.libCount lib } := by
  refine ⟨contents,fun i inside => ?_⟩
  dsimp only
  rw [update_of_ne (Nat.ne_of_lt inside)]
  exact loaded.libs i inside

theorem Loaded.placed {image : Image} {entries : List Dyn} (loaded : Loaded files origin s) (file : files path = some image)
    (dynamic : image.dynamic = some entries) : Loaded files origin (placed path image entries s) := by
  refine ⟨loaded.contents.load file,fun i inside => ?_⟩
  dsimp only [Ldso.placed]
  rcases Nat.lt_succ_iff_lt_or_eq.mp inside with before | rfl
  · rw [update_of_ne (Nat.ne_of_lt before)]
    exact loaded.libs i before
  · rw [update_self]
    exact ⟨_,.inr ⟨path,image,entries,_,file,dynamic,loaded.contents.load file,rfl⟩⟩

theorem dependencies_return {load : Name → State → Option State} {count : Nat} (entries : List Dyn)
    (returns : ∀ path s, Loaded files origin s → count ≤ s.libCount →
      ∃ t, load path s = some t ∧ Loaded files origin t ∧ count ≤ t.libCount)
    (loaded : Loaded files origin s) (above : count ≤ s.libCount) :
    ∃ t, ldsoLoadDependencies load slot entries s = some t ∧ Loaded files origin t ∧ count ≤ t.libCount := by
  induction entries generalizing s with
  | nil => exact ⟨s,rfl,loaded,above⟩
  | cons dyn rest ih =>
    unfold ldsoLoadDependencies
    split_ifs
    · exact ih loaded above
    split
    · exact ih loaded above
    split
    · exact ih (loaded.addRef _ 1) above
    · obtain ⟨t,one,still,more⟩ := returns _ s loaded above
      rw [one]
      exact ih still more

variable (loadable : Loadable n files origin)
include loadable

theorem load_step {levels : Nat} (path : Name) (loaded : Loaded files origin s) (inner : s.libCount < ldsoMaxLibs →
      ∀ path u, Loaded files origin u → s.libCount < u.libCount →
        ∃ out, loadLibrary n files levels path u = some out ∧ Loaded files origin out.2 ∧ u.libCount ≤ out.2.libCount) :
    ∃ out, loadLibrary n files (levels+1) path s = some out ∧ Loaded files origin out.2 ∧ s.libCount ≤ out.2.libCount := by
  unfold loadLibrary
  cases file : files path with
  | none => exact ⟨_,rfl,loaded,Nat.le_refl _⟩
  | some image =>
    dsimp only
    by_cases full : s.libCount ≥ ldsoMaxLibs
    · rw [if_pos full]
      exact ⟨_,rfl,loaded,Nat.le_refl _⟩
    rw [if_neg full]
    cases ldsoFindLoaded path s with
    | some i => exact ⟨_,rfl,loaded.addRef i 1,Nat.le_refl _⟩
    | none =>
      dsimp only
      split_ifs
      · exact ⟨_,rfl,loaded.spare loaded.contents,Nat.le_refl _⟩
      · exact ⟨_,rfl,loaded.spare (loaded.contents.load file),Nat.le_refl _⟩
      cases dynamic : image.dynamic with
      | none => exact ⟨_,rfl,loaded.spare (loaded.contents.load file),Nat.le_refl _⟩
      | some entries =>
        -- the library has its place, so the loads it asks for find one place less
        have nested : ∀ path u, Loaded files origin u → s.libCount + 1 ≤ u.libCount →
            ∃ t, (loadLibrary n files levels path u).map Prod.snd = some t ∧ Loaded files origin t ∧ s.libCount + 1 ≤ t.libCount := by
          intro path u before more
          obtain ⟨out,ran,after,count⟩ := inner (Nat.lt_of_not_ge full) path u before more
          exact ⟨out.2,by rw [ran]; rfl,after,Nat.le_trans more count⟩
        obtain ⟨t,needed,after,above⟩ : ∃ t, ldsoLoadDependencies _ s.libCount (dynEntries entries) (placed path image entries s) =
            some t ∧ _ := dependencies_return _ nested (loaded.placed file dynamic) (Nat.le_refl _)
        have ending : Ending n t := fun j inside => loadable.ends t.mem after.contents _ (after.libs j inside)
        obtain ⟨u,relocated,same⟩ := ldsoRelocate_returns ending (loadable.apart t.mem after.contents _ (after.libs s.libCount above))
        refine ⟨(some s.libCount,u),?_,⟨same.mem ▸ after.contents,?_⟩,?_⟩
        · dsimp only
          rw [needed,Option.bind_some,relocated]
          rfl
        · rw [same.libs,same.libCount]
          exact after.libs
        · have count := same.libCount
          show s.libCount ≤ u.libCount
          omega

theorem load_returns (levels : Nat) (path : Name) (s : State) (loaded : Loaded files origin s)
    (enough : ldsoMaxLibs ≤ levels + s.libCount) : ∃ out, loadLibrary n files (levels+1) path s = some out ∧
      Loaded files origin out.2 ∧ s.libCount ≤ out.2.libCount := by
  induction levels generalizing path s with
  | zero => exact load_step loadable path loaded (fun room => by omega)
  | succ levels ih => exact load_step loadable path loaded (fun _ path u before more => ih path u before (by omega))

end

def needs : List Dyn := [⟨6,0x100⟩,⟨5,0x200⟩,⟨4,0x300⟩,⟨23,0x400⟩,⟨2,24⟩,⟨1,1⟩,⟨1,3⟩]

/-- Every path is a library with this memory, which needs those named at 0x201 and at 0x203. -/
def everywhere (mem : Memory) (_ : Name) : Option Image := some ⟨true,fun _ => (mem,true),some needs⟩

/-- Each library needs two others, and so itself. -/
def cycle : Memory :=
  { someMemory 0x10 0x20 "r" with
    text := fun a => if a = mapBase + 0x201 then bytes "r" else if a = mapBase + 0x203 then bytes "a" else [] }

/-- The library that is made of such a file. -/
def parsed (path : Name) (count : Int) : Klib :=
  ⟨mapBase,path.take 255,mapBase + 0x100,2,mapBase + 0x200,mapBase + 0x300,1,mapBase + 0x400,24,0,0,count⟩

set_option maxRecDepth 4000 in
theorem cycle_loadable : Loadable 2 (everywhere cycle) (start cycle (fun _ => 0)) := by
  have contents : ∀ m, Contents (everywhere cycle) cycle m → m = cycle := by
    intro m made
    cases made with
    | same => rfl
    | load before file =>
      cases file
      rfl
  have libraries : ∀ lib, Library (everywhere cycle) (start cycle (fun _ => 0)) lib → ∃ path count, lib = parsed path count := by
    rintro lib ⟨count,⟨i,none,-⟩ | ⟨path,image,entries,m,file,dynamic,made,rfl⟩⟩
    · cases none
    · cases file
      cases dynamic
      rw [contents m made]
      exact ⟨path,count,rfl⟩
  constructor
  · intro m made lib known i
    obtain rfl := contents m made
    obtain ⟨path,count,rfl⟩ := libraries lib known
    match i with
    | 0 | 1 => rfl
    | i+2 => exact Bool.or_eq_true_iff.mpr (.inl (Bool.or_eq_true_iff.mpr (.inr (decide_eq_true (Nat.le_add_left 2 i)))))
  · intro m made lib known
    obtain rfl := contents m made
    obtain ⟨path,count,rfl⟩ := libraries lib known
    have entries : relaEntries (mapBase + 0x400) 24 ++ relaEntries 0 0 = [mapBase + 0x400] := by decide +kernel
    rw [Apart,parsed,entries]
    have outside : cycle.tables (add64 mapBase (cycle.rela (mapBase + 0x400)).rOffset) = false := by decide +kernel
    exact List.forall_mem_singleton.mpr outside

theorem walkChain_circles {i symIdx : Nat} (inside : ¬ (symIdx = 0 ∨ symIdx ≥ lib.symCount))
    (circle : mem.word (chainAddr lib symIdx) = symIdx) (bind : (mem.sym (symAddr lib symIdx)).stInfo >>> 4 = 0) (found : Found) :
    walkChain mem lib i name n symIdx found = none := by
  induction n with
  | zero => rfl
  | succ n ih =>
    rw [walkChain,if_neg inside]
    dsimp only
    rw [circle,bind]
    split_ifs with named strong weak
    · cases strong
    · cases weak.1
    · exact ih
    · exact ih

def circle : Memory :=
  { someMemory 0 0x20 "r" with word := fun a => if a = mapBase + 0x310 then 1 else (someMemory 0 0x20 "r").word a }

/-- The state in which `ldso_relocate` is called for the library; it needs itself, so it has two references. -/
def circling : State :=
  (placed (bytes "/lib/r") ⟨true,fun _ => (circle,true),some needs⟩ needs (start circle (fun _ => 0))).addRef 0 1

end Kenux.Ldso
