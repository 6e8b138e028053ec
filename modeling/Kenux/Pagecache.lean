import Kenux.Runs
import Kenux.Scans
import Kenux.WaitQueue
import Mathlib.Data.Fintype.Card
import Mathlib.Data.BitVec

/-!
The page cache (`pagecache.c`). The entries are in two structures at once: a singly linked
chain for each value of the hash, and one doubly linked list in order of use.
`pagecache_run_sound` proves for every run of the interface that both are well formed and
hold the same entries, one for each node and offset, and that the counters are right, as
long as no call of `pagecache_write` has an offset and a length whose sum wraps: such a
call copies beyond the page (`pagecache_write_wraps`).
-/
namespace Kenux.Pagecache
open Kenux.Runs
open Links (Chain)
open WaitQueue (Queue wqRemove scan)
open Function (update update_self update_of_ne update_apply)

abbrev Addr := BitVec 64
abbrev Byte := BitVec 8

def hashSize : Nat := 1024
def pageSize : Nat := 4096

def uptodate : BitVec 32 := 1
def dirtyFlag : BitVec 32 := 2
def writeback : BitVec 32 := 8

/-- The fields of an entry apart from its links, and its page. -/
structure Entry where
  node : BitVec 64
  offset : BitVec 64
  page : Nat → Byte
  flags : BitVec 32
  refCount : BitVec 32

def hash (node offset : BitVec 64) : Nat := ((node ^^^ offset) &&& 1023).toNat

def Entry.hash (e : Entry) : Nat := Pagecache.hash e.node e.offset

def Entry.isDirty (e : Entry) : Bool := e.flags &&& dirtyFlag ≠ 0

/-- The hash table, the list in order of use, the entries and the counters. -/
structure Cache where
  hashTable : Nat → Option Addr
  hashNext : Addr → Option Addr
  lru : Queue Addr
  entry : Addr → Entry
  total : BitVec 64
  dirty : BitVec 64
  live : List Addr

def pagecacheInit : Cache :=
  ⟨fun _ => none,fun _ => none,WaitQueue.waitQueueInit,fun _ => ⟨0,0,fun _ => 0,0,0⟩,0,0,[]⟩

variable (q : Queue Addr)

def lruAdd (a : Addr) : Queue Addr :=
  let prev := update q.prev a none
  { head := some a
    tail := match q.tail with
      | none => some a
      | some t => some t
    next := update q.next a q.head
    prev := match q.head with
      | some h => update prev h (some a)
      | none => prev }

/-- `__lru_remove` does what `__wq_remove` does. -/
def lruRemove (a : Addr) : Queue Addr := wqRemove q a

def lruMoveToHead (a : Addr) : Queue Addr := lruAdd (lruRemove q a) a

def Cache.setEntry (c : Cache) (a : Addr) (e : Entry) : Cache := { c with entry := update c.entry a e }

/-- `pagecache_find_page`; `none` is a walk that does not end. -/
def pagecacheFindPage (node offset : BitVec 64) (c : Cache) : Option (Option Addr × Cache) :=
  (scan (fun a => (c.entry a).node = node ∧ (c.entry a).offset = offset) c.hashNext (c.live.length + 1)
    (c.hashTable (hash node offset))).map (fun found =>
      match found with
      | none => (none,c)
      | some a => (some a,{ c.setEntry a { c.entry a with refCount := (c.entry a).refCount + 1 } with
          lru := lruMoveToHead c.lru a }))

/-- `memory_alloc`: an address that is not in use, or `NULL`. -/
def memoryAlloc (memory : Option Addr) (c : Cache) : Option Addr := memory.filter (fun a => a ≠ 0 ∧ a ∉ c.live)

/-- The new entry at the head of its chain and of the list. -/
def insert (a : Addr) (node offset : BitVec 64) (page : Nat → Byte) (c : Cache) : Cache :=
  let h := hash node offset
  { c with
    hashTable := update c.hashTable h (some a)
    hashNext := update c.hashNext a (c.hashTable h)
    lru := lruAdd c.lru a
    entry := update c.entry a ⟨node,offset,page,0,1⟩
    total := c.total + 1
    live := a :: c.live }

/-- `pagecache_get_page`, told if there is memory for the page and where the entry comes to lie, what the page holds
    at first, and what the `read` function of the node, if it has one, puts there. -/
def pagecacheGetPage (node offset : BitVec 64) (page : Option (Nat → Byte)) (memory : Option Addr)
    (read : Option (Nat → Byte)) (c : Cache) : Option (Option Addr × Cache) :=
  match pagecacheFindPage node offset c with
  | none => none
  | some (some a,c) => some (some a,c)
  | some (none,c) =>
    match page,memoryAlloc memory c with
    | some page,some a =>
      let c := insert a node offset page c
      match read with
      | some bytes =>
        if node ≠ 0 then
          some (some a,c.setEntry a { c.entry a with page := bytes, flags := (c.entry a).flags ||| uptodate })
        else some (some a,c)
      | none => some (some a,c)
    | _,_ => some (none,c)

def pagecachePutPage (entry : Option Addr) (c : Cache) : Cache :=
  match entry with
  | none => c
  | some a =>
    if 0 < (c.entry a).refCount.toNat then
      c.setEntry a { c.entry a with refCount := (c.entry a).refCount - 1 }
    else c

def pagecacheSetDirty (entry : Option Addr) (c : Cache) : Cache :=
  match entry with
  | none => c
  | some a =>
    if (c.entry a).isDirty then c
    else { c.setEntry a { c.entry a with flags := (c.entry a).flags ||| dirtyFlag } with dirty := c.dirty + 1 }

def pagecacheClearDirty (entry : Option Addr) (c : Cache) : Cache :=
  match entry with
  | none => c
  | some a =>
    if (c.entry a).isDirty then
      { c.setEntry a { c.entry a with flags := (c.entry a).flags &&& ~~~dirtyFlag } with dirty := c.dirty - 1 }
    else c

/-- `pagecache_write`; `none` is a copy beyond the page. -/
def pagecacheWrite (entry : Option Addr) (buf : Option (Nat → Byte)) (offsetInPage len : BitVec 64) (c : Cache) :
    Option (Int × Cache) :=
  match entry,buf with
  | some a,some bytes =>
    if offsetInPage.toNat ≥ pageSize then some (-1,c)
    else
      let len := if (offsetInPage + len).toNat > pageSize then BitVec.ofNat 64 pageSize - offsetInPage else len
      if offsetInPage.toNat + len.toNat ≤ pageSize then
        let copied := fun i => if offsetInPage.toNat ≤ i ∧ i < offsetInPage.toNat + len.toNat
          then bytes (i - offsetInPage.toNat) else (c.entry a).page i
        some (len.toNat,pagecacheSetDirty (some a) (c.setEntry a { c.entry a with page := copied }))
      else none
  | _,_ => some (-1,c)

/-- The write-back of one entry in the two sync loops. -/
def writeBack (a : Addr) (c : Cache) : Cache :=
  { c.setEntry a { c.entry a with flags := ((c.entry a).flags ||| writeback) &&& ~~~(dirtyFlag ||| writeback) } with
    dirty := c.dirty - 1 }

/-- The inner loop of the two, along one chain. -/
def syncChain (test : Entry → Bool) : Nat → Option Addr → Cache × Nat → Option (Cache × Nat)
  | _, none, acc => some acc
  | 0, some _, _ => none
  | fuel+1, some a, (c,count) =>
    syncChain test fuel (c.hashNext a) (if test (c.entry a) then (writeBack a c,count + 1) else (c,count))

/-- The outer loop, over the chains that are left. -/
def syncTable (test : Entry → Bool) (fuel : Nat) : List Nat → Cache × Nat → Option (Cache × Nat)
  | [], acc => some acc
  | h :: rest, acc => (syncChain test fuel (acc.1.hashTable h) acc).bind (syncTable test fuel rest)

def pagecacheSyncNode (node : BitVec 64) (c : Cache) : Option (Int × Cache) :=
  if node = 0 then some (-1,c)
  else (syncTable (fun e => e.node = node ∧ e.isDirty) (c.live.length + 1) (List.range hashSize) (c,0)).map
    (fun acc => (acc.2,acc.1))

def pagecacheSyncAll (c : Cache) : Option (Int × Cache) :=
  (syncTable Entry.isDirty (c.live.length + 1) (List.range hashSize) (c,0)).map (fun acc => (acc.2,acc.1))

inductive Request where
  | findPage (node offset : BitVec 64)
  | getPage (node offset : BitVec 64) (page : Option (Nat → Byte)) (memory : Option Addr) (read : Option (Nat → Byte))
  | putPage (entry : Option Addr)
  | setDirty (entry : Option Addr)
  | clearDirty (entry : Option Addr)
  | write (entry : Option Addr) (buf : Option (Nat → Byte)) (offsetInPage len : BitVec 64)
  | syncNode (node : BitVec 64)
  | syncAll

/-- A pointer that a caller can have: `NULL`, or an entry. -/
def Passed (c : Cache) (entry : Option Addr) : Prop := ∀ a ∈ entry, a ∈ c.live

instance (c : Cache) : ∀ entry, Decidable (Passed c entry)
  | none => .isTrue (fun _ here => by cases here)
  | some a => decidable_of_iff (a ∈ c.live) ⟨fun live _ here => by cases here; exact live,fun passed => passed a rfl⟩

/-- A call with a pointer that nobody has is not made. -/
def step (c : Cache) : Request → Option Cache
  | .findPage node offset => (pagecacheFindPage node offset c).map Prod.snd
  | .getPage node offset page memory read => (pagecacheGetPage node offset page memory read c).map Prod.snd
  | .putPage entry => some (if Passed c entry then pagecachePutPage entry c else c)
  | .setDirty entry => some (if Passed c entry then pagecacheSetDirty entry c else c)
  | .clearDirty entry => some (if Passed c entry then pagecacheClearDirty entry c else c)
  | .write entry buf offsetInPage len =>
    if Passed c entry then (pagecacheWrite entry buf offsetInPage len c).map Prod.snd else some c
  | .syncNode node => (pagecacheSyncNode node c).map Prod.snd
  | .syncAll => (pagecacheSyncAll c).map Prod.snd

/-- The sum of offset and length of a write does not wrap. -/
def Meets (_ : Cache) : Request → Prop
  | .write _ _ offsetInPage len => offsetInPage.toNat + len.toNat < 2 ^ 64
  | _ => True

instance (c : Cache) : ∀ a, Decidable (Meets c a)
  | .write .. => inferInstanceAs (Decidable (_ < _))
  | .findPage _ _ | .getPage _ _ _ _ _ | .putPage _ | .setDirty _ | .clearDirty _ | .syncNode _ | .syncAll => .isTrue trivial

/-- The chains and the list in order of use hold the same entries, each in the chain of its hash, no two for one node
    and offset; the counters count them and the dirty ones. -/
structure Rep (c : Cache) (chains : Nat → List Addr) (order : List Addr) : Prop where
  hashed : ∀ h, Chain c.hashNext (c.hashTable h) (chains h)
  distinct : ∀ h, (chains h).Nodup
  lru : WaitQueue.Holds c.lru order
  members : ∀ h a, a ∈ chains h ↔ a ∈ order ∧ (c.entry a).hash = h
  unique : ∀ a ∈ order, ∀ b ∈ order, (c.entry a).node = (c.entry b).node → (c.entry a).offset = (c.entry b).offset → a = b
  total : c.total.toNat = order.length
  dirty : c.dirty.toNat = order.countP (fun a => (c.entry a).isDirty)
  live : ∀ a, a ∈ c.live ↔ a ∈ order
  nonNull : 0 ∉ order

/-! ### The list in order of use -/

theorem lruAdd_next (a b : Addr) : (lruAdd q a).next b = if b = a then q.head else q.next b :=
  update_apply ..

private theorem lruAdd_prev (a b : Addr) :
    (lruAdd q a).prev b = if q.head = some b then some a else if b = a then none else q.prev b := by
  rw [lruAdd]
  cases q.head with
  | none => simp [update_apply]
  | some h => simp [update_apply,eq_comm]

variable {q : Queue Addr} {nodes : List Addr} {a : Addr} {offsetInPage len : BitVec 64}

theorem lruAdd_holds (holds : WaitQueue.Holds q nodes) (fresh : a ∉ nodes) :
    WaitQueue.Holds (lruAdd q a) (a :: nodes) := by
  have first := Links.linked_head holds.linked
  have other : ∀ b ∈ nodes, b ≠ a := fun b member => ne_of_mem_of_not_mem member fresh
  have front : ∀ b, q.head = some b → b ∈ nodes := fun b named => List.mem_of_mem_head? (first.symm.trans named)
  constructor
  · refine Links.linked_push holds.linked holds.distinct ?_ ?_ ?_ ?_ ?_
    · rw [lruAdd_next,if_pos rfl]
    · rw [lruAdd_prev,if_neg (fun named => fresh (front a named)),if_pos rfl]
    · intro b member
      rw [lruAdd_next,if_neg (other b member)]
    · intro b named
      rw [lruAdd_prev,if_pos named]
    · intro b member later
      rw [lruAdd_prev,if_neg later,if_neg (other b member)]
  · rw [lruAdd,holds.tail]
    cases nodes with
    | nil => rfl
    | cons b rest => simp [List.getLast?_cons]
  · exact List.nodup_cons.mpr ⟨fresh,holds.distinct⟩
  · intro b absent
    obtain ⟨different,outside⟩ := not_or.mp (fun here => absent (List.mem_cons.mpr here))
    rw [lruAdd_next,lruAdd_prev,if_neg different,if_neg (fun named => outside (front b named)),if_neg different]
    exact holds.others b outside

private theorem lruMoveToHead_holds (holds : WaitQueue.Holds q nodes) (member : a ∈ nodes) :
    WaitQueue.Holds (lruMoveToHead q a) (a :: nodes.erase a) :=
  lruAdd_holds (holds.remove member) (fun here => (List.Nodup.mem_erase_iff holds.distinct).mp here |>.1 rfl)

private theorem isDirty_set (e : Entry) : Entry.isDirty { e with flags := e.flags ||| dirtyFlag } = true := by
  have bit : (e.flags ||| dirtyFlag) &&& dirtyFlag = dirtyFlag := by
    grind
  simp only [Entry.isDirty,bit]
  rfl

private theorem isDirty_clear (e : Entry) : Entry.isDirty { e with flags := e.flags &&& ~~~dirtyFlag } = false := by
  simp [Entry.isDirty,BitVec.and_assoc]

theorem isDirty_uptodate (e : Entry) (page : Nat → Byte) :
    Entry.isDirty { e with page, flags := e.flags ||| uptodate } = e.isDirty := by
  have bit : (e.flags ||| uptodate) &&& dirtyFlag = e.flags &&& dirtyFlag := by
    rw [BitVec.and_comm,BitVec.and_or_distrib_left,BitVec.and_comm]
    simp [uptodate,dirtyFlag]
  simp only [Entry.isDirty,bit]

private theorem isDirty_writeBack (e : Entry) :
    Entry.isDirty { e with flags := (e.flags ||| writeback) &&& ~~~(dirtyFlag ||| writeback) } = false := by
  have bit : (e.flags ||| writeback) &&& ~~~(dirtyFlag ||| writeback) &&& dirtyFlag = 0 := by
    grind
  simp [Entry.isDirty,bit]

/-! ### What each change keeps -/

variable {c c' : Cache} {chains : Nat → List Addr} {order order' : List Addr} {a : Addr}

section
variable (rep : Rep c chains order)
include rep

section
variable (member : a ∈ order)
include member

theorem Rep.change (e : Entry) (dirty : BitVec 64)
    (node : e.node = (c.entry a).node) (offset : e.offset = (c.entry a).offset)
    (counted : dirty.toNat + (if (c.entry a).isDirty then 1 else 0) = c.dirty.toNat + (if e.isDirty then 1 else 0)) :
    Rep { c.setEntry a e with dirty } chains order := by
  have keys : ∀ b, ((c.setEntry a e).entry b).node = (c.entry b).node ∧ ((c.setEntry a e).entry b).offset = (c.entry b).offset := by
    intro b
    by_cases same : b = a
    · subst same
      simp [Cache.setEntry,node,offset]
    · simp [Cache.setEntry,same]
  constructor
  case hashed => exact rep.hashed
  case distinct => exact rep.distinct
  case lru => exact rep.lru
  case members =>
    intro h b
    rw [rep.members,Entry.hash,Entry.hash,(keys b).1,(keys b).2]
  case unique =>
    intro b inB d inD sameNode sameOffset
    rw [(keys b).1,(keys d).1] at sameNode
    rw [(keys b).2,(keys d).2] at sameOffset
    exact rep.unique b inB d inD sameNode sameOffset
  case total => exact rep.total
  case dirty =>
    have change := Scans.countP_change (p := fun b => (c.entry b).isDirty) (q := fun b => ((c.setEntry a e).entry b).isDirty)
      rep.lru.distinct member (fun b other => by simp [Cache.setEntry,other])
    have here : ((c.setEntry a e).entry a).isDirty = e.isDirty := by simp [Cache.setEntry]
    have before := rep.dirty
    rw [here] at change
    dsimp only
    omega
  case live => exact rep.live
  case nonNull => exact rep.nonNull

theorem Rep.touch (e : Entry) (node : e.node = (c.entry a).node)
    (offset : e.offset = (c.entry a).offset) (dirty : e.isDirty = (c.entry a).isDirty) : Rep (c.setEntry a e) chains order :=
  rep.change member e c.dirty node offset (by rw [dirty])

theorem Rep.dirty_sub (here : (c.entry a).isDirty = true) :
    (c.dirty - 1).toNat + 1 = c.dirty.toNat := by
  have some : 0 < order.countP (fun a => (c.entry a).isDirty) := List.countP_pos_iff.mpr ⟨a,member,here⟩
  rw [← rep.dirty] at some
  have one : (1 : BitVec 64) ≤ c.dirty := by
    exact some
  rw [BitVec.toNat_sub_of_le one]
  exact Nat.sub_add_cancel some

theorem Rep.dirty_add (clean : ¬ (c.entry a).isDirty = true) :
    (c.dirty + 1).toNat = c.dirty.toNat + 1 := by
  have most : order.countP (fun a => (c.entry a).isDirty) ≤ order.length := List.countP_le_length
  have notAll : order.countP (fun a => (c.entry a).isDirty) ≠ order.length := fun all =>
    clean (List.countP_eq_length.mp all a member)
  have bound := c.total.isLt
  refine BitVec.toNat_add_of_lt ?_
  rw [rep.dirty]
  rw [rep.total] at bound
  show _ + 1 < 2 ^ 64
  omega

end

theorem Rep.reorder (holds : WaitQueue.Holds q order') (perm : order'.Perm order) :
    Rep { c with lru := q } chains order' where
  hashed := rep.hashed
  distinct := rep.distinct
  lru := holds
  members h b := by rw [rep.members,perm.mem_iff]
  unique b inB d inD := rep.unique b (perm.mem_iff.mp inB) d (perm.mem_iff.mp inD)
  total := by rw [rep.total,perm.length_eq]
  dirty := by rw [rep.dirty,perm.countP_eq]
  live b := by rw [rep.live,perm.mem_iff]
  nonNull here := rep.nonNull (perm.mem_iff.mp here)

/-- The number of entries is below `2 ^ 64`, for each has an address of its own other than `NULL`. -/
theorem Rep.room (fresh : a ∉ order) (nonNull : a ≠ 0) : order.length + 1 < 2 ^ 64 := by
  have distinct : (0 :: a :: order).Nodup := by
    refine List.nodup_cons.mpr ⟨?_,List.nodup_cons.mpr ⟨fresh,rep.lru.distinct⟩⟩
    rw [List.mem_cons,not_or]
    exact ⟨nonNull.symm,rep.nonNull⟩
  have all := (distinct.map (fun _ _ same => BitVec.toFin_inj.mp same)).length_le_card
  rw [Fintype.card_fin,List.length_map,List.length_cons,List.length_cons] at all
  omega

theorem Rep.enough (h : Nat) : (chains h).length ≤ c.live.length :=
  (List.subperm_of_subset (rep.distinct h) (fun a here => (rep.live a).mpr ((rep.members h a).mp here).1)).length_le

end

private theorem mem_grow {b : Addr} {k h : Nat} :
    b ∈ update chains k (a :: chains k) h ↔ (b = a ∧ h = k) ∨ b ∈ chains h := by
  by_cases same : h = k
  · subst same
    simp
  · simp [same]

theorem Rep.grow (rep : Rep c chains order) {node offset : BitVec 64} (fresh : a ∉ order) (nonNull : a ≠ 0)
    (absent : ∀ b ∈ order, ¬ ((c.entry b).node = node ∧ (c.entry b).offset = offset)) (page : Nat → Byte) :
    Rep (insert a node offset page c) (update chains (hash node offset) (a :: chains (hash node offset))) (a :: order) := by
  have outside : ∀ h, a ∉ chains h := fun h here => fresh ((rep.members h a).mp here).1
  have other : ∀ b ∈ order, b ≠ a := fun b here => ne_of_mem_of_not_mem here fresh
  have entries : ∀ b ∈ order, (insert a node offset page c).entry b = c.entry b := fun b here =>
    update_of_ne (other b here) ..
  have new : (insert a node offset page c).entry a = ⟨node,offset,page,0,1⟩ := update_self ..
  have chain : ∀ h, Chain (insert a node offset page c).hashNext (c.hashTable h) (chains h) := fun h =>
    Links.chain_congr (rep.hashed h) (fun b here => update_of_ne (by rintro rfl; exact outside h here) ..)
  constructor
  case hashed =>
    intro h
    by_cases same : h = hash node offset
    · rw [same,update_self]
      refine ⟨update_self ..,?_⟩
      rw [show (insert a node offset page c).hashNext a = _ from update_self ..]
      exact chain (hash node offset)
    · rw [update_of_ne same,show (insert a node offset page c).hashTable h = c.hashTable h from update_of_ne same ..]
      exact chain h
  case distinct =>
    intro h
    by_cases same : h = hash node offset
    · rw [same,update_self]
      exact List.nodup_cons.mpr ⟨outside _,rep.distinct _⟩
    · rw [update_of_ne same]
      exact rep.distinct h
  case lru => exact lruAdd_holds rep.lru fresh
  case members =>
    intro h b
    rw [mem_grow,List.mem_cons]
    by_cases self : b = a
    · subst self
      rw [new]
      simp [Entry.hash,outside,eq_comm]
    · rw [rep.members]
      simp only [self,false_and,false_or]
      exact and_congr_right (fun here => by rw [entries b here])
  case unique =>
    intro b inB d inD sameNode sameOffset
    rcases List.mem_cons.mp inB with rfl | oldB
    · rcases List.mem_cons.mp inD with rfl | oldD
      · rfl
      · rw [new,entries d oldD] at sameNode sameOffset
        exact absurd ⟨sameNode.symm,sameOffset.symm⟩ (absent d oldD)
    · rcases List.mem_cons.mp inD with rfl | oldD
      · rw [new,entries b oldB] at sameNode sameOffset
        exact absurd ⟨sameNode,sameOffset⟩ (absent b oldB)
      · rw [entries b oldB,entries d oldD] at sameNode sameOffset
        exact rep.unique b oldB d oldD sameNode sameOffset
  case total =>
    show (c.total + 1).toNat = order.length + 1
    have room := rep.room fresh nonNull
    rw [← rep.total] at room ⊢
    exact BitVec.toNat_add_of_lt room
  case dirty =>
    show c.dirty.toNat = _
    have clean : Entry.isDirty ⟨node,offset,page,0,1⟩ = false := by simp [Entry.isDirty]
    have same : order.countP (fun b => ((insert a node offset page c).entry b).isDirty) = order.countP (fun b => (c.entry b).isDirty) :=
      List.countP_congr (fun b here => by rw [entries b here])
    rw [rep.dirty,List.countP_cons,new,clean,same]
    rfl
  case live =>
    intro b
    rw [List.mem_cons,← rep.live]
    exact List.mem_cons
  case nonNull =>
    rw [List.mem_cons,not_or]
    exact ⟨nonNull.symm,rep.nonNull⟩

def Inv (c : Cache) : Prop := ∃ chains order, Rep c chains order

theorem Rep.find (rep : Rep c chains order) (node offset : BitVec 64) :
    (pagecacheFindPage node offset c = some (none,c) ∧
        ∀ b ∈ order, ¬ ((c.entry b).node = node ∧ (c.entry b).offset = offset)) ∨
      ∃ a t, pagecacheFindPage node offset c = some (some a,t) ∧ Inv t := by
  have found : scan (fun a => decide ((c.entry a).node = node ∧ (c.entry a).offset = offset)) c.hashNext (c.live.length + 1)
      (c.hashTable (hash node offset)) = some ((chains (hash node offset)).find?
        (fun a => decide ((c.entry a).node = node ∧ (c.entry a).offset = offset))) :=
    WaitQueue.scan_chain (Nat.le_succ_of_le (rep.enough _)) (rep.hashed _)
  rw [pagecacheFindPage,found]
  cases first : (chains (hash node offset)).find? (fun a => decide ((c.entry a).node = node ∧ (c.entry a).offset = offset)) with
  | none =>
    refine .inl ⟨rfl,fun b here same => ?_⟩
    have inChain : b ∈ chains (hash node offset) := (rep.members _ b).mpr ⟨here,by rw [Entry.hash,same.1,same.2]⟩
    exact List.find?_eq_none.mp first b inChain (decide_eq_true same)
  | some a =>
    have member : a ∈ order := ((rep.members _ a).mp (List.mem_of_find?_eq_some first)).1
    have counted := rep.touch member { c.entry a with refCount := (c.entry a).refCount + 1 } rfl rfl rfl
    have moved := counted.reorder (lruMoveToHead_holds rep.lru member) (List.perm_cons_erase member).symm
    exact .inr ⟨a,_,rfl,chains,_,moved⟩

theorem Inv.findPage (inv : Inv c) (node offset : BitVec 64) :
    ∃ t, (pagecacheFindPage node offset c).map Prod.snd = some t ∧ Inv t := by
  obtain ⟨chains,order,rep⟩ := inv
  rcases rep.find node offset with ⟨missing,_⟩ | ⟨a,t,found,inv⟩
  · exact ⟨c,by rw [missing]; rfl,chains,order,rep⟩
  · exact ⟨t,by rw [found]; rfl,inv⟩

private theorem memoryAlloc_fresh {memory : Option Addr} (found : memoryAlloc memory c = some a) : a ≠ 0 ∧ a ∉ c.live := by
  simpa using (Option.filter_eq_some_iff.mp found).2

theorem Inv.getPage (inv : Inv c) (node offset : BitVec 64) (page : Option (Nat → Byte)) (memory : Option Addr)
    (read : Option (Nat → Byte)) : ∃ t, (pagecacheGetPage node offset page memory read c).map Prod.snd = some t ∧ Inv t := by
  obtain ⟨chains,order,rep⟩ := inv
  rw [pagecacheGetPage]
  rcases rep.find node offset with ⟨missing,absent⟩ | ⟨a,t,found,inv⟩
  · rw [missing]
    cases page with
    | none => exact ⟨c,rfl,chains,order,rep⟩
    | some bytes =>
      cases allocated : memoryAlloc memory c with
      | none => exact ⟨c,by simp only [allocated]; rfl,chains,order,rep⟩
      | some a =>
        obtain ⟨nonNull,fresh⟩ := memoryAlloc_fresh allocated
        have grown := rep.grow (fun here => fresh ((rep.live a).mpr here)) nonNull absent bytes
        simp only [allocated]
        cases read with
        | none => exact ⟨_,rfl,_,_,grown⟩
        | some filled =>
          dsimp only
          split
          · exact ⟨_,rfl,_,_,grown.touch (List.mem_cons_self ..) _ rfl rfl (isDirty_uptodate _ filled)⟩
          · exact ⟨_,rfl,_,_,grown⟩
  · rw [found]
    exact ⟨t,rfl,inv⟩

section
variable (rep : Rep c chains order)
include rep

section
variable (member : a ∈ order)
include member

theorem Rep.putPage : Rep (pagecachePutPage (some a) c) chains order := by
  rw [pagecachePutPage]
  split
  · exact rep.touch member _ rfl rfl rfl
  · exact rep

theorem Rep.setDirty : Rep (pagecacheSetDirty (some a) c) chains order := by
  rw [pagecacheSetDirty]
  split
  · exact rep
  next clean =>
    refine rep.change member { c.entry a with flags := (c.entry a).flags ||| dirtyFlag } (c.dirty + 1) rfl rfl ?_
    rw [isDirty_set,if_neg clean,if_pos rfl,rep.dirty_add member clean]

theorem Rep.clearDirty :
    Rep (pagecacheClearDirty (some a) c) chains order := by
  rw [pagecacheClearDirty]
  split
  next isDirty =>
    refine rep.change member { c.entry a with flags := (c.entry a).flags &&& ~~~dirtyFlag } (c.dirty - 1) rfl rfl ?_
    rw [isDirty_clear,if_pos isDirty,rep.dirty_sub member isDirty]
    rfl
  · exact rep

theorem Rep.writeBack (isDirty : (c.entry a).isDirty = true) :
    Rep (writeBack a c) chains order := by
  refine rep.change member _ (c.dirty - 1) rfl rfl ?_
  rw [isDirty_writeBack,if_pos isDirty,rep.dirty_sub member isDirty]
  rfl

end

end

theorem len_fits (inside : offsetInPage.toNat < pageSize) (fits : offsetInPage.toNat + len.toNat < 2 ^ 64) :
    offsetInPage.toNat + (if (offsetInPage + len).toNat > pageSize then BitVec.ofNat 64 pageSize - offsetInPage else len).toNat
      ≤ pageSize := by
  have sum : (offsetInPage + len).toNat = offsetInPage.toNat + len.toNat := BitVec.toNat_add_of_lt fits
  split
  · have page : (BitVec.ofNat 64 pageSize).toNat = pageSize := rfl
    have le : offsetInPage ≤ BitVec.ofNat 64 pageSize := by
      exact Nat.le_of_lt inside
    rw [BitVec.toNat_sub_of_le le]
    omega
  · omega

variable {entry : Option Addr}

theorem Rep.write (rep : Rep c chains order) (passed : ∀ a ∈ entry, a ∈ order)
    (buf : Option (Nat → Byte)) (fits : offsetInPage.toNat + len.toNat < 2 ^ 64) :
    ∃ r t, pagecacheWrite entry buf offsetInPage len c = some (r,t) ∧ Rep t chains order := by
  rw [pagecacheWrite.eq_def]
  split
  next a bytes =>
    split
    · exact ⟨_,_,rfl,rep⟩
    next inside =>
      have member : a ∈ order := passed a rfl
      rw [if_pos (len_fits (Nat.lt_of_not_ge inside) fits)]
      refine ⟨_,_,rfl,Rep.setDirty ?_ member⟩
      exact rep.touch member _ rfl rfl rfl
  · exact ⟨_,_,rfl,rep⟩

theorem Rep.syncChain {test : Entry → Bool} (dirtyOnly : ∀ e, test e = true → e.isDirty = true) {cells : List Addr} :
    ∀ {c : Cache} {fuel : Nat} (count : Nat) {head : Option Addr}, Rep c chains order → (∀ a ∈ cells, a ∈ order) →
      Chain c.hashNext head cells → cells.length ≤ fuel →
      ∃ t n, syncChain test fuel head (c,count) = some (t,n) ∧ Rep t chains order ∧ t.live = c.live := by
  induction cells with
  | nil =>
    rintro c fuel count head rep _ chain _
    rw [show head = none from chain,Pagecache.syncChain]
    exact ⟨c,count,rfl,rep,rfl⟩
  | cons a rest ih =>
    rintro c fuel count head rep inside ⟨rfl,tail⟩ enough
    obtain ⟨fuel,rfl⟩ : ∃ n, fuel = n + 1 := ⟨fuel - 1,by rw [List.length_cons] at enough; omega⟩
    rw [Pagecache.syncChain]
    have later : ∀ b ∈ rest, b ∈ order := fun b here => inside b (List.mem_cons_of_mem a here)
    have shorter : rest.length ≤ fuel := Nat.le_of_succ_le_succ enough
    split
    next taken =>
      exact ih (count + 1) (rep.writeBack (inside a (by simp)) (dirtyOnly _ taken)) later tail shorter
    · exact ih count rep later tail shorter

theorem Rep.syncTable (test : Entry → Bool) (dirtyOnly : ∀ e, test e = true → e.isDirty = true) (hashes : List Nat) {fuel : Nat}
    (count : Nat) (rep : Rep c chains order) (enough : c.live.length ≤ fuel) :
    ∃ t n, syncTable test fuel hashes (c,count) = some (t,n) ∧ Rep t chains order := by
  induction hashes generalizing c count with
  | nil => exact ⟨c,count,rfl,rep⟩
  | cons h rest ih =>
    obtain ⟨t,n,walked,kept,live⟩ := Rep.syncChain dirtyOnly count rep (fun a here => ((rep.members h a).mp here).1)
      (rep.hashed h) (Nat.le_trans (rep.enough h) enough)
    rw [Pagecache.syncTable,walked]
    exact ih n kept (by rw [live]; exact enough)

theorem Inv.passed (inv : Inv c) {f : Option Addr → Cache → Cache} (same : f none c = c)
    (keeps : ∀ {chains order a}, Rep c chains order → a ∈ order → Rep (f (some a) c) chains order) :
    Inv (if Passed c entry then f entry c else c) := by
  obtain ⟨chains,order,rep⟩ := inv
  split
  next passed =>
    cases entry with
    | none => exact ⟨chains,order,by rw [same]; exact rep⟩
    | some a => exact ⟨chains,order,keeps rep ((rep.live a).mp (passed a rfl))⟩
  · exact ⟨chains,order,rep⟩

theorem inv_step (r : Request) (inv : Inv c) (meets : Meets c r) : ∃ t, step c r = some t ∧ Inv t := by
  cases r with
  | findPage node offset => exact inv.findPage node offset
  | getPage node offset page memory read => exact inv.getPage node offset page memory read
  | putPage entry => exact ⟨_,rfl,inv.passed rfl Rep.putPage⟩
  | setDirty entry => exact ⟨_,rfl,inv.passed rfl Rep.setDirty⟩
  | clearDirty entry => exact ⟨_,rfl,inv.passed rfl Rep.clearDirty⟩
  | write entry buf offsetInPage len =>
    obtain ⟨chains,order,rep⟩ := inv
    rw [step]
    split
    next passed =>
      obtain ⟨r,t,written,kept⟩ := rep.write (fun a here => (rep.live a).mp (passed a here)) buf meets
      exact ⟨t,by rw [written]; rfl,chains,order,kept⟩
    · exact ⟨c,rfl,chains,order,rep⟩
  | syncNode node =>
    obtain ⟨chains,order,rep⟩ := inv
    rw [step,pagecacheSyncNode]
    split
    · exact ⟨c,rfl,chains,order,rep⟩
    · obtain ⟨t,n,synced,kept⟩ := Rep.syncTable (fun e => e.node = node ∧ e.isDirty)
        (fun e taken => (of_decide_eq_true taken).2) (List.range hashSize) 0 rep (Nat.le_succ _)
      exact ⟨t,by rw [synced]; rfl,chains,order,kept⟩
  | syncAll =>
    obtain ⟨chains,order,rep⟩ := inv
    obtain ⟨t,n,synced,kept⟩ := Rep.syncTable Entry.isDirty (fun _ taken => taken) (List.range hashSize) 0 rep (Nat.le_succ _)
    exact ⟨t,by rw [step,pagecacheSyncAll,synced]; rfl,chains,order,kept⟩

theorem start_inv : Inv pagecacheInit := by
  refine ⟨fun _ => [],[],fun _ => rfl,fun _ => List.nodup_nil,WaitQueue.waitQueueInit_holds,fun _ _ => by simp,?_,rfl,rfl,?_,by simp⟩
  · intro a none
    cases none
  · intro a
    rfl

/-- While no write wraps, the hash chains and the list in order of use hold the same entries, each once. -/
theorem pagecache_run_sound (requests : List Request) (guarded : Guarded step Meets pagecacheInit requests) :
    ∃ c chains order, run step pagecacheInit requests = some c ∧ Rep c chains order := by
  obtain ⟨c,ran,chains,order,rep⟩ := run_invariant (fun _ a => inv_step a) requests pagecacheInit start_inv guarded
  exact ⟨c,chains,order,ran,rep⟩

def someRun : List Request :=
  [.getPage 4096 0 (some fun _ => 0) (some 64) none,.getPage 4096 1024 (some fun _ => 0) (some 128) none,
    .write (some 64) (some fun _ => 7) 10 20,.findPage 4096 0,.syncNode 4096]

theorem pagecache_run_sound_of_two :
    ∃ c chains order, run step pagecacheInit someRun = some c ∧ Rep c chains order :=
  pagecache_run_sound someRun (by decide +kernel)

/-- A write at offset 1 of length `2 ^ 64 - 1`: the sum is 0, the length is not cut, and the copy leaves the page. -/
theorem pagecache_write_wraps :
    (run step pagecacheInit [.getPage 4096 0 (some fun _ => 0) (some 64) none]).isSome = true ∧
    (run step pagecacheInit [.getPage 4096 0 (some fun _ => 0) (some 64) none,
      .write (some 64) (some fun _ => 7) 1 (BitVec.allOnes 64)]).isNone = true := by decide +kernel

end Kenux.Pagecache
