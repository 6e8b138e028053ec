import Mathlib.Data.List.Nodup
import Mathlib.Tactic.Common

/-!
Doubly linked lists in a heap. A list of cells is linked when following the next field from
the head visits exactly these cells, in order, and every previous field names the cell
before (`Linked`). The lemmas say what the usual updates do to the list of cells: each
takes the new link fields and only asks where they differ from the old. Lists that share
one heap come next, and last those of them that are singly linked, with a pointer to the
last cell (`Tailed`).
-/
namespace Kenux.Links
open Function (update update_self update_of_ne update_eq_self)

section
variable {Cell : Type*}

/-- Following the next field from the head visits the cells in order, and every
    previous field names the cell before; the first names `before`. -/
def Linked (next prev : Cell → Option Cell) : Option Cell → Option Cell → List Cell → Prop
  | _, head, [] => head = none
  | before, head, a :: rest => head = some a ∧ prev a = before ∧ Linked next prev (some a) (next a) rest

/-- Following the next field from the head visits the cells in order. -/
def Chain (next : Cell → Option Cell) : Option Cell → List Cell → Prop
  | head, [] => head = none
  | head, a :: rest => head = some a ∧ Chain next (next a) rest

/-- The pointer after so many steps along the next field. -/
def follow (next : Cell → Option Cell) : Nat → Option Cell → Option Cell
  | 0, p => p
  | n+1, p => follow next n (p.bind next)

/-- A cell that following the next field from the head reaches. -/
def Reachable (next : Cell → Option Cell) (head : Option Cell) (a : Cell) : Prop :=
  ∃ n, follow next n head = some a

variable {next prev next' prev' : Cell → Option Cell} {before head : Option Cell} {cells : List Cell}

theorem follow_none (n : Nat) : follow next n none = none := by
  induction n with
  | zero => rfl
  | succ n ih => exact ih

theorem linked_chain (linked : Linked next prev before head cells) : Chain next head cells := by
  induction cells generalizing before head with
  | nil => exact linked
  | cons a rest ih => exact ⟨linked.1,ih linked.2.2⟩

theorem chain_follow (chain : Chain next head cells) (n : Nat) : follow next n head = cells[n]? := by
  induction cells generalizing head n with
  | nil =>
    have empty : head = none := chain
    rw [empty,follow_none]
    rfl
  | cons a rest ih =>
    obtain ⟨headIs,tail⟩ := chain
    subst headIs
    cases n with
    | zero => rfl
    | succ n => exact ih tail n

section
variable (linked : Linked next prev before head cells) {other : Option Cell}
include linked

theorem linked_reachable (a : Cell) :
    Reachable next head a ↔ a ∈ cells := by
  rw [List.mem_iff_getElem?]
  exact exists_congr (fun n => by rw [chain_follow (linked_chain linked) n])

theorem linked_head : head = cells.head? := by
  cases cells with
  | nil => exact linked
  | cons a rest => exact linked.1

theorem linked_prev_head {a : Cell} (first : head = some a) :
    prev a = before := by
  cases cells with
  | nil =>
    have empty : head = none := linked
    cases empty.symm.trans first
  | cons b rest =>
    cases linked.1.symm.trans first
    exact linked.2.1

theorem linked_congr (nexts : ∀ a ∈ cells, next' a = next a) (prevs : ∀ a ∈ cells, prev' a = prev a) :
    Linked next' prev' before head cells := by
  induction cells generalizing before head with
  | nil => exact linked
  | cons a rest ih =>
    obtain ⟨headIs,prevIs,tail⟩ := linked
    refine ⟨headIs,(prevs a (by simp)).trans prevIs,?_⟩
    rw [nexts a (by simp)]
    exact ih tail (fun b member => nexts b (by simp [member])) (fun b member => prevs b (by simp [member]))

theorem linked_before (distinct : cells.Nodup)
    (nexts : ∀ a ∈ cells, next' a = next a)
    (first : ∀ a, head = some a → prev' a = other) (prevs : ∀ a ∈ cells, head ≠ some a → prev' a = prev a) :
    Linked next' prev' other head cells := by
  cases cells with
  | nil => exact linked
  | cons a rest =>
    obtain ⟨headIs,-,tail⟩ := linked
    have absent : a ∉ rest := (List.nodup_cons.mp distinct).1
    refine ⟨headIs,first a headIs,?_⟩
    rw [nexts a (by simp)]
    refine linked_congr tail (fun b member => nexts b (by simp [member])) (fun b member => ?_)
    refine prevs b (by simp [member]) ?_
    rw [headIs]
    rintro ⟨⟩
    exact absent member

theorem linked_push (distinct : cells.Nodup) {a : Cell}
    (nextIs : next' a = head) (prevIs : prev' a = other)
    (nexts : ∀ b ∈ cells, next' b = next b) (first : ∀ b, head = some b → prev' b = some a)
    (prevs : ∀ b ∈ cells, head ≠ some b → prev' b = prev b) :
    Linked next' prev' other (some a) (a :: cells) := by
  refine ⟨rfl,prevIs,?_⟩
  rw [nextIs]
  exact linked_before linked distinct nexts first prevs

end

variable {left right : List Cell} {a : Cell}

theorem linked_next_at (linked : Linked next prev before head (left ++ a :: right)) : next a = right.head? := by
  induction left generalizing before head with
  | nil => exact linked_head linked.2.2
  | cons b rest ih => exact ih linked.2.2

theorem linked_prev_at (linked : Linked next prev before head (left ++ a :: right)) : prev a = left.getLast?.or before := by
  induction left generalizing before head with
  | nil => exact linked.2.1
  | cons b rest ih =>
    rw [ih linked.2.2]
    cases rest with
    | nil => rfl
    | cons c more => simp [List.getLast?_cons]

section
variable (linked : Linked next prev before head cells)
include linked

theorem linked_head_mem {a : Cell} (first : head = some a) : a ∈ cells :=
  List.mem_of_mem_head? ((linked_head linked).symm.trans first)

theorem linked_next_mem {a b : Cell} (member : a ∈ cells)
    (named : next a = some b) : b ∈ cells := by
  obtain ⟨left,right,rfl⟩ := List.append_of_mem member
  rw [linked_next_at linked] at named
  exact List.mem_append_right _ (List.mem_cons_of_mem _ (List.mem_of_mem_head? named))

theorem linked_prev_mem {a b : Cell} (member : a ∈ cells)
    (named : prev a = some b) : b ∈ cells ∨ before = some b := by
  obtain ⟨left,right,rfl⟩ := List.append_of_mem member
  rw [linked_prev_at linked,Option.or_eq_some_iff] at named
  exact named.imp (fun last => List.mem_append_left _ (List.mem_of_getLast? last)) And.right

end

/-- Unlinking a cell: its neighbours name each other, and the head moves on when
    the cell was the first. -/
theorem linked_remove {a : Cell}
    (linked : Linked next prev before head (left ++ a :: right)) (distinct : (left ++ a :: right).Nodup)
    (nexts : ∀ b ∈ left ++ right, prev a ≠ some b → next' b = next b)
    (prevs : ∀ b ∈ left ++ right, next a ≠ some b → prev' b = prev b)
    (skips : ∀ b ∈ left, prev a = some b → next' b = next a)
    (back : ∀ b ∈ right, next a = some b → prev' b = prev a)
    (outside : left = [] → ∀ b ∈ right, before ≠ some b) :
    Linked next' prev' before (if left = [] then next a else head) (left ++ right) := by
  induction left generalizing before head with
  | nil =>
    obtain ⟨-,prevIs,tail⟩ := linked
    have apart := List.nodup_cons.mp distinct
    refine linked_before tail apart.2 ?_ ?_ prevs
    · intro b member
      exact nexts b member (by rw [prevIs]; exact outside rfl b member)
    · intro b headIs
      have first : b ∈ right := List.mem_of_mem_head? ((linked_head tail).symm.trans headIs)
      exact (back b first headIs).trans prevIs
  | cons c rest ih =>
    obtain ⟨headIs,prevIs,tail⟩ := linked
    obtain ⟨absent,apart⟩ := List.nodup_cons.mp distinct
    have notRest : c ∉ rest ++ right := fun member =>
      absent (((List.sublist_cons_self a right).append_left rest).subset member)
    have notNext : next a ≠ some c := by
      rw [linked_next_at tail]
      intro named
      exact notRest (List.mem_append_right _ (List.mem_of_mem_head? named))
    have shorter := ih tail apart (fun b member => nexts b (List.mem_cons_of_mem _ member))
      (fun b member => prevs b (List.mem_cons_of_mem _ member))
      (fun b member => skips b (List.mem_cons_of_mem _ member))
      (by rintro - b member ⟨⟩; exact notRest (List.mem_append_right _ member))
    refine ⟨headIs,(prevs c (by simp) notNext).trans prevIs,?_⟩
    cases rest with
    | nil =>
      rw [skips c (by simp) tail.2.1]
      exact shorter
    | cons d more =>
      have notPrev : prev a ≠ some c := by
        rw [linked_prev_at tail]
        intro named
        cases named
        exact notRest (List.mem_append_left _ (List.getLast_mem _))
      rw [nexts c (by simp) notPrev]
      exact shorter

/-- A cell is put behind the last one; the first cell may name another cell before it. -/
theorem linked_snoc {a : Cell} {other : Option Cell} (linked : Linked next prev before head cells) (distinct : cells.Nodup)
    (nextIs : next' a = none) (prevIs : prev' a = cells.getLast?.or other)
    (last : ∀ b, cells.getLast? = some b → next' b = some a)
    (nexts : ∀ b ∈ cells, cells.getLast? ≠ some b → next' b = next b)
    (first : ∀ b, head = some b → prev' b = other) (prevs : ∀ b ∈ cells, head ≠ some b → prev' b = prev b) :
    Linked next' prev' other (head.or (some a)) (cells ++ [a]) := by
  induction cells generalizing before head other with
  | nil =>
    have empty : head = none := linked
    subst empty
    exact ⟨rfl,prevIs,nextIs⟩
  | cons b rest ih =>
    obtain ⟨rfl,-,tail⟩ := linked
    obtain ⟨absent,apart⟩ := List.nodup_cons.mp distinct
    refine ⟨rfl,first b rfl,?_⟩
    cases rest with
    | nil =>
      rw [last b rfl]
      exact ⟨rfl,prevIs,nextIs⟩
    | cons c more =>
      have notLast : (b :: c :: more).getLast? ≠ some b := by
        intro named
        exact absent (List.mem_of_getLast? named)
      rw [nexts b List.mem_cons_self notLast,tail.1]
      have named : ∀ d ∈ c :: more, some b ≠ some d := by
        rintro d member same
        cases same
        exact absent member
      have shorter : Linked next' prev' (some b) ((next b).or (some a)) (c :: more ++ [a]) := by
        refine ih tail apart ?_ last (fun d member => nexts d (List.mem_cons_of_mem _ member)) ?_
          (fun d member _ => prevs d (List.mem_cons_of_mem _ member) (named d member))
        · rw [prevIs]
          rfl
        · intro d headIs
          have member : d ∈ c :: more := List.mem_of_mem_head? ((linked_head tail).symm.trans headIs)
          rw [prevs d (List.mem_cons_of_mem _ member) (named d member)]
          rw [tail.1] at headIs
          cases headIs
          exact tail.2.1
      rw [tail.1] at shorter
      exact shorter

theorem chain_congr (chain : Chain next head cells) (nexts : ∀ a ∈ cells, next' a = next a) : Chain next' head cells := by
  induction cells generalizing head with
  | nil => exact chain
  | cons a rest ih =>
    obtain ⟨headIs,tail⟩ := chain
    refine ⟨headIs,?_⟩
    rw [nexts a (by simp)]
    exact ih tail (fun b member => nexts b (by simp [member]))

theorem chain_none (chain : Chain next none cells) : cells = [] := by
  cases cells with
  | nil => rfl
  | cons a rest => cases chain.1

end

/-! ### Pointers to pointers -/

section
variable {Cell : Type*}

/-- A place that holds a pointer: the head of a list or the next field of a cell. -/
inductive Place (Cell : Type*) where
  | head
  | field (a : Cell)

variable {next : Cell → Option Cell} {head v : Option Cell} {place : Place Cell} {cells left right : List Cell}

def Place.read (next : Cell → Option Cell) (head : Option Cell) : Place Cell → Option Cell
  | .head => head
  | .field a => next a

def Place.setHead (head v : Option Cell) : Place Cell → Option Cell
  | .head => v
  | .field _ => head

/-- The place behind the cells that follow it. -/
def Place.behind : Place Cell → List Cell → Place Cell
  | place, [] => place
  | _, a :: rest => (Place.field a).behind rest

/-- The walk to the first cell that satisfies the test, or to the end of the list. -/
def seek (stop : Cell → Bool) (next : Cell → Option Cell) (head : Option Cell) : Nat → Place Cell → Option (Place Cell)
  | 0, _ => none
  | fuel+1, place =>
    match place.read next head with
    | none => some place
    | some a => if stop a then some place else seek stop next head fuel (.field a)

theorem seek_chain {stop : Cell → Bool} {fuel : Nat} (chain : Chain next (place.read next head) cells)
    (enough : cells.length < fuel) :
    seek stop next head fuel place = some (place.behind (cells.takeWhile (fun a => !stop a))) := by
  induction fuel generalizing place cells with
  | zero => omega
  | succ fuel ih =>
    rw [seek]
    cases cells with
    | nil =>
      rw [show place.read next head = none from chain]
      rfl
    | cons a rest =>
      rw [chain.1]
      dsimp only
      cases here : stop a with
      | true => simp [here,Place.behind]
      | false =>
        rw [List.takeWhile_cons_of_pos (by simp [here])]
        exact @ih (.field a) rest chain.2 (Nat.lt_of_succ_lt_succ enough)

theorem chain_behind (chain : Chain next (place.read next head) (left ++ right)) :
    Chain next ((place.behind left).read next head) right := by
  induction left generalizing place with
  | nil => exact chain
  | cons a rest ih => exact ih chain.2

theorem Place.behind_mem (place : Place Cell) (some : left ≠ []) : ∃ a ∈ left, place.behind left = .field a := by
  induction left generalizing place with
  | nil => exact absurd rfl some
  | cons a rest ih =>
    cases rest with
    | nil => exact ⟨a,by simp,rfl⟩
    | cons b rest =>
      obtain ⟨c,member,same⟩ := ih (.field a) (List.cons_ne_nil b rest)
      exact ⟨c,List.mem_cons_of_mem a member,same⟩

variable [DecidableEq Cell]

def Place.setNext (next : Cell → Option Cell) (v : Option Cell) : Place Cell → Cell → Option Cell
  | .head => next
  | .field a => update next a v

/-- A write behind some cells changes no next field but theirs. -/
theorem setNext_behind (place : Place Cell) {b : Cell} (other : place ≠ .field b) (outside : b ∉ left) :
    (place.behind left).setNext next v b = next b := by
  by_cases empty : left = []
  · rw [empty]
    cases place with
    | head => rfl
    | field a => exact update_of_ne (fun same => other (by rw [same])) ..
  · obtain ⟨a,member,same⟩ := place.behind_mem empty
    rw [same]
    refine update_of_ne ?_ ..
    rintro rfl
    exact outside member

/-- A write behind some cells of a list replaces what follows them. -/
theorem chain_write (chain : Chain next (place.read next head) (left ++ right)) (new : Chain next v cells)
    (distinct : left.Nodup) (apart : ∀ a ∈ left, a ∉ cells) (ahead : ∀ a, place = .field a → a ∉ left ∧ a ∉ cells) :
    Chain ((place.behind left).setNext next v)
      (place.read ((place.behind left).setNext next v) ((place.behind left).setHead head v)) (left ++ cells) := by
  induction left generalizing place with
  | nil =>
    cases place with
    | head => exact new
    | field a =>
      show Chain (update next a v) (update next a v a) cells
      rw [update_self]
      refine chain_congr new (fun b member => update_of_ne ?_ ..)
      rintro rfl
      exact (ahead b rfl).2 member
  | cons a rest ih =>
    have written := @ih (.field a) chain.2 (List.nodup_cons.mp distinct).2
      (fun b member => apart b (List.mem_cons_of_mem a member))
      (by rintro b ⟨⟩; exact ⟨(List.nodup_cons.mp distinct).1,apart a (by simp)⟩)
    refine ⟨?_,written⟩
    -- the place before the cells is not written
    rw [← chain.1]
    cases place with
    | head =>
      obtain ⟨b,_,same⟩ := Place.head.behind_mem (List.cons_ne_nil a rest)
      rw [same]
      rfl
    | field b =>
      refine setNext_behind (.field a) ?_ (fun member => (ahead b rfl).1 (List.mem_cons_of_mem a member))
      rintro ⟨⟩
      exact (ahead a rfl).1 (by simp)

end

/-! ### Lists that share no cell -/

section
variable {Key Cell : Type*} [DecidableEq Key] {lists : Key → List Cell} {k : Key} {a : Cell} {cells : List Cell}

/-- Lists by key without repetitions; no cell is in two of them. -/
structure Parted (lists : Key → List Cell) : Prop where
  distinct : ∀ k, (lists k).Nodup
  separate : ∀ j k a, a ∈ lists j → a ∈ lists k → j = k

theorem distinct_set (parted : Parted lists) (distinct : cells.Nodup) (j : Key) :
    (update lists k cells j).Nodup :=
  (Function.forall_update_iff lists (fun _ cells => cells.Nodup)).mpr ⟨distinct,fun j _ => parted.distinct j⟩ j

theorem mem_added (grown : cells.Perm (a :: lists k)) (j : Key) (b : Cell) :
    b ∈ update lists k cells j ↔ b ∈ lists j ∨ (j = k ∧ b = a) := by
  by_cases same : j = k
  · subst same
    rw [update_self,grown.mem_iff,or_comm]
    simp
  · simp [same]

section
variable (parted : Parted lists)
include parted

theorem Parted.add (fresh : ∀ j, a ∉ lists j) (grown : cells.Perm (a :: lists k)) :
    Parted (update lists k cells) := by
  have distinct : cells.Nodup := grown.nodup_iff.mpr (List.nodup_cons.mpr ⟨fresh k,parted.distinct k⟩)
  refine ⟨distinct_set parted distinct,fun i j b inI inJ => ?_⟩
  rcases (mem_added grown i b).mp inI with oldI | ⟨rfl,rfl⟩ <;> rcases (mem_added grown j b).mp inJ with oldJ | ⟨rfl,newJ⟩
  · exact parted.separate i j b oldI oldJ
  · rw [newJ] at oldI
    exact absurd oldI (fresh i)
  · exact absurd oldJ (fresh j)
  · rfl

section
variable {left right : List Cell} (split : lists k = left ++ a :: right)
include split

theorem Parted.mem_without (j : Key) (b : Cell) :
    b ∈ update lists k (left ++ right) j ↔ b ≠ a ∧ b ∈ lists j := by
  have member : a ∈ lists k := by simp [split]
  by_cases same : j = k
  · subst same
    have apart := List.nodup_middle.mp (split ▸ parted.distinct j)
    have absent := (List.nodup_cons.mp apart).1
    rw [update_self,split]
    by_cases is : b = a
    · simpa [is] using absent
    · simp [is]
  · rw [update_of_ne same]
    refine ⟨fun here => ⟨?_,here⟩,And.right⟩
    rintro rfl
    exact same (parted.separate j k b here member)

theorem Parted.mem_rest (b : Cell)
    (member : b ∈ left ++ right) : b ∈ lists k ∧ b ≠ a :=
  ((parted.mem_without split k b).mp (by rwa [update_self])).symm

theorem Parted.without :
    Parted (update lists k (left ++ right)) := by
  have old := parted.mem_without split
  have distinct := (List.nodup_cons.mp (List.nodup_middle.mp (split ▸ parted.distinct k))).2
  exact ⟨distinct_set parted distinct,fun i j b inI inJ => parted.separate i j b ((old i b).mp inI).2 ((old j b).mp inJ).2⟩

end

theorem Parted.mem_emptied (k j : Key) (b : Cell) :
    b ∈ update lists k [] j ↔ b ∈ lists j ∧ b ∉ lists k := by
  by_cases same : j = k
  · subst same
    simp
  · rw [update_of_ne same]
    exact ⟨fun here => ⟨here,fun there => same (parted.separate j k b here there)⟩,And.left⟩

theorem Parted.emptied (k : Key) : Parted (update lists k []) := by
  have old := parted.mem_emptied k
  exact ⟨distinct_set parted List.nodup_nil,fun i j b inI inJ => parted.separate i j b ((old i b).mp inI).1 ((old j b).mp inJ).1⟩

end

end

/-! ### Families of lists and queues -/

section
variable {Key Cell : Type*}

/-- Linked lists by key over the same link fields; no cell is in two of them. -/
structure Family (next prev : Cell → Option Cell) (head : Key → Option Cell) (lists : Key → List Cell) : Prop where
  linked : ∀ k, Linked next prev none (head k) (lists k)
  distinct : ∀ k, (lists k).Nodup
  separate : ∀ j k a, a ∈ lists j → a ∈ lists k → j = k

variable {next prev next' prev' : Cell → Option Cell} {head head' : Key → Option Cell} {lists : Key → List Cell}
  {k : Key} {a b : Cell}

section
variable (family : Family next prev head lists)
include family

theorem Family.parted : Parted lists := ⟨family.distinct,family.separate⟩

theorem Family.congr (heads : head' = head)
    (nexts : ∀ k, ∀ a ∈ lists k, next' a = next a) (prevs : ∀ k, ∀ a ∈ lists k, prev' a = prev a) :
    Family next' prev' head' lists := by
  refine ⟨fun k => ?_,family.distinct,family.separate⟩
  rw [heads]
  exact linked_congr (family.linked k) (nexts k) (prevs k)

theorem Family.head_mem (first : head k = some a) : a ∈ lists k :=
  linked_head_mem (family.linked k) first

theorem Family.prev_mem (member : a ∈ lists k) (named : prev a = some b) : b ∈ lists k :=
  (linked_prev_mem (family.linked k) member named).resolve_right nofun

theorem Family.next_mem (member : a ∈ lists k) (named : next a = some b) : b ∈ lists k :=
  linked_next_mem (family.linked k) member named

end

/-- Linked lists by key whose first cell names the last one as the cell before it. -/
structure Queues (next prev : Cell → Option Cell) (head : Key → Option Cell) (lists : Key → List Cell) : Prop where
  linked : ∀ k, Linked next prev (lists k).getLast? (head k) (lists k)
  distinct : ∀ k, (lists k).Nodup
  separate : ∀ j k a, a ∈ lists j → a ∈ lists k → j = k

section
variable (queues : Queues next prev head lists)
include queues

theorem Queues.parted : Parted lists := ⟨queues.distinct,queues.separate⟩

theorem Queues.congr (heads : head' = head)
    (nexts : ∀ k, ∀ a ∈ lists k, next' a = next a) (prevs : ∀ k, ∀ a ∈ lists k, prev' a = prev a) :
    Queues next' prev' head' lists := by
  refine ⟨fun k => ?_,queues.distinct,queues.separate⟩
  rw [heads]
  exact linked_congr (queues.linked k) (nexts k) (prevs k)

theorem Queues.head_mem (first : head k = some a) : a ∈ lists k :=
  linked_head_mem (queues.linked k) first

theorem Queues.prev_head (first : head k = some a) : prev a = (lists k).getLast? :=
  linked_prev_head (queues.linked k) first

end

/-! ### Changes to one list -/

variable [DecidableEq Key]

/-- One of the lists is changed, and the fields of the others are not. The cell before
    the first one depends on the list. -/
theorem linked_set (before : List Cell → Option Cell) {first : Option Cell} {cells : List Cell}
    (linked : ∀ j, Linked next prev (before (lists j)) (head j) (lists j)) (new : Linked next' prev' (before cells) first cells)
    (others : ∀ j, j ≠ k → ∀ b ∈ lists j, next' b = next b ∧ prev' b = prev b) (j : Key) :
    Linked next' prev' (before (update lists k cells j)) (update head k first j) (update lists k cells j) := by
  by_cases same : j = k
  · subst same
    simpa only [update_self] using new
  · simp only [update_of_ne same]
    exact linked_congr (linked j) (fun b here => (others j same b here).1) (fun b here => (others j same b here).2)

theorem Family.push (family : Family next prev head lists)
    (fresh : ∀ j, a ∉ lists j) (nextIs : next' a = head k) (prevIs : prev' a = none)
    (nexts : ∀ j, ∀ b ∈ lists j, next' b = next b) (first : ∀ b, head k = some b → prev' b = some a)
    (prevs : ∀ j, ∀ b ∈ lists j, head k ≠ some b → prev' b = prev b) (heads : head' = update head k (some a)) :
    Family next' prev' head' (update lists k (a :: lists k)) := by
  have parted := family.parted.add fresh (.refl (a :: lists k))
  rw [heads]
  refine ⟨linked_set (fun _ => none) family.linked ?_ (fun j other b here => ⟨nexts j b here,prevs j b here ?_⟩),
    parted.distinct,parted.separate⟩
  · exact linked_push (family.linked k) (family.distinct k) nextIs prevIs (nexts k) first (prevs k)
  · exact fun named => other (family.separate j k b here (family.head_mem named))

section
variable (fresh : ∀ j, a ∉ lists j) (nextIs : next' a = none) (last : ∀ b, (lists k).getLast? = some b → next' b = some a)
  (nexts : ∀ j, ∀ b ∈ lists j, (lists k).getLast? ≠ some b → next' b = next b) (heads : head' = update head k ((head k).or (some a)))
include fresh nextIs last nexts heads

theorem Family.snoc (family : Family next prev head lists) (prevIs : prev' a = (lists k).getLast?)
    (prevs : ∀ j, ∀ b ∈ lists j, prev' b = prev b) :
    Family next' prev' head' (update lists k (lists k ++ [a])) := by
  have parted := family.parted.add fresh (List.perm_append_singleton a (lists k))
  rw [heads]
  refine ⟨linked_set (fun _ => none) family.linked ?_ (fun j other b here => ⟨nexts j b here ?_,prevs j b here⟩),
    parted.distinct,parted.separate⟩
  · refine linked_snoc (family.linked k) (family.distinct k) nextIs ?_ last (nexts k) ?_ (fun b here _ => prevs k b here)
    · rw [prevIs,Option.or_none]
    · intro b first
      rw [prevs k b (family.head_mem first)]
      exact linked_prev_head (family.linked k) first
  · exact fun named => other (family.separate j k b here (List.mem_of_getLast? named))

theorem Queues.snoc (queues : Queues next prev head lists) (prevIs : prev' a = (lists k).getLast?.or (some a))
    (first : ∀ b, head k = some b → prev' b = some a) (prevs : ∀ j, ∀ b ∈ lists j, head k ≠ some b → prev' b = prev b) :
    Queues next' prev' head' (update lists k (lists k ++ [a])) := by
  have parted := queues.parted.add fresh (List.perm_append_singleton a (lists k))
  rw [heads]
  refine ⟨linked_set List.getLast? queues.linked ?_ (fun j other b here => ⟨nexts j b here ?_,prevs j b here ?_⟩),
    parted.distinct,parted.separate⟩
  · rw [List.getLast?_concat]
    exact linked_snoc (queues.linked k) (queues.distinct k) nextIs prevIs last (nexts k) first (prevs k)
  · exact fun named => other (queues.separate j k b here (List.mem_of_getLast? named))
  · exact fun named => other (queues.separate j k b here (queues.head_mem named))

end

section
variable {left right : List Cell} (cells : lists k = left ++ a :: right)
  (nexts : ∀ j, ∀ b ∈ lists j, b ≠ a → prev a ≠ some b → next' b = next b)
  (prevs : ∀ j, ∀ b ∈ lists j, b ≠ a → next a ≠ some b → prev' b = prev b)
include cells nexts prevs

theorem Family.remove (family : Family next prev head lists)
    (skips : ∀ b ∈ lists k, b ≠ a → prev a = some b → next' b = next a)
    (back : ∀ b ∈ lists k, b ≠ a → next a = some b → prev' b = prev a)
    (heads : head' = update head k (if left = [] then next a else head k)) :
    Family next' prev' head' (update lists k (left ++ right)) := by
  have linked := family.linked k
  have apart := family.distinct k
  rw [cells] at linked apart
  have member : a ∈ lists k := by simp [cells]
  have parted := family.parted.without cells
  have others := family.parted.mem_rest cells
  rw [heads]
  refine ⟨linked_set (fun _ => none) family.linked ?_ ?_,parted.distinct,parted.separate⟩
  · have beside : ∀ b ∈ left, b ∈ lists k ∧ b ≠ a := fun b member => others b (List.mem_append_left _ member)
    have beyond : ∀ b ∈ right, b ∈ lists k ∧ b ≠ a := fun b member => others b (List.mem_append_right _ member)
    exact linked_remove linked apart (fun b member => nexts k b (others b member).1 (others b member).2)
      (fun b member => prevs k b (others b member).1 (others b member).2)
      (fun b member => skips b (beside b member).1 (beside b member).2)
      (fun b member => back b (beyond b member).1 (beyond b member).2) nofun
  · intro j other b here
    have away : ∀ c ∈ lists k, b ≠ c := fun c inside same => other (family.separate j k b here (same ▸ inside))
    exact ⟨nexts j b here (away a member) (fun named => away b (family.prev_mem member named) rfl),
      prevs j b here (away a member) (fun named => away b (family.next_mem member named) rfl)⟩

theorem Queues.remove (queues : Queues next prev head lists) (behind : left ≠ []) (before : right ≠ [])
    (skips : ∀ b, prev a = some b → next' b = next a) (back : ∀ b, next a = some b → prev' b = prev a) :
    Queues next' prev' head (update lists k (left ++ right)) := by
  have linked := queues.linked k
  have apart := queues.distinct k
  rw [cells] at linked apart
  have member : a ∈ lists k := by simp [cells]
  have parted := queues.parted.without cells
  have others := queues.parted.mem_rest cells
  rw [← update_eq_self k head]
  refine ⟨linked_set List.getLast? queues.linked ?_ ?_,parted.distinct,parted.separate⟩
  · have shorter := linked_remove linked apart (fun b here => nexts k b (others b here).1 (others b here).2)
      (fun b here => prevs k b (others b here).1 (others b here).2) (fun b _ => skips b) (fun b _ => back b)
      (fun none => absurd none behind)
    rw [if_neg behind] at shorter
    have sameLast : (left ++ right).getLast? = (left ++ a :: right).getLast? := by
      rw [List.getLast?_append_of_ne_nil _ before,List.getLast?_append_of_ne_nil _ (by simp),List.getLast?_cons_of_ne_nil before]
    rw [sameLast]
    exact shorter
  · intro j other b here
    have away : ∀ c ∈ lists k, b ≠ c := fun c inside same => other (queues.separate j k b here (same ▸ inside))
    refine ⟨nexts j b here (away a member) (fun named => ?_),
      prevs j b here (away a member) (fun named => away b (linked_next_mem (queues.linked k) member named) rfl)⟩
    rcases linked_prev_mem (queues.linked k) member named with inside | last
    · exact away b inside rfl
    · exact away b (List.mem_of_getLast? last) rfl

end

theorem Queues.detach (queues : Queues next prev head lists) (k : Key) :
    Queues next prev (update head k none) (update lists k []) := by
  have parted := queues.parted.emptied k
  exact ⟨linked_set List.getLast? queues.linked rfl (fun _ _ _ _ => ⟨rfl,rfl⟩),parted.distinct,parted.separate⟩

end

/-! ### Singly linked lists with a pointer to the last cell -/

section
variable {Key Cell : Type*} {next next' : Cell → Option Cell} {head tail : Key → Option Cell} {lists : Key → List Cell}

/-- Lists by key over the same next field, each with its last cell; no cell is in two of them. -/
structure Tailed (next : Cell → Option Cell) (head tail : Key → Option Cell) (lists : Key → List Cell) : Prop where
  parted : Parted lists
  chain : ∀ k, Chain next (head k) (lists k)
  last : ∀ k, tail k = (lists k).getLast?

theorem Tailed.congr (tailed : Tailed next head tail lists) (nexts : ∀ k, ∀ a ∈ lists k, next' a = next a) :
    Tailed next' head tail lists :=
  ⟨tailed.parted,fun k => chain_congr (tailed.chain k) (nexts k),tailed.last⟩

theorem Tailed.write [DecidableEq Cell] {a : Cell} (tailed : Tailed next head tail lists) (outside : ∀ j, a ∉ lists j) (v : Option Cell) :
    Tailed (update next a v) head tail lists := by
  refine tailed.congr (fun j b member => update_of_ne ?_ ..)
  rintro rfl
  exact outside j member

theorem Place.behind_snoc (place : Place Cell) (left : List Cell) (a : Cell) : place.behind (left ++ [a]) = .field a := by
  induction left generalizing place with
  | nil => rfl
  | cons b rest ih => exact ih (.field b)

variable [DecidableEq Key] {k : Key} {a : Cell}

/-- The lists after one of them, its head and its last cell have changed. -/
theorem Tailed.set {cells : List Cell} {first last : Option Cell} (tailed : Tailed next head tail lists)
    (parted : Parted (update lists k cells)) (chain : Chain next' first cells) (lastIs : last = cells.getLast?)
    (others : ∀ j, j ≠ k → ∀ a ∈ lists j, next' a = next a) :
    Tailed next' (update head k first) (update tail k last) (update lists k cells) := by
  refine ⟨parted,fun j => ?_,fun j => ?_⟩
  · by_cases same : j = k
    · subst same
      rwa [update_self,update_self]
    · rw [update_of_ne same,update_of_ne same]
      exact chain_congr (tailed.chain j) (others j same)
  · by_cases same : j = k
    · subst same
      rwa [update_self,update_self]
    · rw [update_of_ne same,update_of_ne same]
      exact tailed.last j

variable [DecidableEq Cell]

/-- A write to the next field of a cell of a list replaces what follows it. -/
theorem chain_relink {first v : Option Cell} {b : Cell} {left right cells : List Cell}
    (chain : Chain next first (left ++ b :: right)) (new : Chain next v cells)
    (distinct : (left ++ b :: cells).Nodup) : Chain (update next b v) first (left ++ b :: cells) := by
  rw [List.append_cons] at chain distinct ⊢
  have written := @chain_write Cell next first v .head cells (left ++ [b]) right _ chain new distinct.of_append_left
    (fun c member inside => List.disjoint_of_nodup_append distinct member inside) nofun
  rw [Place.behind_snoc] at written
  exact written

section
variable (tailed : Tailed next head tail lists) {p : Cell}
include tailed

omit [DecidableEq Key] in
/-- A write to a cell of one list is none to the others. -/
theorem Tailed.update_other {v : Option Cell} (inside : p ∈ lists k) (j : Key) (other : j ≠ k) (b : Cell)
    (member : b ∈ lists j) : update next' p v b = next' b := by
  refine update_of_ne ?_ ..
  rintro rfl
  exact other (tailed.parted.separate j k b member inside)

theorem Tailed.snoc_last (fresh : ∀ j, a ∉ lists j) (last : tail k = some p) :
    Tailed (update (update next a none) p (some a)) head (update tail k (some a))
      (update lists k (lists k ++ [a])) := by
  obtain ⟨left,cells⟩ := List.getLast?_eq_some_iff.mp ((tailed.last k).symm.trans last)
  have parted : Parted (update lists k (lists k ++ [a])) :=
    tailed.parted.add fresh (List.perm_append_singleton a (lists k))
  have cleared := tailed.write fresh none
  have distinct := parted.distinct k
  rw [update_self,cells,List.append_assoc] at distinct
  have chain := cleared.chain k
  rw [cells] at chain
  have only : Chain (update next a none) (some a) [a] := by
    refine ⟨rfl,?_⟩
    rw [update_self]
    rfl
  have linked : Chain (update (update next a none) p (some a)) (head k) (lists k ++ [a]) := by
    rw [cells,List.append_assoc]
    exact chain_relink chain only distinct
  have whole := cleared.set parted linked (List.getLast?_concat ..).symm (tailed.update_other (by simp [cells]))
  rwa [update_eq_self] at whole

theorem Tailed.snoc_first (fresh : ∀ j, a ∉ lists j) (last : tail k = none) :
    Tailed (update next a none) (update head k (some a)) (update tail k (some a))
      (update lists k (lists k ++ [a])) := by
  have empty : lists k = [] := List.getLast?_eq_none_iff.mp ((tailed.last k).symm.trans last)
  have parted : Parted (update lists k (lists k ++ [a])) :=
    tailed.parted.add fresh (List.perm_append_singleton a (lists k))
  have cleared := tailed.write fresh none
  refine cleared.set parted ?_ (List.getLast?_concat ..).symm (fun _ _ _ _ => rfl)
  rw [empty]
  refine ⟨rfl,?_⟩
  rw [update_self]
  rfl

theorem Tailed.pop {rest : List Cell} (cells : lists k = a :: rest) :
    Tailed (update next a none) (update head k (next a))
      (update tail k (if (next a).isNone then none else tail k)) (update lists k rest) := by
  have split : lists k = [] ++ a :: rest := cells
  have parted := tailed.parted.without split
  have absent : ∀ j, a ∉ update lists k rest j := fun j member =>
    ((tailed.parted.mem_without split j a).mp member).1 rfl
  have chain := tailed.chain k
  rw [cells] at chain
  have last : (if (next a).isNone then none else tail k) = rest.getLast? := by
    cases rest with
    | nil => simp [show next a = none from chain.2]
    | cons b rest =>
      rw [show next a = some b from chain.2.1,tailed.last,cells]
      simp
  exact (tailed.set parted chain.2 last (fun _ _ _ _ => rfl)).write absent none

theorem Tailed.unlink {left right : List Cell}
    (cells : lists k = left ++ p :: a :: right) :
    Tailed (update (update next p (next a)) a none) head
      (update tail k (if tail k = some a then some p else tail k)) (update lists k (left ++ p :: right)) := by
  have split : lists k = (left ++ [p]) ++ a :: right := by simp [cells]
  have parts := List.append_cons left p right
  have parted := tailed.parted.without split
  have gone := tailed.parted.mem_without split
  rw [← parts] at parted gone
  have distinct := parted.distinct k
  rw [update_self] at distinct
  have chain := tailed.chain k
  have after : Chain next (next a) right := by
    have place := @chain_behind Cell next (head k) .head (left ++ [p]) (a :: right) (by rw [← split]; exact chain)
    exact place.2
  have last : (if tail k = some a then some p else tail k) = (left ++ p :: right).getLast? := by
    rw [tailed.last,cells]
    cases right with
    | nil => simp
    | cons b rest =>
      have absent : a ∉ b :: rest := by
        intro member
        refine ((gone k a).mp ?_).1 rfl
        rw [update_self]
        exact List.mem_append_right left (List.mem_cons_of_mem p member)
      have other : (left ++ p :: a :: b :: rest).getLast? ≠ some a := by
        intro same
        refine absent (List.mem_of_getLast? ?_)
        simpa using same
      rw [if_neg other]
      simp
  rw [cells] at chain
  have whole := tailed.set parted (chain_relink chain after distinct) last (tailed.update_other (by simp [cells]))
  rw [update_eq_self] at whole
  exact whole.write (fun j member => ((gone j a).mp member).1 rfl) none

end

end

end Kenux.Links
