import Kenux.Links
import Mathlib.Logic.Function.Basic

/-!
Wait queues (`wait.c`, and inlined in `sync.c`): a doubly linked list of nodes that lie on the
stacks of the waiting processes. `Holds` says that a queue is the list of some nodes and that
every other node is unlinked; adding a node, removing one and looking for the first
process that waits do what they do to the list (`Holds.add`, `Holds.remove`, `Holds.scan`).
-/
namespace Kenux.WaitQueue
open Function (update update_apply update_self update_of_ne)

structure Queue (Node : Type*) where
  head : Option Node
  tail : Option Node
  next : Node → Option Node
  prev : Node → Option Node

section
variable {Node : Type*} {nodes : List Node} {fuel : Nat}

def waitQueueInit : Queue Node := ⟨none,none,fun _ => none,fun _ => none⟩

/-- The search for the first node whose process waits, over so many nodes: `none` if it does
    not come to an end, `some none` if there is no such node. -/
def scan (waits : Node → Bool) (next : Node → Option Node) : Nat → Option Node → Option (Option Node)
  | _, none => some none
  | 0, some _ => none
  | fuel+1, some node => if waits node then some (some node) else scan waits next fuel (next node)

/-- The queue is the list of these nodes, and the others are unlinked. -/
structure Holds (q : Queue Node) (nodes : List Node) : Prop where
  linked : Links.Linked q.next q.prev none q.head nodes
  tail : q.tail = nodes.getLast?
  distinct : nodes.Nodup
  others : ∀ a, a ∉ nodes → q.next a = none ∧ q.prev a = none

theorem waitQueueInit_holds : Holds (waitQueueInit : Queue Node) [] :=
  ⟨rfl,rfl,.nil,fun _ _ => ⟨rfl,rfl⟩⟩

theorem scan_chain {next : Node → Option Node} {waits : Node → Bool} {head : Option Node}
    (enough : nodes.length ≤ fuel) (chain : Links.Chain next head nodes) : scan waits next fuel head = some (nodes.find? waits) := by
  induction nodes generalizing fuel head with
  | nil =>
    have empty : head = none := chain
    rw [empty,scan.eq_def]
    rfl
  | cons a rest ih =>
    obtain ⟨rfl,chain⟩ := chain
    cases fuel with
    | zero => cases enough
    | succ fuel =>
      rw [scan,List.find?_cons]
      cases waits a with
      | true => rfl
      | false => exact ih (Nat.le_of_succ_le_succ enough) chain

theorem Holds.scan {q : Queue Node} (holds : Holds q nodes) (waits : Node → Bool)
    (enough : nodes.length ≤ fuel) : scan waits q.next fuel q.head = some (nodes.find? waits) :=
  scan_chain enough (Links.linked_chain holds.linked)

variable {Key : Type*} {next prev : Node → Option Node} {head tail : Key → Option Node} {lists : Key → List Node} {k : Key}
  {q : Queue Node} {nodes left right : List Node} {node : Node}

/-- Queues by key over the same links, and the nodes of no queue are unlinked. -/
structure Held (next prev : Node → Option Node) (head tail : Key → Option Node) (lists : Key → List Node) : Prop where
  family : Links.Family next prev head lists
  tails : ∀ k, tail k = (lists k).getLast?
  others : ∀ a, (∀ k, a ∉ lists k) → next a = none ∧ prev a = none

theorem Holds.held (holds : Holds q nodes) : Held q.next q.prev (fun _ : Unit => q.head) (fun _ => q.tail) (fun _ => nodes) :=
  ⟨⟨fun _ => holds.linked,fun _ => holds.distinct,fun _ _ _ _ _ => rfl⟩,fun _ => holds.tail,fun a outside => holds.others a (outside ())⟩

/-- The queues when the one of a key has become `q`. -/
abbrev Becomes [DecidableEq Key] (head tail : Key → Option Node) (k : Key) (q : Queue Node) (lists : Key → List Node) : Prop :=
  Held q.next q.prev (update head k q.head) (update tail k q.tail) lists

theorem Held.last_mem (held : Held next prev head tail lists) (named : tail k = some node) : node ∈ lists k :=
  List.mem_of_getLast? ((held.tails k).symm.trans named)

theorem tails_update [DecidableEq Key] {tail' : Key → Option Node} (tails : ∀ k, tail k = (lists k).getLast?) (changed : tail' = update tail k nodes.getLast?)
    (j : Key) : tail' j = (update lists k nodes j).getLast? := by
  rw [changed]
  by_cases same : j = k
  · subst same
    rw [update_self,update_self]
  · rw [update_of_ne same,update_of_ne same]
    exact tails j

theorem Held.holds {head tail : Unit → Option Node} {lists : Unit → List Node} (held : Held q.next q.prev head tail lists)
    (heads : head () = q.head) (tails : tail () = q.tail) : Holds q (lists ()) :=
  ⟨heads ▸ held.family.linked (),tails ▸ held.tails (),held.family.distinct (),fun a outside => held.others a (fun _ => outside)⟩

variable [DecidableEq Node]

def wqAdd (q : Queue Node) (node : Node) : Queue Node :=
  let next := update q.next node none
  let prev := update q.prev node q.tail
  match q.tail with
  | some t => ⟨q.head,some node,update next t (some node),prev⟩
  | none => ⟨some node,some node,next,prev⟩

def wqRemove (q : Queue Node) (node : Node) : Queue Node :=
  let q := match q.prev node with
    | some b => { q with next := update q.next b (q.next node) }
    | none => { q with head := q.next node }
  let q := match q.next node with
    | some c => { q with prev := update q.prev c (q.prev node) }
    | none => { q with tail := q.prev node }
  { q with
    next := update q.next node none
    prev := update q.prev node none }

/-- The test `node.next || node.prev || head == &node`. -/
def wqLinked (q : Queue Node) (node : Node) : Bool :=
  (q.next node).isSome ∨ (q.prev node).isSome ∨ q.head = some node

section
variable (q : Queue Node)

private theorem wqAdd_head (node : Node) :
    (wqAdd q node).head = if q.tail = none then some node else q.head := by
  rw [wqAdd]
  cases q.tail <;> rfl

private theorem wqAdd_tail (node : Node) : (wqAdd q node).tail = some node := by
  rw [wqAdd]
  cases q.tail <;> rfl

private theorem wqAdd_next (node b : Node) :
    (wqAdd q node).next b = if q.tail = some b then some node else if b = node then none else q.next b := by
  rw [wqAdd]
  cases q.tail with
  | none => simp [update_apply]
  | some t => simp [update_apply,eq_comm]

private theorem wqAdd_prev (node b : Node) :
    (wqAdd q node).prev b = if b = node then q.tail else q.prev b := by
  rw [wqAdd]
  cases q.tail <;> exact update_apply ..

theorem wqRemove_fields (node : Node) :
    (wqRemove q node).head = (if q.prev node = none then q.next node else q.head) ∧
    (wqRemove q node).tail = (if q.next node = none then q.prev node else q.tail) ∧
    (∀ b, (wqRemove q node).next b =
      if b = node then none else if q.prev node = some b then q.next node else q.next b) ∧
    ∀ b, (wqRemove q node).prev b =
      if b = node then none else if q.next node = some b then q.prev node else q.prev b := by
  rw [wqRemove]
  cases before : q.prev node with
  | none =>
    cases after : q.next node with
    | none => simp [before,update_apply]
    | some c => simp [before,update_apply,eq_comm]
  | some b =>
    cases after : q.next node with
    | none | some c => simp [before,after,update_apply,eq_comm]

end

section
variable (held : Held next prev head tail lists)
include held

theorem Held.linked_iff (only : ∀ j, node ∈ lists j → j = k) :
    wqLinked ⟨head k,tail k,next,prev⟩ node = true ↔ node ∈ lists k := by
  rw [wqLinked,decide_eq_true_iff]
  constructor
  · intro test
    by_contra absent
    obtain ⟨next,prev⟩ := held.others node (fun j member => absent (only j member ▸ member))
    have first : head k = some node := by simpa [next,prev] using test
    exact absent (held.family.head_mem first)
  · intro member
    obtain ⟨left,right,cells⟩ := List.append_of_mem member
    have linked := held.family.linked k
    rw [cells] at linked
    cases left with
    | nil => exact .inr (.inr linked.1)
    | cons b rest =>
      refine .inr (.inl ?_)
      dsimp only
      rw [Links.linked_prev_at linked]
      rfl

theorem Held.add [DecidableEq Key] (fresh : ∀ j, node ∉ lists j) :
    Becomes head tail k (wqAdd ⟨head k,tail k,next,prev⟩ node) (update lists k (lists k ++ [node])) := by
  have other : ∀ j, ∀ b ∈ lists j, b ≠ node := fun j b member => ne_of_mem_of_not_mem member (fresh j)
  constructor
  · refine held.family.snoc fresh ?_ ?_ ?_ ?_ ?_ ?_
    · rw [wqAdd_next,if_neg (fun named => fresh k (held.last_mem named)),if_pos rfl]
    · intro b named
      rw [wqAdd_next,if_pos ((held.tails k).trans named)]
    · intro j b member early
      rw [wqAdd_next,held.tails,if_neg early,if_neg (other j b member)]
    · rw [wqAdd_head,held.tails,Links.linked_head (held.family.linked k)]
      cases lists k with
      | nil => rfl
      | cons b rest => simp
    · rw [wqAdd_prev,if_pos rfl,held.tails]
    · intro j b member
      rw [wqAdd_prev,if_neg (other j b member)]
  · refine tails_update held.tails ?_
    rw [wqAdd_tail,List.getLast?_append]
    rfl
  · intro b absent
    have away : ∀ j, b ∉ lists j ∧ ¬(j = k ∧ b = node) := by
      intro j
      have outside := absent j
      rw [Links.mem_added (List.perm_append_singleton node (lists k)),not_or] at outside
      exact outside
    have different : b ≠ node := fun same => (away k).2 ⟨rfl,same⟩
    rw [wqAdd_next,wqAdd_prev,if_neg (fun named => (away k).1 (held.last_mem named)),if_neg different,if_neg different]
    exact held.others b (fun j => (away j).1)

theorem Held.remove [DecidableEq Key] (cells : lists k = left ++ node :: right) :
    Becomes head tail k (wqRemove ⟨head k,tail k,next,prev⟩ node) (update lists k (left ++ right)) := by
  have linked := held.family.linked k
  rw [cells] at linked
  have before : prev node = left.getLast? := by rw [Links.linked_prev_at linked,Option.or_none]
  have after : next node = right.head? := Links.linked_next_at linked
  have early : ∀ b, prev node = some b → b ∈ left := fun b named => List.mem_of_getLast? (before.symm.trans named)
  have late : ∀ b, next node = some b → b ∈ right := fun b named => List.mem_of_mem_head? (after.symm.trans named)
  obtain ⟨heads,tails,nexts,prevs⟩ := wqRemove_fields ⟨head k,tail k,next,prev⟩ node
  constructor
  · refine held.family.remove cells ?_ ?_ ?_ ?_ ?_
    · intro j b _ different notPrev
      rw [nexts,if_neg different,if_neg notPrev]
    · intro j b _ different notNext
      rw [prevs,if_neg different,if_neg notNext]
    · intro b _ different named
      rw [nexts,if_neg different,if_pos named]
    · intro b _ different named
      rw [prevs,if_neg different,if_pos named]
    · rw [heads]
      simp [before]
  · refine tails_update held.tails (congrArg (update tail k) (tails.trans ?_))
    simp only [before,after,held.tails,cells]
    cases right with
    | nil => simp
    | cons c rest => simp
  · intro b absent
    rw [nexts,prevs]
    by_cases same : b = node
    · rw [if_pos same,if_pos same]
      exact ⟨rfl,rfl⟩
    · have away : ∀ j, b ∉ lists j := fun j member => absent j ((held.family.parted.mem_without cells j b).mpr ⟨same,member⟩)
      have notLeft : b ∉ left ∧ b ∉ right := by
        have outside := away k
        rw [cells,List.mem_append,List.mem_cons] at outside
        exact ⟨fun member => outside (.inl member),fun member => outside (.inr (.inr member))⟩
      rw [if_neg same,if_neg same,if_neg (fun named => notLeft.1 (early b named)),if_neg (fun named => notLeft.2 (late b named))]
      exact held.others b away

end

theorem Holds.linked_iff (holds : Holds q nodes) : wqLinked q node = true ↔ node ∈ nodes := holds.held.linked_iff (k := ()) (fun _ _ => rfl)

theorem Holds.add (holds : Holds q nodes) (fresh : node ∉ nodes) : Holds (wqAdd q node) (nodes ++ [node]) :=
  (holds.held.add (k := ()) (fun _ => fresh)).holds rfl rfl

theorem Holds.remove (holds : Holds q nodes) (member : node ∈ nodes) : Holds (wqRemove q node) (nodes.erase node) := by
  obtain ⟨left,right,rfl⟩ := List.append_of_mem member
  have notLeft : node ∉ left := fun here =>
    (List.nodup_cons.mp (List.nodup_middle.mp holds.distinct)).1 (List.mem_append_left _ here)
  rw [List.erase_append_right _ notLeft,List.erase_cons_head]
  exact (holds.held.remove (k := ()) rfl).holds rfl rfl

end
end Kenux.WaitQueue
